import Mathlib.Algebra.BigOperators.Group.Finset.Basic
import Ipq4019.Edma.RxBounds

/-!
# The receive ring: the return descriptor

A return descriptor packs more into its words than the driver looks at: the size of the frame shares
`rrd6` with two flags, and `rrd1` says how many receive descriptors the frame occupies, of which only
the first begins with a return descriptor.

* `rrd_decode_iff`: a run of calls decodes the frames it comes across exactly if each of them takes
  one descriptor and carries no flag that shows in the length.
-/

namespace Ipq4019.Edma.RxDecode

open Ipq4019.Lib Ipq4019.Lib.Interleave Ipq4019.Lib.Memory Ipq4019.Lib.Ring
open Ipq4019.Edma.Driver Ipq4019.Edma.Device Ipq4019.Edma.RxRing Ipq4019.Edma.Recv
open Ipq4019.Edma.RxCall Ipq4019.Edma.RxBounds

variable {c : Platform} {env : World → World → Prop} {m : Int} {s s' : World}

/-! ### The layout -/

def rrdNumRfdMask : UInt16 := 0x000F
def rrdPktSizeMask : UInt16 := 0x3FFF
def rrdCsumFailMask : UInt16 := 0xC000

/-- The size of the frame. -/
def pktSize (r : EdmaRrd) : ℕ := (r.rrd6 &&& rrdPktSizeMask).toNat

/-- The flags of a failed checksum. -/
def csumFail (r : EdmaRrd) : UInt16 := r.rrd6 &&& rrdCsumFailMask

/-- The number of descriptors the frame occupies. -/
def numRfd (r : EdmaRrd) : ℕ := (r.rrd1 &&& rrdNumRfdMask).toNat

theorem pktSize_eq (r : EdmaRrd) : pktSize r = r.rrd6.toNat % 2 ^ 14 := by
  unfold pktSize
  rw [UInt16.toNat_and]
  exact Nat.and_two_pow_sub_one_eq_mod _ 14

/-- The flags stand above the size. -/
theorem csumFail_toNat (r : EdmaRrd) : (csumFail r).toNat = r.rrd6.toNat / 2 ^ 14 * 2 ^ 14 := by
  have hmask : rrdCsumFailMask.toNat = (2 ^ 2 - 1) <<< 14 := by decide
  unfold csumFail
  rw [UInt16.toNat_and, hmask]
  refine Nat.eq_of_testBit_eq fun i => ?_
  rw [Nat.testBit_and, Nat.testBit_shiftLeft, Nat.testBit_two_pow_sub_one, ← Nat.shiftLeft_eq,
    Nat.testBit_shiftLeft, ← Nat.shiftRight_eq_div_pow, Nat.testBit_shiftRight]
  by_cases h14 : 14 ≤ i
  · have hi : 14 + (i - 14) = i := by omega
    rw [hi]
    by_cases h16 : i < 16
    · have hlt : i - 14 < 2 := by omega
      simp [h14, hlt]
    · have hpow : 2 ^ 16 ≤ 2 ^ i := Nat.pow_le_pow_right (by decide) (by omega)
      have hbit : r.rrd6.toNat.testBit i = false :=
        Nat.testBit_lt_two_pow (r.rrd6.toNat_lt.trans_le hpow)
      simp [hbit]
  · simp [h14]

/-- The word as a whole. -/
theorem rrd6_eq (r : EdmaRrd) : r.rrd6.toNat = (csumFail r).toNat + pktSize r := by
  rw [csumFail_toNat, pktSize_eq]
  omega

/-- When the flags do not show. -/
theorem min_rrd6_iff (r : EdmaRrd) (m : Int) :
    min (r.rrd6.toNat : Int) m = min (pktSize r : Int) m ↔ csumFail r = 0 ∨ m ≤ pktSize r := by
  have heq := rrd6_eq r
  have hzero : csumFail r = 0 ↔ (csumFail r).toNat = 0 := UInt16.toNat_inj.symm
  rw [hzero, heq]
  omega

/-! ### Frames in the ring -/

/-- The return descriptor of a frame received. -/
structure Received where
  rrd : EdmaRrd
  valid : Valid rrd
  pos : 1 ≤ numRfd rrd

/-- The first descriptor of the frame `i`, counted from bring-up without wrap-around. -/
def firstRfd (fs : ℕ → Received) (i : ℕ) : ℕ := ∑ j ∈ Finset.range i, numRfd (fs j).rrd

theorem firstRfd_succ (fs : ℕ → Received) (i : ℕ) :
    firstRfd fs (i + 1) = firstRfd fs i + numRfd (fs i).rrd := Finset.sum_range_succ _ _

theorem firstRfd_strictMono (fs : ℕ → Received) : StrictMono (firstRfd fs) := by
  refine strictMono_nat_of_lt_succ fun i => ?_
  have hpos := (fs i).pos
  rw [firstRfd_succ]
  omega

/-! ### Calls -/

/-- The call takes what is in the buffer at the tail for a return descriptor. -/
def Looks (x : CallRec) : Prop :=
  ∃ t, (EdmaOp.load16 (tailBuf t + UInt32.ofNat offsetofRrd7), t) ∈ x.hist

/-- Whenever the call reads from the buffer at the tail, the return descriptor stands there. -/
def Finds (c : Platform) (r : EdmaRrd) (x : CallRec) : Prop :=
  ∀ a t, (EdmaOp.load16 a, t) ∈ x.hist →
    read t.mem (c.virtToPhys (tailBuf t)) edmaRrdSize = rrdBytes r

/-- How many descriptors the call steps over. -/
def stepped (x : CallRec) : ℕ :=
  ahead noOfRxDesc x.before.dev.rfdTail.toNat x.after.dev.rfdTail.toNat

/-- Each call of the list, with the position of the tail before it: `k` for the first. -/
def Along (P : ℕ → CallRec → Prop) : ℕ → List CallRec → Prop
  | _, [] => True
  | k, x :: cs => P k x ∧ Along P (k + stepped x) cs

/-- **What a call should make of a frame.** -/
structure Decodes (r : EdmaRrd) (x : CallRec) : Prop where
  len : numRfd r = 1 → (x.out.len.toNat : Int) = min (pktSize r : Int) x.call
  step : 1 < numRfd r → stepped x = numRfd r

/-- What is taken for a return descriptor is that of a frame, and is decoded. -/
def Decoded (fs : ℕ → Received) (k : ℕ) (x : CallRec) : Prop :=
  Looks x → ∃ i, k = firstRfd fs i ∧ Decodes (fs i).rrd x

/-- A frame that the driver's reading of the descriptor does justice to. -/
def Plain (r : EdmaRrd) (m : Int) : Prop := numRfd r = 1 ∧ (csumFail r = 0 ∨ m ≤ pktSize r)

instance (r : EdmaRrd) (m : Int) : Decidable (Plain r m) := by unfold Plain; infer_instance

/-- The frame that the call comes across is plain. -/
def TakesPlain (fs : ℕ → Received) (k : ℕ) (x : CallRec) : Prop :=
  Looks x → ∀ i, k = firstRfd fs i → Plain (fs i).rrd x.call

/-- A buffer with a return descriptor in it. -/
theorem rrd_words {r : EdmaRrd}
    (h : read s.mem (c.virtToPhys (tailBuf s)) edmaRrdSize = rrdBytes r) :
    rrd7At c s = r.rrd7 ∧ rrd6At c s = r.rrd6 := by
  have he : read s.mem (c.virtToPhys (tailBuf s)) (RxEntry.bytes ⟨0, 0, r, []⟩).length =
      RxEntry.bytes ⟨0, 0, r, []⟩ := by
    simpa [RxEntry.bytes] using h
  exact ⟨read_rrd7 he, read_rrd6 he⟩

/-- **A call that looks** at a frame's first descriptor. -/
theorem decodes_iff {l : List (EdmaOp × World)} {out : RecvOut} {r : Received} (hm : 0 ≤ m)
    (ht : s.dev.rfdTail.toNat < noOfRxDesc) (h : RecvRun c m s l out s')
    (hx : Looks ⟨m, s, l, out, s'⟩) (hr : Finds c r.rrd ⟨m, s, l, out, s'⟩) :
    stepped ⟨m, s, l, out, s'⟩ = 1 ∧ (Decodes r.rrd ⟨m, s, l, out, s'⟩ ↔ Plain r.rrd m) := by
  cases h with
  | nothing _ _ _ _ =>
    obtain ⟨t, hmem⟩ := hx
    simp at hmem
  | @invalid _ _ _ _ s₅ _ _ _ _ _ _ _ hv _ =>
    have hread := hr (tailBuf s + UInt32.ofNat offsetofRrd7) s₅ (by simp [looks])
    rw [(rrd_words hread).1] at hv
    exact absurd hv r.valid
  | @frame _ _ _ _ _ s₆ _ _ n _ _ _ _ _ _ _ _ _ _ hn _ _ tail _ =>
    have hread := hr (tailBuf s + UInt32.ofNat offsetofRrd6) s₆ (by simp)
    rw [(rrd_words hread).2] at hn
    have hstep : ahead noOfRxDesc s.dev.rfdTail.toNat s'.dev.rfdTail.toNat = 1 := by
      rw [tail, toNat_bump ht (by decide)]
      unfold ahead noOfRxDesc at *
      omega
    have hlen : (n.toNat : Int) = min (r.rrd.rrd6.toNat : Int) m := by
      rw [hn, truncated_toNat hm]
    have hpos := r.pos
    refine ⟨hstep, fun hd => ?_, fun hp => ⟨fun _ => ?_, fun hlt => ?_⟩⟩
    · have hone : numRfd r.rrd = 1 := by
        by_contra hne
        have hn := hstep.symm.trans (hd.step (by omega))
        omega
      exact ⟨hone, (min_rrd6_iff r.rrd m).mp (hlen.symm.trans (hd.len hone))⟩
    · exact hlen.trans ((min_rrd6_iff r.rrd m).mpr hp.2)
    · have := hp.1
      omega

/-- A call that does not look stays where it is. -/
theorem stepped_of_not_looks {l : List (EdmaOp × World)} {out : RecvOut} (h : RecvRun c m s l out s')
    (hx : ¬ Looks ⟨m, s, l, out, s'⟩) : stepped ⟨m, s, l, out, s'⟩ = 0 := by
  cases h with
  | nothing _ _ _ h' =>
    change ahead noOfRxDesc s.dev.rfdTail.toNat s'.dev.rfdTail.toNat = 0
    rw [h'.tail]
    unfold ahead noOfRxDesc at *
    omega
  | @invalid _ _ _ _ s₅ _ _ _ _ _ h₅ _ _ _ =>
    refine absurd ⟨s₅, ?_⟩ hx
    rw [h₅.tailBuf]
    simp [looks]
  | @frame _ _ _ _ s₅ _ _ _ _ _ _ _ _ _ h₅ _ _ _ _ _ _ _ _ _ =>
    refine absurd ⟨s₅, ?_⟩ hx
    rw [h₅.tailBuf]
    simp [looks]

/-! ### Runs -/

/-- **Calls from a frame's first descriptor on.** -/
theorem along_iff (fs : ℕ → Received) : ∀ {cs : List CallRec} {i : ℕ},
    (∀ x ∈ cs, 0 ≤ x.call ∧ x.before.dev.rfdTail.toNat < noOfRxDesc ∧
      RecvRun c x.call x.before x.hist x.out x.after) →
    Along (fun k x => ∀ j, k = firstRfd fs j → Finds c (fs j).rrd x) (firstRfd fs i) cs →
    (Along (Decoded fs) (firstRfd fs i) cs ↔ Along (TakesPlain fs) (firstRfd fs i) cs)
  | [], _, _, _ => Iff.rfl
  | x :: cs, i, hall, hfinds => by
    obtain ⟨⟨hm, ht, hrun⟩, hall⟩ := List.forall_mem_cons.mp hall
    obtain ⟨hfind, hfinds⟩ := hfinds
    by_cases hx : Looks x
    · obtain ⟨hstep, hiff⟩ := decodes_iff hm ht hrun hx (hfind i rfl)
      have hinj := (firstRfd_strictMono fs).injective
      have hhead : Decoded fs (firstRfd fs i) x ↔ Plain (fs i).rrd x.call := by
        rw [← hiff]
        refine ⟨fun h => ?_, fun h _ => ⟨i, rfl, h⟩⟩
        obtain ⟨j, hj, h⟩ := h hx
        rwa [hinj hj]
      have hplain : TakesPlain fs (firstRfd fs i) x ↔ Plain (fs i).rrd x.call := by
        refine ⟨fun h => h hx i rfl, fun h _ j hj => ?_⟩
        rwa [← hinj hj]
      have hnext : Plain (fs i).rrd x.call →
          firstRfd fs i + stepped x = firstRfd fs (i + 1) := by
        intro hp
        rw [hstep, firstRfd_succ, hp.1]
      constructor
      · rintro ⟨h, hcs⟩
        have hp := hhead.mp h
        rw [hnext hp] at hfinds hcs
        refine ⟨hplain.mpr hp, ?_⟩
        rw [hnext hp]
        exact (along_iff fs hall hfinds).mp hcs
      · rintro ⟨h, hcs⟩
        have hp := hplain.mp h
        rw [hnext hp] at hfinds hcs
        refine ⟨hhead.mpr hp, ?_⟩
        rw [hnext hp]
        exact (along_iff fs hall hfinds).mpr hcs
    · have hstep := stepped_of_not_looks hrun hx
      rw [hstep] at hfinds
      unfold Along
      rw [hstep, Nat.add_zero]
      exact and_congr (iff_of_true (fun h => absurd h hx) fun h => absurd h hx)
        (along_iff fs hall hfinds)

/-- **When frames are decoded**: in every run of calls from bring-up on, beside any hardware that
puts the return descriptors of the frames `fs` where they belong. -/
theorem rrd_decode_iff (c : Platform) (env : World → World → Prop) (henv : Beside env) (w s : World)
    (cs : List CallRec) (h : CallRun (edma c env) (start c w) cs s) (hm : ∀ x ∈ cs, 0 ≤ x.call)
    (fs : ℕ → Received)
    (hfs : Along (fun k x => ∀ i, k = firstRfd fs i → Finds c (fs i).rrd x) 0 cs) :
    Along (Decoded fs) 0 cs ↔ Along (TakesPlain fs) 0 cs := by
  have hcalls := forall_calls henv (P := fun x => x.before.dev.rfdTail.toNat < noOfRxDesc ∧
    RecvRun c x.call x.before x.hist x.out x.after) (fun _ _ _ _ _ ht hrun => ⟨ht, hrun⟩) h
  exact along_iff fs (i := 0) (fun x hx => ⟨hm x hx, hcalls x hx⟩) hfs

/-! ### A frame with a flag -/

/-- A frame of one byte whose checksum failed. -/
def flagged : Received := ⟨⟨0, 1, 0, 0, 0, 0, 0x4001, 0x8000⟩, by decide, by decide⟩

/-- Its return descriptor arrives, and the index moves. -/
def arrive (s : World) : World :=
  { s with
    mem := write s.mem (tailBuf s) (rrdBytes flagged.rrd)
    hw := { s.hw with rfdCons := 1 } }

theorem side_arrive (s : World) : Side s (arrive s) := ⟨rfl, rfl, rfl⟩

theorem read_arrive (s : World) : read (arrive s).mem (Platform.flat.virtToPhys (tailBuf (arrive s)))
    edmaRrdSize = rrdBytes flagged.rrd := by
  have hle : (rrdBytes flagged.rrd).length ≤ 2 ^ 32 := by
    rw [length_rrdBytes]
    unfold edmaRrdSize
    omega
  have hflat : Platform.flat.virtToPhys (tailBuf (arrive s)) = tailBuf s := by
    change tailBuf s - 0 = tailBuf s
    simp
  rw [hflat, ← length_rrdBytes flagged.rrd]
  exact read_write_self _ _ hle

theorem due_arrive (ht : s.dev.rfdTail = 0) :
    (arrive s).hw.rfdCons.val ≠ (arrive s).dev.rfdTail.toNat := by
  change (1 : Fin 4096).val ≠ s.dev.rfdTail.toNat
  rw [ht]
  decide

section still

variable {r : Received} (hd : s.hw.rfdCons.val ≠ s.dev.rfdTail.toNat)
  (hr : read s.mem (c.virtToPhys (tailBuf s)) edmaRrdSize = rrdBytes r.rrd)
include hd hr

theorem hist_still (env : World → World → Prop) (m : Int) : ∃ l, (∀ x ∈ l, Recycles x.1) ∧
    hist (edma c env) (ipq4019EthRecv m) s =
      looks s s (s.noteRead .rfdIdxQ) (s.noteRead .rfdIdxQ) (s.noteRead .rfdIdxQ)
        (s.noteRead .rfdIdxQ) ++
      (.load16 (tailBuf s + UInt32.ofNat offsetofRrd6), s.noteRead .rfdIdxQ) ::
      (.memcpy (tailBuf s + UInt32.ofNat edmaRrdSize) (truncated (rrd6At c s) m).toNat,
        s.noteRead .rfdIdxQ) :: l := by
  refine hist_recv env m hd ?_
  rw [(rrd_words hr).1]
  exact r.valid

theorem looks_still : Looks (Calls.still (edma c env) ipq4019EthRecv m s) := by
  obtain ⟨l, -, hl⟩ := hist_still hd hr env m
  refine ⟨s.noteRead .rfdIdxQ, ?_⟩
  unfold Calls.still
  rw [hl]
  refine List.mem_append_left _ ?_
  simp only [looks, List.mem_cons]
  right; right; right; right; left
  rfl

theorem finds_still : Finds c r.rrd (Calls.still (edma c env) ipq4019EthRecv m s) := by
  obtain ⟨l, hrec, hl⟩ := hist_still hd hr env m
  intro a t ht
  unfold Calls.still at ht
  rw [hl] at ht
  have hmem : t = s.noteRead .rfdIdxQ := by
    simp only [looks, List.cons_append, List.nil_append, List.mem_cons, Prod.mk.injEq, reduceCtorEq,
      false_and, false_or] at ht
    rcases ht with ⟨-, h⟩ | ⟨-, h⟩ | h
    · exact h
    · exact h
    · exact (hrec _ h).elim
  rw [hmem]
  exact hr

end still

/-- After that, a call with a caller's buffer of `maxlen` bytes. -/
def flaggedCall (maxlen : Int) : CallRec :=
  Calls.still (edma .flat Side) ipq4019EthRecv maxlen (arrive fresh)

theorem run_flaggedCall (maxlen : Int) :
    CallRun (edma .flat Side) fresh [flaggedCall maxlen] (flaggedCall maxlen).after := by
  have henv : (edma .flat Side).env fresh (arrive fresh) := side_arrive fresh
  unfold flaggedCall
  exact .env henv (.still maxlen (arrive fresh))

theorem tail_fresh : fresh.dev.rfdTail = 0 := by
  have hidle : Idle .flat (fun _ _ => True) False 0 fresh := idle_start fresh_cold
  exact UInt16.toNat_inj.mp (hidle.tail.trans (by decide))

theorem along_flagged (maxlen : Int) : Along (fun k x => ∀ i, k = firstRfd (fun _ => flagged) i →
    Finds .flat flagged.rrd x) 0 [flaggedCall maxlen] :=
  ⟨fun _ _ => finds_still (due_arrive tail_fresh) (read_arrive fresh), trivial⟩

theorem flaggedCall_call (maxlen : Int) : ∀ x ∈ [flaggedCall maxlen], x.call = maxlen := by
  intro x hx
  rw [List.mem_singleton.mp hx]
  rfl

/-- It is decoded by a caller who asks for one byte. -/
theorem rrd_decode_one : Along (Decoded fun _ => flagged) 0 [flaggedCall 1] ↔
    Along (TakesPlain fun _ => flagged) 0 [flaggedCall 1] :=
  rrd_decode_iff .flat Side (fun _ _ h => h) (.cold 0 0 fun _ => 0) _ _ (run_flaggedCall 1)
    (fun x hx => by rw [flaggedCall_call 1 x hx]; decide) _ (along_flagged 1)

/-- **It is not decoded** by a caller with a buffer of 1536 bytes. -/
theorem rrd_decode_fails : ¬ Along (Decoded fun _ => flagged) 0 [flaggedCall 1536] := by
  rw [rrd_decode_iff .flat Side (fun _ _ h => h) (.cold 0 0 fun _ => 0) _ _ (run_flaggedCall 1536)
    (fun x hx => by rw [flaggedCall_call 1536 x hx]; decide) _ (along_flagged 1536)]
  rintro ⟨h, -⟩
  have hplain : Plain flagged.rrd 1536 :=
    h (looks_still (due_arrive tail_fresh) (read_arrive fresh)) 0 (Finset.sum_range_zero _).symm
  exact absurd hplain (by decide)

end Ipq4019.Edma.RxDecode
