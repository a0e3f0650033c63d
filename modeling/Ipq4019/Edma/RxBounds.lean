import Ipq4019.Edma.RxCall

/-!
# The receive ring: what a call reads and writes

The length of a frame comes from the buffer and is cut to the caller's `maxlen`, but not to what is
left of the buffer behind the descriptor: with both above 2032 the copy runs on into whatever lies
behind the buffer.

* `rx_copy_iff`: in runs of calls from bring-up on, whatever is in the buffers.
-/

namespace Ipq4019.Edma.RxBounds

open Ipq4019.Lib Ipq4019.Lib.Interleave Ipq4019.Lib.Memory Ipq4019.Lib.Ring
open Ipq4019.Edma.Driver Ipq4019.Edma.Device Ipq4019.Edma.RxRing Ipq4019.Edma.Recv
open Ipq4019.Edma.RxCall

variable {c : Platform} {env : World → World → Prop} {m : Int} {s s' : World}

/-! ### Bounds -/

/-- The `n` bytes from `a` on lie in the buffer at the tail. -/
def Within (s : World) (a : UInt32) (n : ℕ) : Prop :=
  ∃ k, k + n ≤ edmaRxBufSize ∧ a = tailBuf s + UInt32.ofNat k

/-- The access takes a buffer of the ring, and reads it within its bounds. -/
def InBounds : EdmaOp → World → Prop
  | .netRxPacket i, s => i = s.dev.rfdTail.toNat ∧ i < noOfRxDesc
  | .load16 a, s => Within s a 2
  | .memcpy a n, s => Within s a n
  | _, _ => True

/-- **What a call should keep to.** -/
structure CopySafe (x : CallRec) : Prop where
  reads : ∀ y ∈ x.hist, InBounds y.1 y.2
  writes : (x.out.buf.length : Int) ≤ x.call
  len : x.out.len.toNat = x.out.buf.length

/-- When the length is read, it or `maxlen` is at most what the buffer holds. -/
def Fits (c : Platform) (x : CallRec) : Prop :=
  ∀ t, (.load16 (tailBuf t + UInt32.ofNat offsetofRrd6), t) ∈ x.hist →
    min ((rrd6At c t).toNat : Int) x.call ≤ (edmaRxBufSize - edmaRrdSize : ℕ)

theorem truncated_toNat {n : UInt16} (hm : 0 ≤ m) :
    ((truncated n m).toNat : Int) = min (n.toNat : Int) m := by
  have hlt := n.toNat_lt
  unfold truncated
  by_cases h : (n.toNat : Int) > m
  · rw [if_pos h, UInt16.ofInt, Int.emod_eq_of_lt hm (by omega), UInt16.toNat_ofNat',
      Nat.mod_eq_of_lt (by omega)]
    omega
  · rw [if_neg h]
    omega

theorem add_ofNat_inj {a : UInt32} {i j : ℕ} (hi : i < 2 ^ 32) (hj : j < 2 ^ 32)
    (h : a + UInt32.ofNat i = a + UInt32.ofNat j) : i = j := by
  rw [← offset_sub a hi, h, offset_sub a hj]

theorem within_self {a n : ℕ} (h : a + n ≤ edmaRxBufSize) :
    Within s (tailBuf s + UInt32.ofNat a) n := ⟨a, h, rfl⟩

theorem within_iff {a n : ℕ} (ha : a ≤ edmaRxBufSize) :
    Within s (tailBuf s + UInt32.ofNat a) n ↔ a + n ≤ edmaRxBufSize := by
  refine ⟨?_, within_self⟩
  rintro ⟨k, hk, he⟩
  have hak : a = k := by
    unfold edmaRxBufSize at *
    exact add_ofNat_inj (by omega) (by omega) he
  rwa [hak]

/-! ### Calls -/

theorem inBounds_looks {s₁ s₂ s₃ s₄ s₅ : World} (h₃ : Side s s₃) (h₅ : Side s s₅)
    (ht : s.dev.rfdTail.toNat < noOfRxDesc) :
    ∀ y ∈ looks s s₁ s₂ s₃ s₄ s₅, InBounds y.1 y.2 := by
  have hpkt : InBounds (.netRxPacket s.dev.rfdTail.toNat) s₃ := by
    refine ⟨?_, ht⟩
    rw [h₃.tail]
  have hload : InBounds (.load16 (tailBuf s + UInt32.ofNat offsetofRrd7)) s₅ := by
    rw [← h₅.tailBuf]
    exact within_self (by decide)
  simp only [looks, List.forall_mem_cons]
  exact ⟨trivial, trivial, hpkt, trivial, hload, by simp⟩

theorem fits_of_looks {s₁ s₂ s₃ s₄ s₅ t : World} (h₅ : Side s s₅)
    (h : (EdmaOp.load16 (tailBuf t + UInt32.ofNat offsetofRrd6), t) ∈ looks s s₁ s₂ s₃ s₄ s₅) :
    False := by
  simp only [looks, List.mem_cons, Prod.mk.injEq, reduceCtorEq, false_and, false_or,
    List.not_mem_nil, or_false, EdmaOp.load16.injEq] at h
  obtain ⟨ha, rfl⟩ := h
  rw [h₅.tailBuf] at ha
  exact absurd (add_ofNat_inj (by decide) (by decide) ha) (by decide)

theorem recycles_inBounds {y : EdmaOp × World} (h : Recycles y.1) : InBounds y.1 y.2 := by
  obtain ⟨o, t⟩ := y
  cases o <;> first | exact h.elim | trivial

/-- **A call** that finds the tail in the ring. -/
theorem copySafe_iff {l : List (EdmaOp × World)} {out : RecvOut} (hm : 0 ≤ m)
    (ht : s.dev.rfdTail.toNat < noOfRxDesc) (h : RecvRun c m s l out s') :
    CopySafe ⟨m, s, l, out, s'⟩ ↔ Fits c ⟨m, s, l, out, s'⟩ := by
  cases h with
  | nothing h₁ h₂ hc h' =>
    refine iff_of_true ⟨?_, by simpa using hm, rfl⟩ ?_
    · simp [InBounds]
    · intro t hmem
      simp at hmem
  | invalid h₁ h₂ h₃ h₄ h₅ hc hv h' =>
    refine iff_of_true ⟨inBounds_looks h₃ h₅ ht, by simpa using hm, rfl⟩ ?_
    intro t hmem
    exact (fits_of_looks h₅ hmem).elim
  | @frame s₁ s₂ s₃ s₄ s₅ s₆ s₇ s' n l h₁ h₂ h₃ h₄ h₅ h₆ h₇ hc hv hn hl head tail bufs =>
    have hlen : (n.toNat : Int) = min ((rrd6At c s₆).toNat : Int) m := by
      rw [hn, truncated_toNat hm]
    have hcopy : InBounds (.memcpy (tailBuf s + UInt32.ofNat edmaRrdSize) n.toNat) s₇ ↔
        edmaRrdSize + n.toNat ≤ edmaRxBufSize := by
      rw [← h₇.tailBuf]
      exact within_iff (by decide)
    have hfits : ∀ out, Fits c ⟨m, s, looks s s₁ s₂ s₃ s₄ s₅ ++
        (.load16 (tailBuf s + UInt32.ofNat offsetofRrd6), s₆) ::
        (.memcpy (tailBuf s + UInt32.ofNat edmaRrdSize) n.toNat, s₇) :: l, out, s'⟩ ↔
        (n.toNat : Int) ≤ (edmaRxBufSize - edmaRrdSize : ℕ) := by
      intro out
      rw [hlen]
      constructor
      · intro h
        refine h s₆ ?_
        rw [h₆.tailBuf]
        exact List.mem_append_right _ List.mem_cons_self
      · intro h t hmem
        rcases List.mem_append.mp hmem with hmem | hmem
        · exact (fits_of_looks h₅ hmem).elim
        · rcases List.mem_cons.mp hmem with he | hmem
          · obtain ⟨-, rfl⟩ := Prod.mk.inj he
            exact h
          · rcases List.mem_cons.mp hmem with he | hmem
            · cases he
            · exact (hl _ hmem).elim
    rw [hfits]
    constructor
    · intro h
      have hin := h.reads _ (List.mem_append_right _ (List.mem_cons_of_mem _ List.mem_cons_self))
      have hle := hcopy.mp hin
      simp only [edmaRxBufSize, edmaRrdSize] at *
      omega
    · intro h
      have hle : edmaRrdSize + n.toNat ≤ edmaRxBufSize := by
        simp only [edmaRxBufSize, edmaRrdSize] at *
        omega
      refine ⟨fun y hy => ?_, ?_, (length_read _ _ _).symm⟩
      · rcases List.mem_append.mp hy with hy | hy
        · exact inBounds_looks h₃ h₅ ht y hy
        · rcases List.mem_cons.mp hy with rfl | hy
          · change Within s₆ _ 2
            rw [← h₆.tailBuf]
            exact within_self (by decide)
          · rcases List.mem_cons.mp hy with rfl | hy
            · exact hcopy.mpr hle
            · exact recycles_inBounds (hl y hy)
      · dsimp only
        rw [length_read, hlen]
        exact min_le_right _ _

/-- **When the copy stays in bounds**: in every run of calls from bring-up on, beside any hardware,
each call keeps to the buffers exactly if what it reads of the length fits. -/
theorem rx_copy_iff (c : Platform) (env : World → World → Prop) (henv : Beside env) (w s : World)
    (cs : List CallRec) (h : CallRun (edma c env) (start c w) cs s) (x : CallRec) (hx : x ∈ cs)
    (hm : 0 ≤ x.call) : CopySafe x ↔ Fits c x :=
  forall_calls henv (P := fun x => 0 ≤ x.call → (CopySafe x ↔ Fits c x))
    (fun _ _ _ _ _ ht hrun hm => copySafe_iff hm ht hrun) h x hx hm

/-- The hardware fills memory with 0xff and moves its index. -/
def fillFF (s : World) : World := { s with mem := fun _ => 0xff, hw := { s.hw with rfdCons := 1 } }

theorem side_fillFF (s : World) : Side s (fillFF s) := ⟨rfl, rfl, rfl⟩

theorem read16_fillFF (s : World) (a : UInt32) : read16 (fillFF s).mem a = 0xffff := by
  change (0xff : UInt8).toUInt16 ||| ((0xff : UInt8).toUInt16 <<< 8) = _
  decide

/-- After that, a call with a caller's buffer of `maxlen` bytes. -/
def callFF (maxlen : Int) : CallRec :=
  Calls.still (edma .flat Side) ipq4019EthRecv maxlen (fillFF fresh)

theorem run_callFF (maxlen : Int) :
    CallRun (edma .flat Side) fresh [callFF maxlen] (callFF maxlen).after := by
  have henv : (edma .flat Side).env fresh (fillFF fresh) := side_fillFF fresh
  unfold callFF
  exact .env henv (.still maxlen (fillFF fresh))

theorem rx_copy_one : CopySafe (callFF 1536) ↔ Fits .flat (callFF 1536) :=
  rx_copy_iff .flat Side (fun _ _ h => h) (.cold 0 0 fun _ => 0) _ _ (run_callFF 1536) _
    List.mem_cons_self (by decide)

theorem rrd6At_noteRead : rrd6At c (s.noteRead .rfdIdxQ) = rrd6At c s := rfl

/-- The length is read from the buffer. -/
theorem load_mem_hist (hd : s.hw.rfdCons.val ≠ s.dev.rfdTail.toNat)
    (hv : rrd7At c s &&& edmaRrd7DescValid ≠ 0) :
    (EdmaOp.load16 (tailBuf (s.noteRead .rfdIdxQ) + UInt32.ofNat offsetofRrd6),
      s.noteRead .rfdIdxQ) ∈ hist (edma c env) (ipq4019EthRecv m) s := by
  obtain ⟨l, -, hl⟩ := hist_recv env m hd hv
  rw [hl]
  exact List.mem_append_right _ List.mem_cons_self

/-- **It does not always**: a caller with a large buffer gets what lies behind the ring's. -/
theorem rx_copy_overruns : ¬ CopySafe (callFF 65535) := by
  rw [rx_copy_iff .flat Side (fun _ _ h => h) (.cold 0 0 fun _ => 0) _ _ (run_callFF 65535) _
    List.mem_cons_self (by decide)]
  intro h
  have htail : (fillFF fresh).dev.rfdTail = 0 := by
    have hidle : Idle .flat (fun _ _ => True) False 0 fresh := idle_start fresh_cold
    rw [(side_fillFF fresh).tail]
    exact UInt16.toNat_inj.mp (hidle.tail.trans (by decide))
  have hcons : (fillFF fresh).hw.rfdCons.val ≠ (fillFF fresh).dev.rfdTail.toNat := by
    rw [htail]
    decide
  have hle := h _ (load_mem_hist hcons (by rw [rrd7At, read16_fillFF]; decide))
  rw [rrd6At_noteRead, rrd6At, read16_fillFF] at hle
  exact absurd hle (by decide)

end Ipq4019.Edma.RxBounds
