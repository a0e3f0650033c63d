import Ipq4019.Edma.RxFifo

/-!
# The receive ring: descriptors lost, and a ring stuck

The EDMA may complete a descriptor without marking it valid.  A call that finds such a descriptor at
the tail leaves the tail where it is, so every later call finds it there again.

* `recv_due`: what a call does that is made while something is completed.
* `stuck`, `open_iff`: once the descriptor at the tail is invalid, no call returns anything any more;
  otherwise the EDMA and one call are enough.
* `rx_progress_iff`: when reception makes progress.

And the recycling writes the producer index before it steps, so the first frame consumed hands no
descriptor back.

* `handed_eq`, `rx_conservation_iff`: 511 descriptors are with the EDMA or hold a frame until the
  first frame is consumed, and 510 from then on.
-/

namespace Ipq4019.Edma.RxProgress

open Ipq4019.Lib.Interleave Ipq4019.Lib.Interleave.Prog Ipq4019.Lib.Ring
open Ipq4019.Edma.Driver Ipq4019.Edma.Device Ipq4019.Edma.Init Ipq4019.Edma.RxRing
open Ipq4019.Edma.Recv Ipq4019.Edma.RxFifo

/-- A frame that fits; its length is right if its descriptor is valid. -/
def FrameAny (rrd : EdmaRrd) (data : List UInt8) : Prop :=
  data.length ≤ edmaRxBufSize - edmaRrdSize ∧
    (Valid rrd → rrd.rrd6.toNat = data.length ∧ 1 ≤ data.length)

theorem FrameAny.law : FrameLaw FrameAny False where
  size _ _ h := h.1
  len _ _ h := h.2
  valid _ _ h := h.elim

/-- The EDMA of this module: it writes to memory before its index moves. -/
abbrev rxAny (c : Platform) : Machine edmaSig World := edma c (RxStep FrameAny False)

abbrev Between (c : Platform) (r : ℕ) : World → Prop := Idle c FrameAny False r

theorem env_any : ∀ s s', RxStep FrameAny False s s' → EdmaStep FrameAny False s s' :=
  fun _ _ => Or.inl

variable {c : Platform} {r : ℕ} {s s' : World} {m : Int} {out : RecvOut}
  {l : List (EdmaOp × World)}

theorem Between.stable (r : ℕ) : Stable (rxAny c) (Between c r) :=
  Driving.stable FrameAny.law env_any

/-- What a call leaves, if at least `n₀` descriptors were completed before it. -/
theorem Between.recv {n₀ : ℕ} (h : Between c r s) (hn : n₀ ≤ s.stored.length)
    (hr : Run (rxAny c) s (ipq4019EthRecv m) l s' (.ret out)) :
    RecvPost c FrameAny False r m out s' ∧ n₀ ≤ s'.seen := by
  have hpost := wp_run_ret (wp_recv FrameAny.law env_any h hn) hr fun _ _ h => h.elim
  exact hpost

theorem Between.stored {i : ℕ} {e : RxEntry} (he : s.stored[i]? = some e)
    (hr : Run (rxAny c) s (ipq4019EthRecv m) l s' (.ret out)) : s'.stored[i]? = some e := by
  have hst := wp_run_free (wp_stored env_any _ he) hr
  exact hst

/-! ### Progress -/

/-- Something is completed: the EDMA's index is not at the tail. -/
def Due (s : World) : Prop := s.hw.rfdCons.val ≠ s.dev.rfdTail.toNat

/-- The descriptor at the tail is completed and marked valid. -/
def ValidAtTail (s : World) : Prop := ∃ e, s.stored[s.copied]? = some e ∧ Valid e.rrd

/-- The tail moves on by one descriptor. -/
def Advances (s s' : World) : Prop :=
  s'.dev.rfdTail.toNat = (s.dev.rfdTail.toNat + 1) % noOfRxDesc

theorem Between.due_iff (h : Between c r s) : Due s ↔ r < s.stored.length := by
  have hle := h.inv.le
  unfold Due
  rw [h.tail, Ne, h.inv.cons_eq_iff]
  omega

theorem Between.advances_iff {r' : ℕ} (h : Between c r s) (h' : Between c r' s')
    (hr : r' = r ∨ r' = r + 1) : Advances s s' ↔ r' = r + 1 := by
  unfold Advances
  rw [h.tail, h'.tail, Nat.mod_add_mod, mod_inj (by unfold noOfRxDesc; omega)
    (by unfold noOfRxDesc; omega)]

/-- **One call**, made while something is completed: it moves the tail if the descriptor there is
valid, and otherwise leaves the ring as it was. -/
theorem recv_due (h : Between c r s) (hd : Due s)
    (hr : Run (rxAny c) s (ipq4019EthRecv m) l s' (.ret out)) :
    (ValidAtTail s ∧ Between c (r + 1) s' ∧ ∃ e, s.stored[r]? = some e ∧ Delivers m e out) ∨
      (¬ ValidAtTail s ∧ Between c r s' ∧ out = ⟨0, 0, []⟩) := by
  have hlt := h.due_iff.mp hd
  have he : s.stored[r]? = some s.stored[r] := List.getElem?_eq_getElem hlt
  have he' := Between.stored he hr
  have hiff : ValidAtTail s ↔ Valid s.stored[r].rrd := by
    unfold ValidAtTail
    rw [h.copied, he]
    simp
  obtain ⟨hpost, hseen⟩ := h.recv (Nat.succ_le_of_lt hlt) hr
  rw [hiff]
  rcases hpost with ⟨-, -, hs⟩ | ⟨h', ho, -, hv⟩ | ⟨e, h', he'', hv, ho, -⟩
  · omega
  · obtain ⟨e, he'', hv⟩ := hv id
    rw [he'] at he''
    exact Or.inr ⟨Option.some.inj he'' ▸ hv, h', ho⟩
  · rw [he'] at he''
    obtain rfl := Option.some.inj he''
    exact Or.inl ⟨hv, h', _, he, ho⟩

theorem advances_iff (h : Between c r s) (hd : Due s)
    (hr : Run (rxAny c) s (ipq4019EthRecv m) l s' (.ret out)) :
    Advances s s' ↔ ValidAtTail s := by
  rcases recv_due h hd hr with ⟨hv, h', -⟩ | ⟨hv, h', -⟩
  · exact iff_of_true ((h.advances_iff h' (Or.inr rfl)).mpr rfl) hv
  · refine iff_of_false (fun hadv => ?_) hv
    have := (h.advances_iff h' (Or.inl rfl)).mp hadv
    omega

theorem Between.next (h : Between c r s)
    (hr : Run (rxAny c) s (ipq4019EthRecv m) l s' (.ret out)) : ∃ r', Between c r' s' := by
  obtain ⟨hpost, -⟩ := h.recv (Nat.zero_le _) hr
  rcases hpost with ⟨h', -, -⟩ | ⟨h', -, -, -⟩ | ⟨-, h', -, -, -, -⟩
  · exact ⟨r, h'⟩
  · exact ⟨r, h'⟩
  · exact ⟨r + 1, h'⟩

/-- A ring with an invalid descriptor at the tail. -/
def Stuck (c : Platform) (r : ℕ) (s : World) : Prop :=
  Between c r s ∧ ∃ e, s.stored[r]? = some e ∧ ¬ Valid e.rrd

theorem Stuck.stable (r : ℕ) : Stable (rxAny c) (Stuck c r) := by
  rintro s s' hs ⟨h, e, he, hv⟩
  exact ⟨Between.stable r s s' hs h, e, stored_stable env_any s s' hs he, hv⟩

/-- **Reception is over** once the descriptor at the tail is invalid: whatever the EDMA does and
however often the driver asks, the tail stays and nothing is returned. -/
theorem stuck {cs : List CallRec} (h : CallRun (rxAny c) s cs s') (hs : Stuck c r s) :
    (∀ x ∈ cs, x.out = ⟨0, 0, []⟩) ∧ s'.dev.rfdTail = s.dev.rfdTail := by
  obtain ⟨hall, r', hend⟩ := h.forall (A := fun k s => k = r ∧ Stuck c r s) (H := fun _ => True)
    (P := fun x => x.out = ⟨0, 0, []⟩) (fun k s s' hs h => ⟨h.1, Stuck.stable r s s' hs h.2⟩)
    (fun k s m l out s' ⟨hk, hst⟩ hr _ => by
      obtain ⟨hb, e, he, hv⟩ := hst
      have hlt := (List.getElem?_eq_some_iff.mp he).1
      have hno : ¬ ValidAtTail s := by
        rintro ⟨e', he', hv'⟩
        rw [hb.copied, he] at he'
        exact hv (Option.some.inj he' ▸ hv')
      rcases recv_due hb (hb.due_iff.mpr hlt) hr with ⟨hv', -⟩ | ⟨-, hb', ho⟩
      · exact absurd hv' hno
      · exact ⟨ho, k, hk, hb', e, Between.stored he hr, hv⟩) (fun _ _ => trivial) ⟨rfl, hs⟩
  refine ⟨hall, UInt16.toNat_inj.mp ?_⟩
  rw [hs.1.tail, hend.2.1.tail]

/-! ### What is handed over -/

/-- The descriptors that the EDMA may still fill. -/
def fillable (s : World) : ℕ := ahead noOfRxDesc s.hw.rfdCons.val s.hw.rfdProd.val

/-- All descriptors handed to the EDMA so far. -/
def handed (s : World) : ℕ := fillable s + s.stored.length

theorem Between.fillable_eq (h : Between c r s) : fillable s = lim r - s.stored.length := by
  have hle := h.inv.le
  unfold fillable
  rw [h.inv.cons, h.inv.prod]
  exact ahead_mod h.inv.le_lim (by unfold lim noOfRxDesc; omega)

/-- **What was handed over**: the first frame consumed adds nothing. -/
theorem Between.handed_eq (h : Between c r s) : handed s = 511 + (r - 1) := by
  have hle := h.inv.le_lim
  unfold handed
  rw [h.fillable_eq]
  exact Nat.sub_add_cancel hle

/-- **The call serves the ring**: it consumes the descriptor at the tail, and hands one back. -/
def Serves (s s' : World) : Prop := Advances s s' ∧ handed s' = handed s + 1

theorem serves_iff (h : Between c r s) (hd : Due s)
    (hr : Run (rxAny c) s (ipq4019EthRecv m) l s' (.ret out)) :
    Serves s s' ↔ ValidAtTail s ∧ s.copied ≠ 0 := by
  unfold Serves
  rw [advances_iff h hd hr]
  refine and_congr_right fun hv => ?_
  rcases recv_due h hd hr with ⟨-, h', -⟩ | ⟨hno, -⟩
  · rw [h.handed_eq, h'.handed_eq, h.copied]
    omega
  · exact absurd hv hno

/-! ### Rings that are not stuck -/

/-- **Reception is not over**: there is a way to go on in which a call returns a frame. -/
def Open (c : Platform) (s : World) : Prop :=
  ∃ cs s', CallRun (rxAny c) s cs s' ∧ ∃ x ∈ cs, x.out.len ≠ 0

/-- When all is consumed, the EDMA may fill the next descriptor. -/
theorem Between.room (h : Between c r s) (hd : ¬ Due s) : s.hw.rfdCons ≠ s.hw.rfdProd := by
  have hlen : s.stored.length = r := by
    have hle := h.inv.le
    rw [h.due_iff] at hd
    omega
  intro he
  have hv := congrArg Fin.val he
  rw [h.inv.cons, h.inv.prod, hlen] at hv
  unfold lim noOfRxDesc at hv
  omega

theorem open_of_valid (h : Between c r s) (hd : Due s) (hv : ValidAtTail s) : Open c s := by
  have hr := run_exec (M := rxAny c) (ipq4019EthRecv 1536) s
  refine ⟨[⟨1536, s, _, _, _⟩], _, .call hr (.nil _), _, List.mem_singleton_self _, ?_⟩
  rcases recv_due h hd hr with ⟨-, -, e, he, ho⟩ | ⟨hno, -⟩
  · obtain ⟨hsize, hok⟩ := (h.inv.entry r e he).frame
    obtain ⟨e', he', hvalid⟩ := hv
    rw [h.copied, he] at he'
    obtain rfl := Option.some.inj he'
    exact (returned_of_delivers (m := 1536) (by decide)
      ⟨hvalid, (hok hvalid).1, (hok hvalid).2, hsize⟩ ho).1
  · exact absurd hv hno

/-- A valid frame arrives. -/
theorem Between.arrive (h : Between c r s) (hd : ¬ Due s) :
    (rxAny c).env s (s.complete (rrdOf 0x8000) [0]) ∧ Due (s.complete (rrdOf 0x8000) [0]) ∧
      ValidAtTail (s.complete (rrdOf 0x8000) [0]) := by
  have henv : (rxAny c).env s (s.complete (rrdOf 0x8000) [0]) :=
    .complete (h.room hd) ⟨by decide, fun _ => ⟨rfl, le_rfl⟩⟩
  have h' := Between.stable r s _ henv h
  have hlen : s.stored.length = r := by
    have hle := h.inv.le
    rw [h.due_iff] at hd
    omega
  have hvalid : Valid (rrdOf 0x8000) := by decide
  refine ⟨henv, h'.due_iff.mpr ?_, s.entry (rrdOf 0x8000) [0], ?_, hvalid⟩
  · simp [World.complete, hlen]
  · simp [World.complete, h.copied, hlen]

/-- **Reception is not over** as long as the descriptor at the tail is valid, or none is there. -/
theorem open_iff (h : Between c r s) : Open c s ↔ (Due s → ValidAtTail s) := by
  constructor
  · rintro ⟨cs, s', hrun, x, hx, hlen⟩ hd
    by_contra hv
    have hlt := h.due_iff.mp hd
    have he : s.stored[r]? = some s.stored[r] := List.getElem?_eq_getElem hlt
    have hst : Stuck c r s := ⟨h, _, he, fun hvalid => hv ⟨_, by rw [h.copied, he], hvalid⟩⟩
    rw [(stuck hrun hst).1 x hx] at hlen
    exact hlen rfl
  · intro hv
    by_cases hd : Due s
    · exact open_of_valid h hd (hv hd)
    · obtain ⟨henv, hd', hv'⟩ := h.arrive hd
      obtain ⟨cs, s', hrun, hx⟩ := open_of_valid (Between.stable r _ _ henv h) hd' hv'
      exact ⟨cs, s', .env henv hrun, hx⟩

/-! ### Whole runs -/

/-- `k` invalid descriptors, and the valid `e` behind them, are completed and not consumed. -/
structure Behind (k : ℕ) (e : RxEntry) (s : World) : Prop where
  bad : ∀ j < k, ∃ e', s.stored[s.copied + j]? = some e' ∧ ¬ Valid e'.rrd
  here : s.stored[s.copied + k]? = some e
  valid : Valid e.rrd

/-- **Progress** of the calls `cs`, which end in the state `s`: every call made while something is
completed serves the ring; a valid frame behind `k` invalid descriptors is returned by one of the
next `k + 1` calls; and reception is not over at the end. -/
structure Progress (c : Platform) (cs : List CallRec) (s : World) : Prop where
  serves : ∀ x ∈ cs, Due x.before → Serves x.before x.after
  returns : ∀ (i k : ℕ) (x : CallRec) (e : RxEntry), cs[i]? = some x → Behind k e x.before →
    i + k < cs.length → ∃ j ≤ k, ∃ y, cs[i + j]? = some y ∧ Delivers y.call e y.out
  opens : Open c s

theorem Behind.due {k : ℕ} {e : RxEntry} (hb : Behind k e s) (h : Between c r s) : Due s := by
  have hlt := (List.getElem?_eq_some_iff.mp hb.here).1
  rw [h.copied] at hlt
  exact h.due_iff.mpr (by omega)

/-- With a valid descriptor at the tail there are no invalid ones before it. -/
theorem Behind.first {k : ℕ} {e : RxEntry} (hb : Behind k e s) (hv : ValidAtTail s) : k = 0 := by
  by_contra hk
  obtain ⟨e₁, he₁, hno⟩ := hb.bad 0 (by omega)
  obtain ⟨e₂, he₂, hvalid⟩ := hv
  rw [Nat.add_zero, he₂] at he₁
  exact hno (Option.some.inj he₁ ▸ hvalid)

/-- The calls of a run, each from a state between two calls. -/
theorem calls_between {cs : List CallRec} (h : CallRun (rxAny c) s cs s') (hs : Between c r s) :
    (∀ x ∈ cs, ∃ r, Between c r x.before ∧
      Run (rxAny c) x.before (ipq4019EthRecv x.call) x.hist x.after (.ret x.out)) ∧
      ∃ r, Between c r s' :=
  h.forall (A := Between c) (H := fun _ => True) (fun r => Between.stable r)
    (fun r _ _ _ _ _ hb hr _ => ⟨⟨r, hb, hr⟩, hb.next hr⟩) (fun _ _ => trivial) hs

/-- **Progress of whole runs.**  After any calls `pre` from bring-up on, the calls `cs` make progress
if and only if each of them that is made while something is completed finds the descriptor at the tail
valid, and a frame consumed before, and at the end the descriptor at the tail, if one is completed, is
valid. -/
theorem rx_progress_iff (c : Platform) (w : World) (hw : Fresh w) (pre cs : List CallRec) (s s' : World)
    (hpre : CallRun (rxAny c) (start c w) pre s) (h : CallRun (rxAny c) s cs s') :
    Progress c cs s' ↔
      (∀ x ∈ cs, Due x.before → ValidAtTail x.before ∧ x.before.copied ≠ 0) ∧
        (Due s' → ValidAtTail s') := by
  obtain ⟨-, r₀, hs⟩ := calls_between hpre (idle_start hw)
  obtain ⟨hall, r, hend⟩ := calls_between h hs
  constructor
  · rintro ⟨hserves, -, hopen⟩
    refine ⟨fun x hx hd => ?_, (open_iff hend).mp hopen⟩
    obtain ⟨r, hb, hr⟩ := hall x hx
    exact (serves_iff hb hd hr).mp (hserves x hx hd)
  · rintro ⟨hgood, hlast⟩
    refine ⟨fun x hx hd => ?_, fun i k x e hi hbehind _ => ?_, (open_iff hend).mpr hlast⟩
    · obtain ⟨r, hb, hr⟩ := hall x hx
      exact (serves_iff hb hd hr).mpr (hgood x hx hd)
    · have hx := List.mem_of_getElem? hi
      obtain ⟨r, hb, hr⟩ := hall x hx
      have hd := hbehind.due hb
      obtain ⟨hv, -⟩ := hgood x hx hd
      obtain rfl := hbehind.first hv
      rcases recv_due hb hd hr with ⟨-, -, e', he', ho⟩ | ⟨hno, -⟩
      · have hhere := hbehind.here
        rw [Nat.add_zero, hb.copied, he'] at hhere
        obtain rfl := Option.some.inj hhere
        exact ⟨0, le_rfl, x, hi, ho⟩
      · exact absurd hv hno

theorem step_any (rrd7 : UInt16) : (rxAny .flat).env fresh (one rrd7) :=
  step_one ⟨by decide, fun _ => ⟨rfl, le_rfl⟩⟩

theorem between_one (rrd7 : UInt16) : Between .flat 0 (one rrd7) :=
  Between.stable 0 _ _ (step_any rrd7) (idle_start fresh_cold)

theorem due_one (rrd7 : UInt16) : Due (one rrd7) := by
  rw [(between_one rrd7).due_iff, stored_one]
  exact Nat.zero_lt_one

theorem validAtTail_one (rrd7 : UInt16) : ValidAtTail (one rrd7) ↔ Valid (rrdOf rrd7) := by
  unfold ValidAtTail
  rw [stored_one, (between_one rrd7).copied]
  simp [World.entry]

theorem exec_stored (m : Int) (s : World) :
    (exec (rxAny c) (ipq4019EthRecv m) s).2.stored = s.stored :=
  exec_of_uses (A := fun t => t.stored = s.stored) (fun o t _ ht => (step_stored o t).trans ht)
    (uses_true (ipq4019EthRecv m)) rfl

theorem stored_oneCall (rrd7 : UInt16) :
    (oneCall (rxAny c) rrd7).after.stored = (one rrd7).stored := by
  rw [after_oneCall, exec_stored]

/-- After a first frame, a second one arrives and is asked for. -/
theorem rx_progress_second : ∃ x s',
    CallRun (rxAny .flat) fresh [oneCall (rxAny .flat) 0x8000] (oneCall (rxAny .flat) 0x8000).after ∧
      CallRun (rxAny .flat) (oneCall (rxAny .flat) 0x8000).after [x] s' ∧ Due x.before ∧
      Progress .flat [x] s' := by
  have hpre := callRun_one (step_any 0x8000)
  obtain ⟨-, hb, -⟩ := (recv_due (between_one 0x8000) (due_one 0x8000)
    (run_oneCall (rxAny .flat) 0x8000)).resolve_right fun h =>
      h.1 ((validAtTail_one 0x8000).mpr (by decide))
  have hlen : (oneCall (rxAny .flat) 0x8000).after.stored.length = 1 := by
    rw [stored_oneCall, stored_one, List.length_singleton]
  have hidle : ¬ Due (oneCall (rxAny .flat) 0x8000).after := by
    rw [hb.due_iff, hlen]
    omega
  obtain ⟨henv, hd, hv⟩ := hb.arrive hidle
  generalize ht : (oneCall (rxAny .flat) 0x8000).after.complete (rrdOf 0x8000) [0] = t at henv hd hv
  have hlen' : t.stored.length = 2 := by
    rw [← ht]
    simp [World.complete, hlen]
  have hbt := Between.stable 1 _ _ henv hb
  have hr := run_exec (M := rxAny .flat) (ipq4019EthRecv 1536) t
  obtain ⟨-, hb', -⟩ := (recv_due hbt hd hr).resolve_right fun h => h.1 hv
  have hrest : ¬ Due (exec (rxAny .flat) (ipq4019EthRecv 1536) t).2 := by
    rw [hb'.due_iff, exec_stored, hlen']
    omega
  have hrun : CallRun (rxAny .flat) (oneCall (rxAny .flat) 0x8000).after
      [⟨1536, t, _, _, _⟩] (exec (rxAny .flat) (ipq4019EthRecv 1536) t).2 := .env henv (.call hr (.nil _))
  have hone : t.copied ≠ 0 := by
    rw [hbt.copied]
    exact Nat.one_ne_zero
  have hiff := rx_progress_iff .flat (.cold 0 0 fun _ => 0) fresh_cold _ _ _ _ hpre hrun
  refine ⟨_, _, hpre, hrun, hd, hiff.mpr ⟨fun x hx _ => ?_, fun h => absurd h hrest⟩⟩
  rw [List.mem_singleton.mp hx]
  exact ⟨hv, hone⟩

/-- Progress fails at the first descriptor not marked valid. -/
theorem progress_fails : ¬ ∀ (c : Platform) (w : World), Fresh w →
    ∀ (pre cs : List CallRec) (s s' : World), CallRun (rxAny c) (start c w) pre s →
      CallRun (rxAny c) s cs s' → Progress c cs s' := by
  intro h
  have hprog := h .flat (.cold 0 0 fun _ => 0) fresh_cold [] _ _ _ (.nil _) (callRun_one (step_any 0))
  have hserves := hprog.serves (oneCall (rxAny .flat) 0) List.mem_cons_self (due_one 0)
  have hv := ((serves_iff (between_one 0) (due_one 0) (run_oneCall (rxAny .flat) 0)).mp hserves).1
  rw [validAtTail_one] at hv
  exact absurd hv (by decide)

/-! ### Conservation -/

/-- The frames stored and not returned. -/
def unreturned (s : World) : ℕ := s.stored.length - s.copied

theorem Between.conserved_iff (h : Between c r s) : fillable s + unreturned s = 511 ↔ r = 0 := by
  have hhand := h.handed_eq
  have hle := h.inv.le
  have hcp := h.copied
  unfold handed at hhand
  unfold unreturned
  omega

/-- **Conservation over whole runs.**  Between two calls, the descriptors that the EDMA may still
fill and the frames not yet returned are 511 if and only if no frame was consumed so far; and a call
that consumes a frame hands one descriptor back if and only if it is not the first to consume one. -/
theorem rx_conservation_iff (c : Platform) (w : World) (hw : Fresh w) (cs : List CallRec) (s : World)
    (h : CallRun (rxAny c) (start c w) cs s) :
    (fillable s + unreturned s = 511 ↔ s.copied = 0) ∧
    ∀ x ∈ cs, x.after.copied = x.before.copied + 1 →
      (handed x.after = handed x.before + 1 ↔ x.before.copied ≠ 0) := by
  obtain ⟨hall, r, hend⟩ := h.forall (A := Between c) (H := fun _ => True)
    (P := fun x => x.after.copied = x.before.copied + 1 →
      (handed x.after = handed x.before + 1 ↔ x.before.copied ≠ 0)) (fun r => Between.stable r)
    (fun r s m l out s' hs hr _ => by
      obtain ⟨r', hs'⟩ := hs.next hr
      refine ⟨fun hcp => ?_, r', hs'⟩
      have h₁ := hs.handed_eq
      have h₂ := hs'.handed_eq
      have h₃ := hs.copied
      have h₄ := hs'.copied
      dsimp only at hcp ⊢
      omega) (fun _ _ => trivial) (idle_start hw)
  refine ⟨?_, hall⟩
  rw [hend.conserved_iff, hend.copied]

/-- A run of one call, which consumes the first frame. -/
theorem rx_conservation_iff_one :
    (fillable (oneCall (rxAny .flat) 0x8000).after + unreturned (oneCall (rxAny .flat) 0x8000).after =
      511 ↔ (oneCall (rxAny .flat) 0x8000).after.copied = 0) ∧
    ∀ x ∈ [oneCall (rxAny .flat) 0x8000], x.after.copied = x.before.copied + 1 →
      (handed x.after = handed x.before + 1 ↔ x.before.copied ≠ 0) :=
  rx_conservation_iff .flat (.cold 0 0 fun _ => 0) ⟨rfl, rfl, rfl, rfl⟩ _ _
    (callRun_one (step_any 0x8000))

/-- Conservation fails once the first frame is consumed. -/
theorem conservation_fails : ¬ ∀ (c : Platform) (w : World), Fresh w →
    ∀ (cs : List CallRec) (s : World), CallRun (rxAny c) (start c w) cs s →
      fillable s + unreturned s = 511 := by
  intro h
  have hcons := h .flat (.cold 0 0 fun _ => 0) fresh_cold _ _ (callRun_one (step_any 0x8000))
  rcases recv_due (between_one 0x8000) (due_one 0x8000) (run_oneCall (rxAny .flat) 0x8000) with
    ⟨-, h', -⟩ | ⟨hv, -⟩
  · have := h'.conserved_iff.mp hcons
    omega
  · exact hv ((validAtTail_one 0x8000).mpr (by decide))

end Ipq4019.Edma.RxProgress
