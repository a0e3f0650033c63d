import Ipq4019.Edma.RxFifo

/-!
# The receive ring: stale frames

An EDMA whose index may move on before its writes arrive in memory.  The valid bit is meant for this
case, but nothing clears it when a buffer is handed back, so from the second lap on it says nothing.

* `no_stale`: if each buffer has been written by the time its length is read, every frame returned is
  the one stored for the current use of its buffer.
* `stale_frame`: 512 frames, and then a 513th whose write is late: the call returns the first frame
  again.
-/

namespace Ipq4019.Edma.RxStale

open Ipq4019.Lib.Interleave Ipq4019.Lib.Interleave.Prog Ipq4019.Lib.Memory
open Ipq4019.Edma.Driver Ipq4019.Edma.Device Ipq4019.Edma.Init Ipq4019.Edma.RxRing
open Ipq4019.Edma.Recv Ipq4019.Edma.RxFifo

/-- The EDMA of this module: its index may be ahead of the memory. -/
abbrev rxLate (c : Platform) : Machine edmaSig World := edma c (RxStep FrameOk True)

theorem env_late : ∀ s s', RxStep FrameOk True s s' → EdmaStep FrameOk True s s' := fun _ _ => Or.inl

/-- A frame returned is the one stored for the current use of its buffer: the frame of the position
that is consumed next. -/
def Current (x : CallRec) : Prop :=
  x.out.len ≠ 0 → ∃ e, x.after.stored[x.before.copied]? = some e ∧ Delivers x.call e x.out

/-- **No stale frame** in a run in which each buffer is written by the time its length is read. -/
theorem no_stale (c : Platform) (w : World) (hw : Fresh w) (cs : List CallRec) (s : World)
    (h : CallRun (rxLate c) (start c w) cs s)
    (hland : ∀ x ∈ cs, ∀ y ∈ x.hist, Landed y.1 y.2) : ∀ x ∈ cs, Current x := by
  refine (h.forall (A := Idle c FrameOk True) (P := Current)
    (fun r => Driving.stable (FrameOk.law True) env_late) ?_ hland (idle_start hw)).1
  intro r s m l out s' hs hr hl
  obtain ⟨hpost, -⟩ := wp_run_ret (wp_recv (FrameOk.law True) env_late hs (Nat.zero_le _)) hr
    fun y hy _ => hl y hy
  rcases hpost with ⟨h, rfl, -⟩ | ⟨h, rfl, -, -⟩ | ⟨e, h, he, -, ho, -⟩
  · exact ⟨fun h0 => absurd rfl h0, r, h⟩
  · exact ⟨fun h0 => absurd rfl h0, r, h⟩
  · refine ⟨fun _ => ⟨e, ?_, ho⟩, r + 1, h⟩
    rw [hs.copied]
    exact he

/-! ### A lap, and a late write -/

/-- After `r` frames of one byte 0, all consumed. -/
structure Lap (c : Platform) (r : ℕ) (s : World) : Prop where
  idle : Idle c FrameOk False r s
  length : s.stored.length = r
  all : ∀ e ∈ s.stored, e.rrd = rrdOf 0x8000 ∧ e.data = [0]

variable {c : Platform} {r : ℕ} {s : World}

theorem frameOk_byte (b : UInt8) : FrameOk (rrdOf 0x8000) [b] :=
  ⟨by decide, rfl, le_rfl, by simp [edmaRxBufSize, edmaRrdSize]⟩

/-- The ring is empty, so the EDMA may go on. -/
theorem Lap.not_full (h : Lap c r s) : s.hw.rfdCons ≠ s.hw.rfdProd := by
  intro he
  have hv := congrArg Fin.val he
  rw [h.idle.inv.cons, h.idle.inv.prod, h.length] at hv
  unfold lim noOfRxDesc at hv
  omega

theorem env_now : ∀ s s', RxStep FrameOk False s s' → EdmaStep FrameOk False s s' :=
  fun _ _ => Or.inl

/-- A frame in memory is returned by the next call. -/
theorem recv_stored {m : Int} {l : List (EdmaOp × World)} {s' : World} {out : RecvOut}
    (hs : Idle c FrameOk False r s) (hlt : r < s.stored.length)
    (hr : Run (edma c (RxStep FrameOk False)) s (ipq4019EthRecv m) l s' (.ret out)) :
    Idle c FrameOk False (r + 1) s' ∧ ∃ e, FrameOk e.rrd e.data ∧ Delivers m e out := by
  obtain ⟨hpost, hseen⟩ := wp_run_ret (wp_recv (FrameOk.law False) env_now hs
    (Nat.succ_le_of_lt hlt)) hr fun _ _ h => h.elim
  rcases hpost with ⟨-, -, hs'⟩ | ⟨h, -, -, hv⟩ | ⟨e, h, he, -, ho, -⟩
  · omega
  · obtain ⟨e, he, hv⟩ := hv id
    exact absurd (entry_ok h r e he).1 hv
  · exact ⟨h, e, entry_ok h r e he, ho⟩

/-- Only the EDMA defers writes. -/
theorem step_pending (o : EdmaOp) (s : World) : (step c o s).2.hw.pending = s.hw.pending := by
  cases o with
  | readl r => cases r <;> rfl
  | writel v r => cases r <;> rfl
  | _ => rfl

/-- A call for a frame in memory, beside an EDMA that stands still: no write is late. -/
theorem call_stored (hs : Idle c FrameOk False r s) (hlt : r < s.stored.length) : ∃ l out s',
    Run (rxLate c) s (ipq4019EthRecv 1536) l s' (.ret out) ∧ Idle c FrameOk False (r + 1) s' ∧
      out.len ≠ 0 ∧ s'.stored = s.stored ∧ ∀ y ∈ l, y.2.hw.pending = [] := by
  have hrun := run_exec (M := edma c (RxStep FrameOk False)) (ipq4019EthRecv 1536) s
  have hlate := run_exec (M := rxLate c) (ipq4019EthRecv 1536) s
  rw [exec_congr (M := rxLate c) (N := edma c (RxStep FrameOk False)) rfl] at hlate
  have hst : (exec (edma c (RxStep FrameOk False)) (ipq4019EthRecv 1536) s).2.stored = s.stored :=
    exec_of_uses (A := fun t => t.stored = s.stored) (P := fun _ => True)
      (fun o t _ ht => (step_stored o t).trans ht) (uses_true _) rfl
  have hpend := hist_of_uses (M := rxLate c) (A := fun t => t.hw.pending = []) (P := fun _ => True)
    (fun o t _ ht => (step_pending o t).trans ht) (uses_true (ipq4019EthRecv 1536)) (hs.inv.now id)
  obtain ⟨hs', e, hok, ho⟩ := recv_stored hs hlt hrun
  exact ⟨_, _, _, hlate, hs', (returned_of_delivers (by decide) hok ho).1, hst, hpend⟩

/-- One more frame, stored and consumed. -/
theorem Lap.next (h : Lap c r s) : ∃ cs s', CallRun (rxLate c) s cs s' ∧ Lap c (r + 1) s' ∧
    ∀ x ∈ cs, ∀ y ∈ x.hist, y.2.hw.pending = [] := by
  have hfirst := h.not_full
  have hs₁ : Idle c FrameOk False r (s.complete (rrdOf 0x8000) [0]) :=
    Driving.stable (FrameOk.law False) env_now _ _ (.complete hfirst (frameOk_byte 0)) h.idle
  have hlen : (s.complete (rrdOf 0x8000) [0]).stored.length = r + 1 := by
    simp [World.complete, h.length]
  have hall : ∀ e ∈ (s.complete (rrdOf 0x8000) [0]).stored, e.rrd = rrdOf 0x8000 ∧ e.data = [0] := by
    intro e he
    rcases List.mem_append.mp he with he | he
    · exact h.all e he
    · rw [List.mem_singleton.mp he]
      exact ⟨rfl, rfl⟩
  obtain ⟨l, out, s', hr, hs', -, hst, hpend⟩ := call_stored hs₁ (by omega)
  refine ⟨[⟨1536, _, l, out, s'⟩], s', .env (.complete hfirst (frameOk_byte 0)) (.call hr (.nil _)),
    ⟨hs', ?_, ?_⟩, List.forall_mem_singleton.mpr hpend⟩
  · rw [hst, hlen]
  · rw [hst]
    exact hall

theorem Lap.rounds (n : ℕ) : ∀ {r : ℕ} {s : World}, Lap c r s →
    ∃ cs s', CallRun (rxLate c) s cs s' ∧ Lap c (r + n) s' ∧
      ∀ x ∈ cs, ∀ y ∈ x.hist, y.2.hw.pending = [] := by
  induction n with
  | zero => exact fun h => ⟨[], _, .nil _, h, by simp⟩
  | succ n ih =>
    intro r s h
    obtain ⟨cs, s₁, hr, h₁, hp⟩ := h.next
    obtain ⟨cs', s₂, hr', h₂, hp'⟩ := ih h₁
    refine ⟨cs ++ cs', s₂, hr.trans hr', ?_, fun x hx => ?_⟩
    · rwa [Nat.add_assoc, Nat.add_comm 1] at h₂
    · rcases List.mem_append.mp hx with hx | hx
      · exact hp x hx
      · exact hp' x hx

/-- **The first frame is returned twice.**  After a whole lap the EDMA's index moves on before its
write arrives, and the next call finds the first frame of the lap still in the buffer, marked
valid. -/
theorem stale_frame (h : Lap c 512 s) : ∃ x : CallRec,
    (∃ s', CallRun (rxLate c) s [x] s') ∧ ¬ Current x := by
  have hlen := h.length
  have htail : s.dev.rfdTail.toNat = 0 := h.idle.tail
  obtain ⟨e, he⟩ : ∃ e, s.stored[0]? = some e := ⟨_, List.getElem?_eq_getElem (by omega)⟩
  obtain ⟨hrrd, hdata⟩ := h.all e (List.mem_of_getElem? he)
  have hblock := h.idle.inv.held 0 e he (by rw [hlen]; rfl) (by
    rw [h.idle.inv.now id]
    exact List.not_mem_nil)
  rw [(h.idle.inv.entry 0 e he).addr] at hblock
  -- the late descriptor: the index is at slot 1, the memory as before
  have hout := exec_recv c (RxStep FrameOk True) (s := s.advance (rrdOf 0x8000) [1]) (m := 1536) (e := e)
    (by
      change (s.hw.rfdCons.val + 1) % noOfRxDesc ≠ s.dev.rfdTail.toNat
      rw [h.idle.inv.cons, hlen, htail]
      decide) (by rw [hrrd]; decide) (by
      change read s.mem (c.virtToPhys (s.netRxPackets.ptr s.dev.rfdTail.toNat)) _ = _
      rw [htail]
      exact hblock) (by rw [hrrd, hdata]; decide)
  have hrun := run_exec (M := rxLate c) (ipq4019EthRecv 1536) (s.advance (rrdOf 0x8000) [1])
  have hst : (exec (rxLate c) (ipq4019EthRecv 1536) (s.advance (rrdOf 0x8000) [1])).2.stored =
      (s.advance (rrdOf 0x8000) [1]).stored :=
    exec_of_uses (A := fun t => t.stored = (s.advance (rrdOf 0x8000) [1]).stored)
      (P := fun _ => True) (fun o t _ ht => (step_stored o t).trans ht) (uses_true _) rfl
  generalize exec (rxLate c) (ipq4019EthRecv 1536) (s.advance (rrdOf 0x8000) [1]) = x
    at hout hrun hst
  refine ⟨⟨1536, s.advance (rrdOf 0x8000) [1], _, x.1, x.2⟩, ⟨x.2, .env
    (.advance trivial h.not_full (frameOk_byte 1)) (.call hrun (.nil _))⟩, fun hcur => ?_⟩
  have hone : x.1 = ⟨0, 1, [0]⟩ := by
    rw [hout, hrrd, hdata]
    rfl
  obtain ⟨f, hf, hdel⟩ := hcur (by
    change x.1.len ≠ 0
    rw [hone]
    decide)
  dsimp only at hf hdel
  have hcp : (s.advance (rrdOf 0x8000) [1]).copied = s.stored.length := h.idle.copied.trans hlen.symm
  rw [hst, hcp] at hf
  obtain rfl : f = s.entry (rrdOf 0x8000) [1] := by
    simpa [World.advance] using hf.symm
  have hbuf := hdel.buf (by decide)
  rw [hone] at hbuf
  have hbytes : ([0] : List UInt8) = [1] := hbuf
  exact absurd hbytes (by decide)

theorem lap_start {w : World} (hw : Fresh w) : Lap c 0 (start c w) :=
  ⟨idle_start hw, by rw [stored_start hw]; rfl, by rw [stored_start hw]; simp⟩

/-- Stale frames are delivered. -/
theorem stale_delivered : ¬ ∀ (c : Platform) (w : World), Fresh w → ∀ (cs : List CallRec) (s : World),
    CallRun (rxLate c) (start c w) cs s → ∀ x ∈ cs, Current x := by
  intro h
  obtain ⟨cs, s, hr, hlap, -⟩ := (lap_start (c := .flat) fresh_cold).rounds 512
  rw [Nat.zero_add] at hlap
  obtain ⟨x, ⟨s', hx⟩, hcur⟩ := stale_frame hlap
  exact hcur (h .flat _ fresh_cold _ _ (hr.trans hx) x (by simp))

/-- A late write that arrives before the next call. -/
theorem Lap.land (h : Lap c r s) : (s.advance (rrdOf 0x8000) [1]).land s.stored.length
    (s.entry (rrdOf 0x8000) [1]) = s.complete (rrdOf 0x8000) [1] := by
  have hp := h.idle.inv.now id
  unfold World.land World.advance World.complete
  simp [hp]

theorem landed_of_pending {o : EdmaOp} (h : s.hw.pending = []) : Landed o s := by
  unfold Landed
  split
  · intro _
    rw [h]
    exact List.not_mem_nil
  · trivial

/-- **After a whole lap**, a frame whose write is late but has arrived when the driver asks. -/
theorem no_stale_reused : ∃ cs s x s',
    CallRun (rxLate .flat) (start .flat (.cold 0 0 fun _ => 0)) cs s ∧ s.copied = 512 ∧
      CallRun (rxLate .flat) s [x] s' ∧
      x.before = (s.advance (rrdOf 0x8000) [1]).land s.stored.length (s.entry (rrdOf 0x8000) [1]) ∧
      x.out.len ≠ 0 ∧ Current x := by
  obtain ⟨cs, s, hr, hlap, hp⟩ := (lap_start (c := .flat) fresh_cold).rounds 512
  rw [Nat.zero_add] at hlap
  have hs : Idle .flat FrameOk False 512 (s.complete (rrdOf 0x8000) [1]) :=
    Driving.stable (FrameOk.law False) env_now _ _ (.complete hlap.not_full (frameOk_byte 1)) hlap.idle
  have hlt : 512 < (s.complete (rrdOf 0x8000) [1]).stored.length := by
    simp [World.complete, hlap.length]
  obtain ⟨l, out, s', hrun, -, hne, -, hpend⟩ := call_stored hs hlt
  rw [← hlap.land] at hrun
  have hadv : (rxLate .flat).env s (s.advance (rrdOf 0x8000) [1]) :=
    .advance trivial hlap.not_full (frameOk_byte 1)
  have hland : (rxLate .flat).env (s.advance (rrdOf 0x8000) [1]) ((s.advance (rrdOf 0x8000) [1]).land
      s.stored.length (s.entry (rrdOf 0x8000) [1])) :=
    .land (List.mem_append_right _ (List.mem_singleton_self _)) List.getElem?_concat_length
  have hx : CallRun (rxLate .flat) s [⟨1536, _, l, out, s'⟩] s' :=
    .env hadv (.env hland (.call hrun (.nil s')))
  refine ⟨cs, s, _, s', hr, hlap.idle.copied, hx, rfl, hne, ?_⟩
  refine no_stale .flat (.cold 0 0 fun _ => 0) ⟨rfl, rfl, rfl, rfl⟩ _ _ (hr.trans hx) ?_ _
    (List.mem_append_right _ (List.mem_singleton_self _))
  intro x hx y hy
  rcases List.mem_append.mp hx with hx | hx
  · exact landed_of_pending (hp x hx y hy)
  · rw [List.mem_singleton.mp hx] at hy
    exact landed_of_pending (hpend y hy)

end Ipq4019.Edma.RxStale
