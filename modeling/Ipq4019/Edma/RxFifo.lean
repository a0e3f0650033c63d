import Ipq4019.Edma.Recv

/-!
# The receive ring is a queue

The EDMA stores valid frames, each before its index moves on.  Then, over any number of laps and
whenever its steps fall:

* the EDMA never fills a buffer whose frame was not copied out;
* the calls return the frames it stored, in order, none lost and none twice, each truncated to the
  size of the caller's buffer;
* a call reports nothing exactly when all that was stored when it read the index is returned
  (`rx_fifo`).
-/

namespace Ipq4019.Edma.RxFifo

open Ipq4019.Lib.Interleave Ipq4019.Lib.Interleave.Prog
open Ipq4019.Edma.Driver Ipq4019.Edma.Device Ipq4019.Edma.RxRing Ipq4019.Edma.Recv

/-- The calls that returned a frame, with the size of the caller's buffer. -/
def frames (ms : List Int) (outs : List RecvOut) : List (Int × RecvOut) :=
  (ms.zip outs).filter fun x => x.2.len ≠ 0

/-- The call `x` returned the frame of the entry, truncated. -/
structure Returned (e : RxEntry) (x : Int × RecvOut) : Prop where
  ret : x.2.ret = 0
  buf : x.2.buf = e.data.take x.1.toNat
  len : x.2.len.toNat = x.2.buf.length

variable {e : RxEntry} {m : Int} {out : RecvOut} {ms : List Int} {outs : List RecvOut}

theorem frames_empty : frames (m :: ms) (⟨0, 0, []⟩ :: outs) = frames ms outs := by
  unfold frames
  rw [List.zip_cons_cons, List.filter_cons_of_neg (by simp)]

theorem frames_frame (h : out.len ≠ 0) :
    frames (m :: ms) (out :: outs) = (m, out) :: frames ms outs := by
  unfold frames
  rw [List.zip_cons_cons, List.filter_cons_of_pos (by simpa using h)]

/-- The length reported, for a caller with a buffer. -/
theorem toNat_truncated {n : UInt16} (hm : 0 ≤ m) :
    (truncated n m).toNat = min n.toNat m.toNat := by
  unfold truncated
  have hlt := n.toNat_lt
  by_cases h : (n.toNat : Int) > m
  · rw [if_pos h, UInt16.ofInt, Int.emod_eq_of_lt hm (by omega), UInt16.toNat_ofNat',
      Nat.mod_eq_of_lt (by omega)]
    omega
  · rw [if_neg h]
    omega

theorem returned_of_delivers (hm : 1 ≤ m) (hok : FrameOk e.rrd e.data) (ho : Delivers m e out) :
    out.len ≠ 0 ∧ Returned e (m, out) := by
  obtain ⟨-, hlen, h1, -⟩ := hok
  have hn : out.len.toNat = min e.data.length m.toNat := by
    rw [ho.len, toNat_truncated (by omega), hlen]
  have hbuf : out.buf = e.data.take m.toNat := by
    rw [ho.buf (by omega), hn, List.take_eq_take_iff]
    omega
  refine ⟨fun h0 => ?_, ho.ret, hbuf, ?_⟩
  · rw [h0] at hn
    change 0 = _ at hn
    omega
  · rw [hbuf, hn, List.length_take]
    exact min_comm _ _

/-- **The calls return the frames in order.** -/
theorem Calls.returned {st : List RxEntry}
    (hst : ∀ (i : ℕ) (e : RxEntry), st[i]? = some e → FrameOk e.rrd e.data)
    {r r' : ℕ} (h : Calls st r r' ms outs) (hm : ∀ m ∈ ms, 1 ≤ m) :
    r' = r + (frames ms outs).length ∧
      List.Forall₂ Returned ((st.drop r).take (frames ms outs).length) (frames ms outs) := by
  induction h with
  | nil r => exact ⟨rfl, .nil⟩
  | empty h ih =>
    rw [frames_empty]
    exact ih fun m hms => hm m (List.mem_cons_of_mem _ hms)
  | @frame r r' m ms out outs e he hv ho h ih =>
    obtain ⟨hne, hret⟩ := returned_of_delivers (hm m List.mem_cons_self) (hst r e he) ho
    obtain ⟨hr, hall⟩ := ih fun m hms => hm m (List.mem_cons_of_mem _ hms)
    obtain ⟨hlt, hget⟩ := List.getElem?_eq_some_iff.mp he
    rw [frames_frame hne, List.length_cons, List.drop_eq_getElem_cons hlt, List.take_succ_cons, hget]
    exact ⟨by omega, .cons hret hall⟩

theorem entry_ok {c : Platform} {defer : Prop} {r : ℕ} {s : World}
    (h : Idle c FrameOk defer r s) :
    ∀ (i : ℕ) (e : RxEntry), s.stored[i]? = some e → FrameOk e.rrd e.data :=
  fun i e he => (h.inv.entry i e he).frame

/-- **The receive ring refines a queue.** -/
theorem rx_fifo (c : Platform) (w : World) (hw : Fresh w) (ms : List Int) (hms : ∀ m ∈ ms, 1 ≤ m) :
    (∀ l s p, Run (edma c (RxStep FrameOk False)) (start c w) (recvs ms) l s p → NoOverwrite s) ∧
    ∀ l s outs, Run (edma c (RxStep FrameOk False)) (start c w) (recvs ms) l s (.ret outs) →
      List.Forall₂ Returned (s.stored.take (frames ms outs).length) (frames ms outs) ∧
      ∀ m, 1 ≤ m → ∀ l' s' out,
        Run (edma c (RxStep FrameOk False)) s (ipq4019EthRecv m) l' s' (.ret out) →
          (out.len = 0 ↔ s'.seen = (frames ms outs).length) := by
  have hF : FrameLaw FrameOk False := FrameOk.law False
  have henv : ∀ s s', RxStep FrameOk False s s' → EdmaStep FrameOk False s s' := fun _ _ => Or.inl
  have hwp := wp_recvs hF henv (c := c) ms (idle_start hw)
  refine ⟨fun l s p hr => ?_, fun l s outs hr => ?_⟩
  · exact wp_inv (wp_run hwp hr fun _ _ h => h.elim)
  obtain ⟨r', hidle, hcalls⟩ := wp_run_ret hwp hr fun _ _ h => h.elim
  obtain ⟨hr', hall⟩ := Calls.returned (entry_ok hidle) hcalls hms
  rw [Nat.zero_add] at hr'
  refine ⟨hall, fun m hm l' s' out hrun => ?_⟩
  obtain ⟨hpost, -⟩ := wp_run_ret (wp_recv hF henv hidle (Nat.zero_le _)) hrun fun _ _ h => h.elim
  rw [← hr']
  rcases hpost with ⟨-, rfl, hs⟩ | ⟨h, -, hs, hv⟩ | ⟨e, h, he, -, ho, hs⟩
  · exact iff_of_true rfl hs
  · obtain ⟨e, he, hv⟩ := hv id
    exact absurd (entry_ok h r' e he).1 hv
  · have hne := (returned_of_delivers hm (entry_ok h r' e he) ho).1
    exact iff_of_false hne (by omega)

/-- From a fresh start, with callers' buffers of 1536 bytes. -/
theorem rx_fifo_fresh :
    (∀ l s p, Run (edma .flat (RxStep FrameOk False)) (start .flat (.cold 0 0 fun _ => 0))
      (recvs [1536, 1536]) l s p → NoOverwrite s) ∧
    ∀ l s outs, Run (edma .flat (RxStep FrameOk False)) (start .flat (.cold 0 0 fun _ => 0))
        (recvs [1536, 1536]) l s (.ret outs) →
      List.Forall₂ Returned (s.stored.take (frames [1536, 1536] outs).length)
        (frames [1536, 1536] outs) ∧
      ∀ m, 1 ≤ m → ∀ l' s' out,
        Run (edma .flat (RxStep FrameOk False)) s (ipq4019EthRecv m) l' s' (.ret out) →
          (out.len = 0 ↔ s'.seen = (frames [1536, 1536] outs).length) :=
  rx_fifo .flat (.cold 0 0 fun _ => 0) ⟨rfl, rfl, rfl, rfl⟩ [1536, 1536] (by decide)

end Ipq4019.Edma.RxFifo
