import Ipq4019.Edma.Device

/-!
# The EDMA rings: bring-up

What `edma_init_desc` and `edma_init_rfd_ring` leave, whatever the EDMA and the rings held before.

* `exec_initDesc`: head and tail of the transmit ring, and the producer index, are the consumer
  index that the EDMA reports, taken as it is.
* `exec_initRfdRing`: each receive descriptor names its buffer, the tail is 0 and the producer index
  511; the consumer index of the EDMA is not looked at.
-/

namespace Ipq4019.Edma.Init

open Ipq4019.Lib.Interleave Ipq4019.Lib.Interleave.Prog
open Ipq4019.Edma.Driver Ipq4019.Edma.Device

variable {c : Platform} {env : World → World → Prop}

/-! ### Transmission -/

/-- The word written to the transmit index register has the consumer index for its producer. -/
theorem prod_word (r : UInt32) (h : UInt16) :
    ((r &&& ~~~edmaTpdProdIdxMask) ||| h.toUInt32).toUInt16 = h := by
  apply UInt16.eq_of_toBitVec_eq
  simp only [edmaTpdProdIdxMask, UInt32.toBitVec_toUInt16, UInt32.toBitVec_or, UInt32.toBitVec_and,
    UInt32.toBitVec_not, UInt16.toBitVec_toUInt32]
  ext i hi
  simp

/-- **What `edma_init_desc` leaves.** -/
theorem exec_initDesc (c : Platform) (env : World → World → Prop) (w : World) :
    ∃ reg sent, (exec (edma c env) (edmaInitDesc c) w).2 =
    { w with
      dev := { w.dev with tpdHead := w.hw.tpdCons, tpdTail := w.hw.tpdCons }
      hw := { w.hw with tpdProd := w.hw.tpdCons, reg := reg }
      filled := []
      owned := w.owned ++ w.filled
      sent := sent
      timedOut := false } := by
  have hc : ((w.readReg .tpdIdxQ >>> edmaTpdConsIdxShift) &&& edmaTpdConsIdxMask).toUInt16 =
    w.hw.tpdCons := by rw [tpdCons_field, UInt16.toUInt16_toUInt32]
  have hp := prod_word (w.readReg .tpdIdxQ) w.hw.tpdCons
  rw [← tpdCons_field] at hp
  have h : ∃ reg sent, (exec (edma c env) (edmaInitDesc c) w).2 =
      { w with
        dev := { w.dev with
          tpdHead := ((w.readReg .tpdIdxQ >>> edmaTpdConsIdxShift) &&& edmaTpdConsIdxMask).toUInt16
          tpdTail := ((w.readReg .tpdIdxQ >>> edmaTpdConsIdxShift) &&& edmaTpdConsIdxMask).toUInt16 }
        hw := { w.hw with
          tpdProd := ((w.readReg .tpdIdxQ &&& ~~~edmaTpdProdIdxMask) |||
            ((w.readReg .tpdIdxQ >>> edmaTpdConsIdxShift) &&& edmaTpdConsIdxMask)).toUInt16
          reg := reg }
        filled := []
        owned := w.owned ++ w.filled
        sent := sent
        timedOut := false } := ⟨_, _, rfl⟩
  rw [hp, hc] at h
  exact h

/-! ### Reception -/

/-- The loop of `edma_init_rfd_ring`. -/
theorem exec_fillRfds (n : ℕ) : ∀ (i : ℕ) (w : World), exec (edma c env) (fillRfds c n i) w =
    ((), { w with rfdRing := fun j =>
      if i ≤ j ∧ j < i + n then c.virtToPhys (w.netRxPackets.ptr j) else w.rfdRing j }) := by
  induction n with
  | zero =>
    intro i w
    have h : (fun j => if i ≤ j ∧ j < i + 0 then c.virtToPhys (w.netRxPackets.ptr j)
        else w.rfdRing j) = w.rfdRing := by
      funext j
      exact if_neg (by omega)
    rw [h]
    rfl
  | succ n ih =>
    intro i w
    have h : exec (edma c env) (fillRfds c (n + 1) i) w = exec (edma c env) (fillRfds c n (i + 1))
      { w with rfdRing := Function.update w.rfdRing i (c.virtToPhys (w.netRxPackets.ptr i)) } := rfl
    rw [h, ih]
    congr 2
    funext j
    dsimp only
    by_cases hj : j = i
    · subst hj
      simp
    · rw [Function.update_of_ne hj]
      congr 1
      apply propext
      omega

/-- **What `edma_init_rfd_ring` leaves.** -/
theorem exec_initRfdRing (c : Platform) (env : World → World → Prop) (w : World) :
    ∃ u, (exec (edma c env) (edmaInitRfdRing c) w).2 =
    { w with
      dev := { w.dev with rfdHead := 511, rfdTail := 0 }
      rfdRing := fun j => if j < noOfRxDesc then c.virtToPhys (w.netRxPackets.ptr j)
        else w.rfdRing j
      hw := { w.hw with rfdProd := 511 }
      lastFlush := u } := by
  unfold edmaInitRfdRing
  rw [exec_bind, exec_fillRfds]
  simp only [Nat.zero_le, true_and, Nat.zero_add]
  exact ⟨_, rfl⟩

end Ipq4019.Edma.Init
