import Ipq4019.Edma.Init
import Ipq4019.Edma.Send

/-!
# The transmit ring over whole runs

Eight slots, four to a send, and no test for free ones: an index pair with `cons = prod` means both
that the EDMA has finished and that the ring is full.

* `Idle`: the state between two sends; `Handed h`: the state while the EDMA works on the four
  descriptors from position `h` on.
* `wp_ethSend`: a send leads from `Idle` to `Idle`, if it finds the EDMA finished when it writes the
  software consumer index.
* `tx_ring_safe_iff`: exactly then no step of the run does harm.
-/

namespace Ipq4019.Edma.TxRing

open Ipq4019.Lib.Interleave Ipq4019.Lib.Interleave.Prog Ipq4019.Lib.Ring
open Ipq4019.Edma.Driver Ipq4019.Edma.Device Ipq4019.Edma.Init Ipq4019.Edma.Send

variable {c : Platform} {packet : UInt32} {length : UInt16}

/-! ### What a step must not do -/

/-- The software consumer index `v` passes a descriptor the EDMA has not consumed. -/
def Passes (s : World) (v : UInt32) : Prop :=
  ∃ j < s.owned.length, v.toNat = (s.hw.tpdCons.toNat + j + 1) % noOfTxDesc

/-- **Ring safety of an access**: a descriptor that the EDMA still owns is not overwritten; a poll
that ends the wait finds everything consumed; and the software consumer index stays behind the
EDMA's. -/
def Safe : EdmaOp → World → Prop
  | .storeTpd i _, s => i.toNat ∉ s.owned
  | .readl .tpdIdxQ, s => s.hw.tpdCons = s.hw.tpdProd → s.owned = []
  | .writel v .txSwConsIdxQ, s => ¬ Passes s v
  | _, _ => True

/-- A wait that timed out is over by the time the software consumer index is written. -/
def CaughtUp : EdmaOp → World → Prop
  | .writel _ .txSwConsIdxQ, s => s.timedOut = true → s.owned = []
  | _, _ => True

/-- The contract of the runs: an access is safe exactly if the EDMA has caught up. -/
def ringContract : Contract edmaSig World where
  inv _ := True
  asm := CaughtUp
  ok o s := Safe o s ↔ CaughtUp o s

/-! ### The states of the ring -/

/-- Between two sends. -/
structure Idle (s : World) : Prop where
  head : s.dev.tpdHead.toNat < noOfTxDesc
  prod : s.hw.tpdProd = s.dev.tpdHead
  cons : s.hw.tpdCons = s.dev.tpdHead
  owned : s.owned = []
  filled : s.filled = []

/-- While the EDMA works on the descriptors of one send: it has consumed `m` of the four that begin
at position `h`. -/
structure HandedAt (h m : ℕ) (s : World) : Prop where
  le : m ≤ edmaTpdsPerPacket
  head : s.dev.tpdHead.toNat = (h + edmaTpdsPerPacket) % noOfTxDesc
  prod : s.hw.tpdProd.toNat = (h + edmaTpdsPerPacket) % noOfTxDesc
  cons : s.hw.tpdCons.toNat = (h + m) % noOfTxDesc
  owned : s.owned = slots (h + m) (edmaTpdsPerPacket - m)
  filled : s.filled = []

/-- While the EDMA works on the descriptors of one send. -/
def Handed (h : ℕ) (s : World) : Prop := ∃ m, HandedAt h m s

variable {h : ℕ} {s s' : World}

theorem slots_succ (h k : ℕ) : slots h (k + 1) = h % noOfTxDesc :: slots (h + 1) k := by
  unfold slots
  rw [List.range'_succ, List.map_cons]

@[simp] theorem length_slots (h k : ℕ) : (slots h k).length = k := by simp [slots]

/-- The EDMA takes no step while the ring is idle. -/
theorem Idle.still (hi : s.hw.tpdCons = s.hw.tpdProd) : ¬ TxStep s s' := by
  rintro ⟨hne⟩
  exact hne hi

theorem Idle.still_env (hi : s.hw.tpdCons = s.hw.tpdProd) (he : (edma c TxStep).Env s s') :
    s' = s := by
  rcases Relation.ReflTransGen.cases_head he with rfl | ⟨t, ht, -⟩
  · rfl
  · exact absurd ht (Idle.still hi)

theorem Idle.stable : Stable (edma c TxStep) Idle := fun _ _ hstep hi =>
  absurd hstep (Idle.still (hi.cons.trans hi.prod.symm))

theorem HandedAt.consume {m : ℕ} (hs : HandedAt h m s) (hne : s.hw.tpdCons ≠ s.hw.tpdProd) :
    HandedAt h (m + 1) s.consume := by
  have hm : m < edmaTpdsPerPacket := by
    rcases Nat.lt_or_eq_of_le hs.le with hlt | rfl
    · exact hlt
    · exact absurd (UInt16.toNat_inj.mp (hs.cons.trans hs.prod.symm)) hne
  obtain ⟨k, hk⟩ : ∃ k, edmaTpdsPerPacket - m = k + 1 := ⟨edmaTpdsPerPacket - m - 1, by omega⟩
  refine ⟨hm, hs.head, hs.prod, ?_, ?_, hs.filled⟩
  · have hlt : (s.hw.tpdCons.toNat + 1) % noOfTxDesc < 8 := Nat.mod_lt _ (by decide)
    simp only [World.consume, UInt16.toNat_ofNat']
    rw [Nat.mod_eq_of_lt (by omega), hs.cons, Nat.mod_add_mod, Nat.add_assoc]
  · simp only [World.consume, hs.owned, hk, slots_succ, List.tail_cons]
    rw [show edmaTpdsPerPacket - (m + 1) = k by omega, Nat.add_assoc]

theorem Handed.stable (h : ℕ) : Stable (edma c TxStep) (Handed h) := by
  rintro s _ ⟨hne⟩ ⟨m, hs⟩
  exact ⟨m + 1, hs.consume hne⟩

theorem Handed.of_sameRing (hs : Handed h s) (hr : SameRing s s') : Handed h s' := by
  obtain ⟨m, hm⟩ := hs
  obtain ⟨h₁, h₂, h₃, h₄, h₅⟩ := hr
  exact ⟨m, hm.le, h₁ ▸ hm.head, h₃ ▸ hm.prod, h₂ ▸ hm.cons, h₄ ▸ hm.owned, h₅ ▸ hm.filled⟩

/-- The index test tells the end of the work, because a send before this one left nothing. -/
theorem Handed.owned_nil (hs : Handed h s) (he : s.hw.tpdCons = s.hw.tpdProd) : s.owned = [] := by
  obtain ⟨m, hm⟩ := hs
  have heq := hm.cons.symm.trans ((congrArg UInt16.toNat he).trans hm.prod)
  have hle := hm.le
  rw [hm.owned]
  simp only [noOfTxDesc, edmaTpdsPerPacket] at heq hle ⊢
  obtain rfl : m = 4 := by omega
  rfl

/-- **The software consumer index** is right exactly if nothing is outstanding. -/
theorem Handed.passes_iff (hs : Handed h s) :
    Passes s s.dev.tpdHead.toUInt32 ↔ s.owned ≠ [] := by
  obtain ⟨m, hm⟩ := hs
  have hle := hm.le
  unfold Passes
  rw [UInt16.toNat_toUInt32, hm.head, hm.cons, hm.owned, length_slots]
  simp only [noOfTxDesc, edmaTpdsPerPacket] at *
  constructor
  · rintro ⟨j, hj, -⟩ h0
    have := congrArg List.length h0
    rw [length_slots, List.length_nil] at this
    omega
  · intro hne
    have h4 : m ≠ 4 := by
      rintro rfl
      exact hne rfl
    exact ⟨3 - m, by omega, by omega⟩

/-- When everything is consumed the ring is idle again. -/
theorem Handed.idle (hs : Handed h s) (h0 : s.owned = []) : Idle s := by
  obtain ⟨m, hm⟩ := hs
  have hle := hm.le
  have h4 : m = edmaTpdsPerPacket := by
    have := congrArg List.length (hm.owned.symm.trans h0)
    rw [length_slots, List.length_nil] at this
    omega
  subst h4
  refine ⟨?_, ?_, ?_, h0, hm.filled⟩
  · rw [hm.head]
    exact Nat.mod_lt _ (by decide)
  · exact UInt16.toNat_inj.mp (hm.prod.trans hm.head.symm)
  · exact UInt16.toNat_inj.mp (hm.cons.trans hm.head.symm)

/-! ### A send -/

/-- While the loop waits: it has not timed out. -/
theorem wp_txWait (h n : ℕ) : ∀ (i : ℕ) (s : World), Handed h s ∧ s.timedOut = false →
    wp (edma c TxStep) ringContract (txWait n i) (fun r s => (Handed h s ∧ s.timedOut = false) ∧
      (r = i + n ∨ s.owned = [])) s := by
  have hst : Stable (edma c TxStep) fun s => Handed h s ∧ s.timedOut = false := by
    rintro s _ ⟨hne⟩ ⟨hs, ht⟩
    exact ⟨Handed.stable (c := c) h _ _ ⟨hne⟩ hs, ht⟩
  induction n with
  | zero =>
    intro i s hs
    exact wp_ret hst (fun _ _ => trivial) (fun s hs => ⟨hs, Or.inl rfl⟩) hs
  | succ n ih =>
    intro i s hs
    rw [txWait_succ]
    refine wp_op hst (fun _ _ => trivial) (fun s hs => ?_) (fun s hs _ => ?_) hs
    · exact iff_of_true (fun he => hs.1.owned_nil he) trivial
    · change wp (edma c TxStep) ringContract
        (if (s.readReg .tpdIdxQ >>> edmaTpdConsIdxShift) &&& edmaTpdConsIdxMask =
          s.readReg .tpdIdxQ &&& edmaTpdProdIdxMask then .ret i
        else .op (S := edmaSig) (.udelay 1) fun _ => txWait n (i + 1)) _ s
      by_cases he : s.hw.tpdCons = s.hw.tpdProd
      · rw [if_pos (by rw [tpdCons_field, tpdProd_field, he])]
        intro s' henv
        obtain rfl : s' = s := Idle.still_env he henv
        exact ⟨trivial, hs, Or.inr (hs.1.owned_nil he)⟩
      · rw [if_neg (by rw [tpdCons_field, tpdProd_field, toUInt32_inj]; exact he)]
        refine wp_op hst (fun _ _ => trivial) (fun _ _ => iff_of_true trivial trivial)
          (fun s hs _ => ?_) hs
        rw [show i + (n + 1) = i + 1 + n by omega]
        exact ih (i + 1) s hs

/-- The end of a send: the software consumer index is written. -/
theorem wp_txDone (hs : Handed h s) (ht : s.timedOut = true ∨ s.owned = []) :
    wp (edma c TxStep) ringContract (do
      let p ← getDev
      writel p.tpdHead.toUInt32 .txSwConsIdxQ
      return (0 : Int)) (fun _ => Idle) s := by
  have hst : Stable (edma c TxStep) fun s => Handed h s ∧ (s.timedOut = true ∨ s.owned = []) := by
    rintro s _ ⟨hne⟩ ⟨hs, ht⟩
    refine ⟨Handed.stable (c := c) h _ _ ⟨hne⟩ hs, ht.imp id fun h0 => ?_⟩
    change s.owned.tail = []
    rw [h0]
    rfl
  refine wp_op hst (fun _ _ => trivial) (fun _ _ => iff_of_true trivial trivial)
    (fun s hs _ => ?_) ⟨hs, ht⟩
  intro s' henv
  have hdev : s'.dev = s.dev := (Quiet.env (quiet_tx c (o := .getDev) trivial) henv).1
  obtain ⟨hs', ht'⟩ := hst.env henv hs
  change True ∧ (Safe (.writel s.dev.tpdHead.toUInt32 .txSwConsIdxQ) s' ↔ _) ∧ _
  rw [← hdev]
  have hpass : ¬ Passes s' s'.dev.tpdHead.toUInt32 ↔ (s'.timedOut = true → s'.owned = []) := by
    rw [hs'.passes_iff, not_not]
    exact ⟨fun h0 _ => h0, fun hc => ht'.elim hc id⟩
  refine ⟨trivial, hpass, fun hc => ?_⟩
  have hidle : Idle s' := hs'.idle (ht'.elim hc id)
  exact wp_ret Idle.stable (fun _ _ => trivial) (fun _ h => h)
    ⟨hidle.head, hidle.prod, hidle.cons, hidle.owned, hidle.filled⟩

/-- The part of a send after the doorbell. -/
theorem wp_txComplete (hs : Handed h s) (ht : s.timedOut = false) : wp (edma c TxStep) ringContract
    (txComplete length) (fun _ => Idle) s := by
  refine wp_bind (wp_mono ?_ (wp_txWait h edmaTxCompleteTimeout 0 s ⟨hs, ht⟩))
  rintro i t ⟨⟨hs, -⟩, hi⟩
  by_cases hN : i = edmaTxCompleteTimeout
  · -- the wait ended by timeout, whatever the EDMA has done by then
    rw [if_pos hN]
    refine wp_op (Handed.stable h) (fun _ _ => trivial) (fun _ _ => iff_of_true trivial trivial)
      (fun t hs _ => ?_) hs
    obtain ⟨m, hm⟩ := hs
    exact wp_txDone ⟨m, hm.le, hm.head, hm.prod, hm.cons, hm.owned, hm.filled⟩ (Or.inl rfl)
  · rw [if_neg hN]
    exact wp_txDone hs (Or.inr (hi.resolve_left fun h0 => hN (by omega)))

/-- What the doorbell hands over. -/
theorem Idle.handed (hs : Idle s) : Handed s.dev.tpdHead.toNat (handed c packet length s) := by
  refine ⟨0, Nat.zero_le _, head_handed hs.head, ?_, ?_, ?_, filled_handed⟩
  · rw [prod_handed]
    exact head_handed hs.head
  · rw [cons_handed, hs.cons]
    exact (Nat.mod_eq_of_lt hs.head).symm
  · rw [owned_handed hs.head, hs.owned, hs.filled]
    rfl

/-- **A send on an idle ring** leaves it idle. -/
theorem wp_ethSend (hs : Idle s) : wp (edma c TxStep) ringContract
    (ipq4019EthSend c packet length) (fun _ => Idle) s := by
  by_cases h16 : length.toNat < edmaMinPktSize
  · unfold ipq4019EthSend
    rw [if_pos h16]
    exact wp_ret Idle.stable (fun _ _ => trivial) (fun _ h => h) hs
  · have hq : ∀ o, Local o → Quiet (edma c TxStep) o := fun o ho => quiet_tx c ho
    refine wp_send (I := fun s => s.owned = []) hq ?_ ?_ ?_ (not_lt.mp h16) hs.owned ?_
    · rintro s _ ⟨hne⟩ h0
      change s.owned.tail = []
      rw [h0]
      rfl
    · intro o s ho h0
      refine ⟨trivial, ?_⟩
      cases o with
      | storeTpd i t =>
        refine iff_of_true ?_ trivial
        change i.toNat ∉ s.owned
        rw [h0]
        exact List.not_mem_nil
      | _ => first | exact ho.elim | exact iff_of_true trivial trivial
    · intro o s ho h0
      cases o <;> first | exact ho.elim | exact h0
    · have hcp : (filledUp c packet length s).hw.tpdCons = (filledUp c packet length s).hw.tpdProd := by
        obtain ⟨d, r, f, hframe⟩ := filledUp_frame c packet length s
        rw [hframe]
        exact hs.cons.trans hs.prod.symm
      refine wp_quiet (hq .getDev trivial) (fun _ _ => ⟨trivial, iff_of_true trivial trivial⟩) ?_
      intro s' henv
      obtain rfl := Idle.still_env hcp henv
      exact ⟨trivial, iff_of_true trivial trivial, fun _ => wp_txComplete hs.handed rfl⟩

theorem wp_sends (xs : List (UInt32 × UInt16)) : ∀ {s : World}, Idle s →
    wp (edma c TxStep) ringContract (sends c xs) (fun _ => Idle) s := by
  induction xs with
  | nil => exact fun hs => wp_ret Idle.stable (fun _ _ => trivial) (fun _ h => h) hs
  | cons x xs ih =>
    intro s hs
    refine wp_bind (wp_mono (fun _ t ht => ?_) (wp_ethSend hs))
    exact wp_bind (wp_mono (fun _ t ht => wp_ret Idle.stable (fun _ _ => trivial) (fun _ h => h) ht)
      (ih ht))

/-! ### Whole runs -/

/-- The world after bring-up of the transmit ring. -/
def start (c : Platform) (w : World) : World := (exec (edma c TxStep) (edmaInitDesc c) w).2

theorem idle_start {w : World} (h8 : w.hw.tpdCons.toNat < noOfTxDesc) (ho : w.owned = [])
    (hf : w.filled = []) : Idle (start c w) := by
  obtain ⟨reg, sent, hw⟩ := exec_initDesc c TxStep w
  rw [start, hw]
  refine ⟨h8, rfl, rfl, ?_, rfl⟩
  change w.owned ++ w.filled = []
  rw [ho, hf]
  rfl

/-- **Ring safety of whole runs.**  From bring-up on, whatever is sent and whenever the EDMA goes on:
all accesses are safe if and only if each wait that timed out is over by the time the software
consumer index is written. -/
theorem tx_ring_safe_iff (c : Platform) (w : World) (h8 : w.hw.tpdCons.toNat < noOfTxDesc)
    (ho : w.owned = []) (hf : w.filled = []) (xs : List (UInt32 × UInt16))
    (l : List (EdmaOp × World)) (s : World) (p : Drv (List Int))
    (hr : Run (edma c TxStep) (start c w) (sends c xs) l s p) :
    (∀ x ∈ l, Safe x.1 x.2) ↔ ∀ x ∈ l, CaughtUp x.1 x.2 :=
  run_ok_iff_asm (wp_sends xs (idle_start h8 ho hf)) hr fun _ _ h => h

/-- The run of one send beside an EDMA that stands still, on a ring whose index is 4. -/
theorem tx_ring_safe_iff_one :
    (∀ x ∈ hist (edma .flat TxStep) (sends .flat [(0x81002000, 64)])
      (start .flat (.cold 4 0 fun _ => 0)), Safe x.1 x.2) ↔
    ∀ x ∈ hist (edma .flat TxStep) (sends .flat [(0x81002000, 64)])
      (start .flat (.cold 4 0 fun _ => 0)), CaughtUp x.1 x.2 :=
  tx_ring_safe_iff .flat (.cold 4 0 fun _ => 0) (by decide) rfl rfl [(0x81002000, 64)] _ _ _
    (run_exec _ _)

/-- **The EDMA stalls, and three packets are sent.**  The first send times out and moves the software
consumer index past descriptors that are not consumed; the second takes the full ring for an empty
one; the third overwrites what the EDMA still owns. -/
theorem stalled_edma (c : Platform) (packet : UInt32) (length : UInt16) {w : World} (hw : Idle w)
    (h0 : w.dev.tpdHead.toNat = 0) (h16 : edmaMinPktSize ≤ length.toNat) :
    let x := (packet, length)
    let l := hist (edma c TxStep) (sends c [x, x, x]) w
    (∃ v s, (.writel v .txSwConsIdxQ, s) ∈ l ∧ Passes s v) ∧
    (∃ s, (.readl .tpdIdxQ, s) ∈ l ∧ s.hw.tpdCons = s.hw.tpdProd ∧ s.owned ≠ []) ∧
    ∃ i t s, (.storeTpd i t, s) ∈ l ∧ i.toNat ∈ s.owned := by
  intro x l
  -- the worlds after the first and the second send
  have s₁ := sameRing_exec_send c packet w TxStep h16
  generalize hw₁ : (exec (edma c TxStep) (ipq4019EthSend c packet length) w).2 = w₁ at s₁
  have s₂ := sameRing_exec_send c packet w₁ TxStep h16
  generalize hw₂ : (exec (edma c TxStep) (ipq4019EthSend c packet length) w₁).2 = w₂ at s₂
  have in₁ : ∀ y ∈ hist (edma c TxStep) (ipq4019EthSend c packet length) w, y ∈ l :=
    fun y hy => mem_hist_left hy
  have in₂ : ∀ y ∈ hist (edma c TxStep) (ipq4019EthSend c packet length) w₁, y ∈ l := by
    intro y hy
    rw [← hw₁] at hy
    exact mem_hist_right (mem_hist_left (mem_hist_left hy))
  have in₃ : ∀ y ∈ hist (edma c TxStep) (ipq4019EthSend c packet length) w₂, y ∈ l := by
    intro y hy
    rw [← hw₂, ← hw₁] at hy
    exact mem_hist_right (mem_hist_left (mem_hist_right (mem_hist_left (mem_hist_left hy))))
  have head₁ : w₁.dev.tpdHead.toNat = 4 := by
    rw [s₁.dev, head_handed hw.head, h0]
    rfl
  have hh₁ : w₁.dev.tpdHead.toNat < noOfTxDesc := by
    rw [head₁]
    decide
  have owned₁ : w₁.owned = slots 0 4 := by
    rw [s₁.owned, owned_handed hw.head, hw.owned, hw.filled, h0]
    rfl
  have head₂ : w₂.dev.tpdHead.toNat = 0 := by
    rw [s₂.dev, head_handed hh₁, head₁]
    rfl
  refine ⟨?_, ?_, ?_⟩
  · obtain ⟨s, hm, hs⟩ := done_mem_hist c packet w TxStep h16
    refine ⟨_, s, in₁ _ hm, ?_⟩
    have hand : Handed w.dev.tpdHead.toNat s := hw.handed.of_sameRing hs
    rw [← hs.dev, hand.passes_iff, hs.owned, ← s₁.owned, owned₁]
    decide
  · refine ⟨_, in₂ _ (poll_mem_hist h16), ?_, ?_⟩
    · rw [prod_handed, cons_handed, s₁.cons, cons_handed, hw.cons, ← UInt16.toNat_inj, h0,
        head_handed hh₁, head₁]
      rfl
    · rw [owned_handed hh₁, owned₁]
      exact List.cons_ne_nil _ _
  · obtain ⟨t, s, hm, ho⟩ := store_mem_hist c packet w₂ TxStep h16
    refine ⟨_, t, s, in₃ _ hm, ?_⟩
    rw [ho, s₂.owned, owned_handed hh₁, owned₁, head₂]
    exact List.mem_cons_self

/-- Ring safety fails from a fresh start with the index 0. -/
theorem ring_safety_fails : ¬ ∀ (c : Platform) (w : World), w.hw.tpdCons.toNat < noOfTxDesc →
    w.hw.tpdCons.toNat % edmaTpdsPerPacket = 0 → w.owned = [] → w.filled = [] →
    ∀ (xs : List (UInt32 × UInt16)) (l : List (EdmaOp × World)) (s : World) (p : Drv (List Int)),
      Run (edma c TxStep) (start c w) (sends c xs) l s p → ∀ x ∈ l, Safe x.1 x.2 := by
  intro h
  have hidle : Idle (start .flat (.cold 0 0 fun _ => 0)) := idle_start (by decide) rfl rfl
  obtain ⟨-, -, i, t, s, hm, hi⟩ := stalled_edma .flat 0x81002000 64 hidle rfl
    (by decide)
  exact h .flat (.cold 0 0 fun _ => 0) (by decide) (by decide) rfl rfl _ _ _ _
    (run_exec _ _) _ hm hi

end Ipq4019.Edma.TxRing
