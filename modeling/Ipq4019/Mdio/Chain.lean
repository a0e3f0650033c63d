import Ipq4019.Mdio.MmdLoss

/-!
# MDIO: accesses to one PHY, one after another

What a call does on the line is a function of the PHY it addresses and of the fates of its
transactions, so a sequence of calls is a composition of such functions.

* `exec_writeMmd`, `exec_readMmd`: the PHY after a call, whatever is left of the fates.
* `Alike.hits`: what is stored where depends on the function, the device and the addresses only.
* `hits_last_word`: and on the word of the access before only where that was taken for an address.
-/

namespace Ipq4019.Mdio.Chain

open Ipq4019.Lib.Interleave Ipq4019.Lib.Interleave.Prog
open Ipq4019.Mdio.Driver Ipq4019.Mdio.Controller Ipq4019.Mdio.Call Ipq4019.Mdio.Bank
open Ipq4019.Mdio.Line Ipq4019.Mdio.MmdLoss

/-- The fate of transaction `n`. -/
def fate (fs : List Fate) (n : ℕ) : Fate := (fs.drop n).headD .ok

/-! ### The calls on the line -/

variable {phy devad r : UInt8} {reg val v : UInt16} {b : Phys} {fs : List Fate}

theorem exec_write : (exec line (mdioWrite phy r v) (b, fs)).2 = (Function.update b (low5 phy)
    (fated (fate fs 0) (b (low5 phy)) ((b (low5 phy)).write (low5 r) v)), fs.drop 1) := by
  cases fs with
  | nil => exact line_write .ok [] phy r v b
  | cons f fs => exact line_write f fs phy r v b

theorem exec_read : exec line (mdioRead phy r v) (b, fs) =
    (((if fate fs 0 = .ok then (0, ((b (low5 phy)).read (low5 r)).1) else (-1, v)) : Int × UInt16),
      Function.update b (low5 phy) (fated (fate fs 0) (b (low5 phy)) ((b (low5 phy)).read (low5 r)).2),
      fs.drop 1) := by
  cases fs with
  | nil => exact line_read .ok [] phy r v b
  | cons f fs => exact line_read f fs phy r v b

/-- A PHY after a write of an MMD register, and after a read. -/
def stored (p : Phy) (d : UInt8) (reg val : UInt16) (t : Fates) : Phy :=
  fated t.last (afterData p d reg t) ((afterData p d reg t).storeData val)

def loaded (p : Phy) (d : UInt8) (reg : UInt16) (t : Fates) : Phy :=
  fated t.last (afterData p d reg t) (afterData p d reg t).loadData.2

/-- What the read returns. -/
def brought (p : Phy) (d : UInt8) (reg : UInt16) (t : Fates) : UInt16 :=
  if t.last = .ok then (afterData p d reg t).loadData.1 else 0

theorem fates_of (fs : List Fate) : Fates.of fs = ⟨fate fs 0, fate fs 1, fate fs 2, fate fs 3⟩ := by
  rcases fs with _ | ⟨a, _ | ⟨b, _ | ⟨c, _ | ⟨d, fs⟩⟩⟩⟩ <;> rfl

theorem exec_writeMmd : (exec line (ipq4019PhyWriteMmd phy devad reg val) (b, fs)).2 =
    (Function.update b (low5 phy) (stored (b (low5 phy)) devad reg val (Fates.of fs)),
      fs.drop 4) := by
  unfold ipq4019PhyWriteMmd
  simp only [exec_bind, exec_write, Function.update_self, Function.update_idem, write_ctrl,
    write_data, fates_of, List.drop_drop]
  rfl

theorem exec_readMmd : exec line (ipq4019PhyReadMmd phy devad reg) (b, fs) =
    (brought (b (low5 phy)) devad reg (Fates.of fs),
      Function.update b (low5 phy) (loaded (b (low5 phy)) devad reg (Fates.of fs)), fs.drop 4) := by
  unfold ipq4019PhyReadMmd
  simp only [exec_bind, exec_write, exec_read, Function.update_self, Function.update_idem, write_ctrl,
    write_data, read_data, fates_of, List.drop_drop]
  change ((if fate fs 3 = .ok then ((0 : Int), _) else (-1, 0)).2, _) = _
  rw [apply_ite Prod.snd]
  rfl

/-! ### The registers -/

variable {p q : Phy} {d : UInt8} {t : Fates} {e : Fin 32} {a : UInt16}

theorem stored_mmd : (stored p d reg val t).mmd e a =
    if Hits t.last (afterData p d reg t) e a then val
    else if Hits t.addr (afterCtrl p d t) e a then reg else p.mmd e a := by
  unfold stored
  rw [fated_storeData, afterData_mmd, afterAddr_mmd]

theorem loaded_mmd : (loaded p d reg t).mmd e a =
    if Hits t.addr (afterCtrl p d t) e a then reg else p.mmd e a := by
  unfold loaded
  rw [fated_loadData, afterData_mmd, afterAddr_mmd]

theorem fated_reg {f : Fate} (h : q.reg = p.reg) : (fated f p q).reg = p.reg := by
  unfold fated
  split
  · rfl
  · exact h

theorem storeData_reg : (p.storeData v).reg = p.reg := by
  unfold Phy.storeData
  split
  · rfl
  · dsimp only
    split
    · rfl
    · rfl

theorem loadData_reg : p.loadData.2.reg = p.reg := by
  unfold Phy.loadData
  split
  · rfl
  · dsimp only
    split
    · rfl
    · rfl

theorem afterData_reg : (afterData p d reg t).reg = p.reg := by
  have h : (afterAddr p d reg t).reg = p.reg := (fated_reg storeData_reg).trans (fated_reg rfl)
  unfold afterData fated
  split
  · exact h
  · exact h

theorem stored_reg : (stored p d reg val t).reg = p.reg :=
  (fated_reg storeData_reg).trans afterData_reg

theorem loaded_reg : (loaded p d reg t).reg = p.reg :=
  (fated_reg loadData_reg).trans afterData_reg

/-! ### The selected register -/

/-- The same function, device and addresses. -/
structure Alike (p q : Phy) : Prop where
  ctrl : p.ctrl = q.ctrl
  addr : p.addr = q.addr

namespace Alike
variable (h : Alike p q)
include h

/-- The same contents too. -/
theorem eq (hm : ∀ e a, p.mmd e a = q.mmd e a) (hr : p.reg = q.reg) : p = q := by
  obtain ⟨hc, ha⟩ := h
  have hm : p.mmd = q.mmd := funext fun e => funext fun a => hm e a
  cases p
  cases q
  subst hc ha hm hr
  rfl

theorem hits {f : Fate} : Hits f p e a ↔ Hits f q e a := by
  unfold Hits
  rw [func_congr h.ctrl, dev_congr h.ctrl, h.addr]

theorem fated {f : Fate} {p' q' : Phy} (h' : Alike p' q') : Alike (fated f p p') (fated f q q') := by
  unfold MmdLoss.fated
  split
  · exact h
  · exact h'

theorem setCtrl : Alike { p with ctrl := v } { q with ctrl := v } := ⟨rfl, h.addr⟩

theorem storeData : Alike (p.storeData v) (q.storeData v) := by
  constructor
  · rw [storeData_ctrl, storeData_ctrl, h.ctrl]
  · funext e
    rw [storeData_addr, storeData_addr, func_congr h.ctrl, dev_congr h.ctrl, h.addr]

theorem loadData : Alike p.loadData.2 q.loadData.2 := by
  unfold Phy.loadData
  rw [func_congr h.ctrl]
  by_cases h0 : q.func = 0
  · rw [if_pos h0, if_pos h0]
    exact h
  · rw [if_neg h0, if_neg h0]
    by_cases h2 : q.func = 2
    · simp only [h2, if_true]
      refine ⟨h.ctrl, ?_⟩
      unfold Phy.bump
      rw [h.addr, dev_congr h.ctrl]
    · simp only [h2, if_false]
      exact h

theorem afterCtrl : Alike (afterCtrl p d t) (afterCtrl q d t) := h.fated h.setCtrl

theorem afterData : Alike (afterData p d reg t) (afterData q d reg t) := by
  have ha := h.afterCtrl (d := d) (t := t)
  have hs := ha.fated (f := t.addr) (ha.storeData (v := reg))
  exact hs.fated hs.setCtrl

theorem stored : Alike (stored p d reg val t) (stored q d reg val t) :=
  h.afterData.fated h.afterData.storeData

theorem loaded : Alike (loaded p d reg t) (loaded q d reg t) :=
  h.afterData.fated h.afterData.loadData

end Alike

/-! ### The word of the access before -/

variable {d' : UInt8} {reg' val' : UInt16} {t' : Fates}

/-- A word moves a device's address only where it is taken for an address. -/
theorem stored_addr (val' : UInt16) : (stored p d reg val t).addr e =
    if t.last ≠ .lost ∧ (afterData p d reg t).func = 0 ∧ e = (afterData p d reg t).dev then val
    else (stored p d reg val' t).addr e := by
  unfold stored fated
  by_cases hl : t.last = .lost
  · simp [hl]
  · simp only [hl, if_false, not_false_eq_true, ne_eq, true_and, storeData_addr]
    by_cases he : e = (afterData p d reg t).dev
    · by_cases h0 : (afterData p d reg t).func = 0
      · simp [he, h0]
      · simp [he, h0]
    · simp [he]

theorem stored_ctrl : (stored p d reg val t).ctrl = (afterData p d reg t).ctrl := by
  unfold stored fated
  split
  · rfl
  · exact storeData_ctrl

theorem stored_alike (h : t.last = .lost ∨ (afterData p d reg t).func ≠ 0) :
    Alike (stored p d reg val t) (stored p d reg val' t) := by
  refine ⟨stored_ctrl.trans stored_ctrl.symm, ?_⟩
  funext e
  rw [stored_addr val', if_neg]
  rintro ⟨hl, h0, -⟩
  exact h.elim hl fun hn => hn h0

theorem not_leftover_stored (h : (afterData p d reg t).func = 0) :
    ¬Leftover (stored p d reg val t) t' :=
  fun hl => hl.2 ((func_congr stored_ctrl).trans h)

/-- The word has no part in what the second transaction of the next access stores where. -/
theorem hits_addr_word (h : Hits t'.addr (afterCtrl (stored p d reg val t) d' t') e a) :
    Hits t'.addr (afterCtrl (stored p d reg val' t) d' t') e a := by
  by_cases h0 : (afterData p d reg t).func = 0
  · exact absurd (hits_addr.mp h).2.1 (not_leftover_stored h0)
  · exact (stored_alike (Or.inr h0)).afterCtrl.hits.mp h

/-- And in what its last one stores only as the address. -/
theorem hits_last_word (h : Hits t'.last (afterData (stored p d reg val t) d' reg' t') e a) :
    a = val ∨ ∀ val', Hits t'.last (afterData (stored p d reg val' t) d' reg' t') e a := by
  by_cases hsame : t.last = .lost ∨ (afterData p d reg t).func ≠ 0
  · right
    intro val'
    exact (stored_alike hsame).afterData.hits.mp h
  · push Not at hsame
    obtain ⟨hl, h0⟩ := hsame
    have hdev : ∀ val', (stored p d reg val' t).dev = (afterData p d reg t).dev := fun val' =>
      dev_congr stored_ctrl
    rw [hits_last] at h
    obtain ⟨hlast, ⟨hd, he, ha⟩ | ⟨-, hleft, -⟩⟩ := h
    · rw [addr_afterAddr, if_neg (not_leftover_stored h0), hdev] at ha
      by_cases hv : low5 d' = (afterData p d reg t).dev ∧ a = val
      · exact Or.inl hv.2
      · right
        intro val'
        refine hits_last.mpr ⟨hlast, Or.inl ⟨hd, he, ?_⟩⟩
        rw [addr_afterAddr, if_neg (not_leftover_stored h0), hdev]
        have hcell : a = (stored p d reg val t).addr (low5 d') →
            a = (stored p d reg val' t).addr (low5 d') := by
          intro ha
          rw [stored_addr val'] at ha
          split at ha
          · rename_i hh
            exact absurd ⟨hh.2.2, ha⟩ hv
          · exact ha
        by_cases hlost : t'.addr = .lost
        · rw [if_pos hlost] at ha ⊢
          exact hcell ha
        · rw [if_neg hlost] at ha ⊢
          by_cases hsel : low5 d' =
              if t'.ctrl = .lost then (afterData p d reg t).dev else low5 d'
          · rw [if_pos hsel] at ha ⊢
            exact ha
          · rw [if_neg hsel] at ha ⊢
            exact hcell ha
    · exact absurd hleft (not_leftover_stored h0)

/-! ### What a read brings -/

/-- A read that has its register selected brings what the register holds then. -/
theorem brought_of_hits (h : Hits t.last (afterData p d reg t) e a) (hok : t.last = .ok) :
    brought p d reg t = (loaded p d reg t).mmd e a := by
  obtain ⟨-, h0, rfl, rfl⟩ := h
  unfold brought Phy.loadData
  rw [if_pos hok, if_neg h0, loaded_mmd, afterData_mmd, afterAddr_mmd]

/-- What it brings depends on the register that is selected for it only. -/
theorem brought_congr (hpq : Alike p q) (hm : t.last = .ok → ∀ e a,
    Hits t.last (afterData p d reg t) e a → (loaded p d reg t).mmd e a = (loaded q d reg t).mmd e a) :
    brought p d reg t = brought q d reg t := by
  have hal : Alike (afterData p d reg t) (afterData q d reg t) := hpq.afterData
  by_cases hok : t.last = .ok
  · by_cases h0 : (afterData p d reg t).func = 0
    · have h0' : (afterData q d reg t).func = 0 := (func_congr hal.ctrl).symm.trans h0
      unfold brought Phy.loadData
      rw [if_pos hok, if_pos hok, if_pos h0, if_pos h0', dev_congr hal.ctrl, hal.addr]
    · have hh : Hits t.last (afterData p d reg t) _ _ := ⟨by simp [hok], h0, rfl, rfl⟩
      rw [brought_of_hits hh hok, brought_of_hits (hal.hits.mp hh) hok, hm hok _ _ hh]
  · unfold brought
    rw [if_neg hok, if_neg hok]

end Ipq4019.Mdio.Chain
