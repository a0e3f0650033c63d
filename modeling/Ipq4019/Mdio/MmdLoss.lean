import Ipq4019.Mdio.Line

/-!
# MDIO: the MMD helpers when transactions time out

The helpers drop the return values of their four transactions.  If one of the first three is lost,
the next one meets a PHY that is still set up for the access before: an address may be stored as data,
and a read or a write may go to the register that was selected last.

* `mmd_safe_iff`: when a call keeps to its own register, for each choice of fates and each state of
  the PHY's function, device and address.
-/

namespace Ipq4019.Mdio.MmdLoss

open Ipq4019.Lib.Interleave Ipq4019.Lib.Interleave.Prog
open Ipq4019.Mdio.Driver Ipq4019.Mdio.Controller Ipq4019.Mdio.Call Ipq4019.Mdio.Bank
open Ipq4019.Mdio.Line

/-! ### MMD registers -/

/-- An MMD register of the bus. -/
structure MmdKey where
  phy : Fin 32
  dev : Fin 32
  reg : UInt16
  deriving DecidableEq

/-- The register that a call asks for. -/
def keyOf (phy devad : UInt8) (reg : UInt16) : MmdKey := ⟨low5 phy, low5 devad, reg⟩

/-- What all the MMD registers hold. -/
abbrev Contents := MmdKey → UInt16

def contents (b : Phys) : Contents := fun k => (b k.phy).mmd k.dev k.reg

/-- The PHYs with these contents, and functions, devices and addresses as they are. -/
def holding (b : Phys) (m : Contents) : Phys := fun i => { b i with mmd := fun d r => m ⟨i, d, r⟩ }

/-- The fates of the four transactions of a call. -/
structure Fates where
  ctrl : Fate
  addr : Fate
  data : Fate
  last : Fate

def Fates.list (t : Fates) : List Fate := [t.ctrl, t.addr, t.data, t.last]

/-- The results of a call, and the contents it leaves. -/
def readMmd (phy devad : UInt8) (reg : UInt16) (t : Fates) (b : Phys) : UInt16 × Contents :=
  let r := exec line (ipq4019PhyReadMmd phy devad reg) (b, t.list)
  (r.1, contents r.2.1)

def writeMmd (phy devad : UInt8) (reg val : UInt16) (t : Fates) (b : Phys) : Contents :=
  contents (exec line (ipq4019PhyWriteMmd phy devad reg val) (b, t.list)).2.1

/-- **A write keeps to its register**, whatever the registers hold. -/
def WriteSafe (phy devad : UInt8) (reg val : UInt16) (t : Fates) (b : Phys) : Prop :=
  ∀ m : Contents, ∀ k, k ≠ keyOf phy devad reg →
    writeMmd phy devad reg val t (holding b m) k = m k

/-- **A read changes nothing and returns what its register holds**, or 0 if its last transaction
failed, whatever the registers hold. -/
def ReadSafe (phy devad : UInt8) (reg : UInt16) (t : Fates) (b : Phys) : Prop :=
  ∀ m : Contents, (∀ k, (readMmd phy devad reg t (holding b m)).2 k = m k) ∧
    ((readMmd phy devad reg t (holding b m)).1 = m (keyOf phy devad reg) ∨
      t.last ≠ .ok ∧ (readMmd phy devad reg t (holding b m)).1 = 0)

/-! ### When they are -/

section Conditions
variable (p : Phy) (d : Fin 32) (reg : UInt16) (t : Fates)

/-- The first transaction is lost, and an earlier access left a data function. -/
def Leftover : Prop := t.ctrl = .lost ∧ p.func ≠ 0

instance : Decidable (Leftover p t) := by unfold Leftover; infer_instance

/-- The register that was selected last is the one asked for. -/
def Aimed : Prop := p.dev = d ∧ p.addr d = reg

/-- The device's address register comes to hold the address, or holds it anyway. -/
def Latched : Prop :=
  t.addr ≠ .lost ∧ (t.ctrl ≠ .lost ∨ p.func = 0 ∧ p.dev = d) ∨ p.addr d = reg

/-- **When a write keeps to its register.** -/
structure WriteCond : Prop where
  /-- What is stored under the earlier function goes to the right register. -/
  stray : Leftover p t → t.addr ≠ .lost ∨ t.data = .lost ∧ t.last ≠ .lost → Aimed p d reg
  latched : t.data ≠ .lost → t.last ≠ .lost → Latched p d reg t
  /-- The address that is stored as data moves no address on. -/
  still : Leftover p t → t.addr ≠ .lost → t.last ≠ .lost → p.func = 1

/-- **When a read keeps to its register.** -/
structure ReadCond : Prop where
  stray : Leftover p t → t.addr = .lost
  latched : t.last = .ok → t.data ≠ .lost → Latched p d reg t
  aimed : t.last = .ok → t.data = .lost → Leftover p t ∧ Aimed p d reg

end Conditions

/-! ### One PHY -/

variable {p : Phy} {d : UInt8} {reg val v : UInt16} {t : Fates}

/-- A transaction that is lost leaves the PHY as it was. -/
def fated (f : Fate) (p q : Phy) : Phy := if f = .lost then p else q

/-- The PHY before the second, the third, and the last transaction. -/
def afterCtrl (p : Phy) (d : UInt8) (t : Fates) : Phy :=
  fated t.ctrl p { p with ctrl := d.toUInt16 }

def afterAddr (p : Phy) (d : UInt8) (reg : UInt16) (t : Fates) : Phy :=
  fated t.addr (afterCtrl p d t) ((afterCtrl p d t).storeData reg)

def afterData (p : Phy) (d : UInt8) (reg : UInt16) (t : Fates) : Phy :=
  fated t.data (afterAddr p d reg t)
    { afterAddr p d reg t with ctrl := mmdCtrlData ||| d.toUInt16 }

theorem line_write (f : Fate) (fs : List Fate) (phy r : UInt8) (v : UInt16) (b : Phys) :
    (exec line (mdioWrite phy r v) (b, f :: fs)).2 = (Function.update b (low5 phy)
      (fated f (b (low5 phy)) ((b (low5 phy)).write (low5 r) v)), fs) := by
  change ((outcome f (.write phy r v) b).2, fs) = _
  unfold outcome fated
  cases f with
  | lost => simp
  | _ => simp [perform_write]

theorem line_read (f : Fate) (fs : List Fate) (phy r : UInt8) (v : UInt16) (b : Phys) :
    exec line (mdioRead phy r v) (b, f :: fs) =
      (((if f = .ok then (0, ((b (low5 phy)).read (low5 r)).1) else (-1, v)) : Int × UInt16),
        Function.update b (low5 phy) (fated f (b (low5 phy)) ((b (low5 phy)).read (low5 r)).2),
        fs) := by
  change ((outcome f (.read phy r v) b).1, (outcome f (.read phy r v) b).2, fs) = _
  unfold outcome fated
  cases f with
  | ok => simp [perform_read, succeeded_read]; rfl
  | late => simp [perform_read]; rfl
  | lost => simp; rfl

theorem line_writeMmd (phy devad : UInt8) (reg val : UInt16) (t : Fates) (b : Phys) :
    (exec line (ipq4019PhyWriteMmd phy devad reg val) (b, t.list)).2.1 =
      Function.update b (low5 phy) (fated t.last (afterData (b (low5 phy)) devad reg t)
        ((afterData (b (low5 phy)) devad reg t).storeData val)) := by
  unfold ipq4019PhyWriteMmd Fates.list
  simp only [exec_bind, line_write, Function.update_self, Function.update_idem, write_ctrl, write_data]
  rfl

theorem line_readMmd (phy devad : UInt8) (reg : UInt16) (t : Fates) (b : Phys) :
    exec line (ipq4019PhyReadMmd phy devad reg) (b, t.list) =
      (if t.last = .ok then (afterData (b (low5 phy)) devad reg t).loadData.1 else 0,
        Function.update b (low5 phy) (fated t.last (afterData (b (low5 phy)) devad reg t)
          (afterData (b (low5 phy)) devad reg t).loadData.2), []) := by
  unfold ipq4019PhyReadMmd Fates.list
  simp only [exec_bind, line_write, line_read, Function.update_self, Function.update_idem, write_ctrl,
    write_data, read_data]
  change ((if t.last = .ok then ((0 : Int), _) else (-1, 0)).2, _) = _
  rw [apply_ite Prod.snd]
  rfl

/-! ### What is stored -/

/-- A transaction with the fate `f` stores into the data register `r` of the device `e`. -/
def Hits (f : Fate) (p : Phy) (e : Fin 32) (r : UInt16) : Prop :=
  f ≠ .lost ∧ p.func ≠ 0 ∧ e = p.dev ∧ r = p.addr p.dev

instance (f : Fate) (p : Phy) (e : Fin 32) (r : UInt16) : Decidable (Hits f p e r) := by
  unfold Hits; infer_instance

theorem storeData_mmd (h : p.func ≠ 0) :
    (p.storeData v).mmd = (p.setMmd p.dev (p.addr p.dev) v).mmd := by
  unfold Phy.storeData
  rw [if_neg h]
  split
  · rfl
  · rfl

theorem fated_storeData (f : Fate) (p : Phy) (v : UInt16) (e : Fin 32) (r : UInt16) :
    (fated f p (p.storeData v)).mmd e r = if Hits f p e r then v else p.mmd e r := by
  unfold fated
  by_cases hf : f = .lost
  · rw [if_pos hf, if_neg fun h : Hits f p e r => h.1 hf]
  · rw [if_neg hf]
    by_cases h0 : p.func = 0
    · rw [storeData_address h0, if_neg fun h : Hits f p e r => h.2.1 h0]
    · rw [storeData_mmd h0]
      unfold Phy.setMmd
      by_cases h : Hits f p e r
      · obtain ⟨-, -, rfl, rfl⟩ := h
        simp [Hits, hf, h0]
      · rw [if_neg h]
        by_cases he : e = p.dev
        · subst he
          have hr : r ≠ p.addr p.dev := fun hr => h ⟨hf, h0, rfl, hr⟩
          simp [hr]
        · simp [he]

theorem fated_loadData (f : Fate) (p : Phy) : (fated f p p.loadData.2).mmd = p.mmd := by
  unfold fated Phy.loadData
  split
  · rfl
  · split
    · rfl
    · split
      · rfl
      · rfl

theorem afterAddr_mmd (e : Fin 32) (r : UInt16) : (afterAddr p d reg t).mmd e r =
    if Hits t.addr (afterCtrl p d t) e r then reg else p.mmd e r := by
  unfold afterAddr
  rw [fated_storeData]
  congr 1
  unfold afterCtrl fated
  split
  · rfl
  · rfl

theorem afterData_mmd : (afterData p d reg t).mmd = (afterAddr p d reg t).mmd := by
  unfold afterData fated
  split
  · rfl
  · rfl

/-! ### Where it is stored -/

theorem func_congr {q : Phy} (h : p.ctrl = q.ctrl) : p.func = q.func := by
  unfold Phy.func
  rw [h]

theorem dev_congr {q : Phy} (h : p.ctrl = q.ctrl) : p.dev = q.dev := by
  unfold Phy.dev
  simp only [h]

theorem storeData_ctrl : (p.storeData v).ctrl = p.ctrl := by
  unfold Phy.storeData
  split
  · rfl
  · dsimp only
    split
    · rfl
    · rfl

theorem afterCtrl_of_lost (h : t.ctrl = .lost) : afterCtrl p d t = p := if_pos h

theorem func_afterCtrl (h : t.ctrl ≠ .lost) : (afterCtrl p d t).func = 0 := by
  unfold afterCtrl fated
  rw [if_neg h]
  exact func_address

theorem dev_afterCtrl (h : t.ctrl ≠ .lost) : (afterCtrl p d t).dev = low5 d := by
  unfold afterCtrl fated
  rw [if_neg h]
  exact dev_address

theorem addr_afterCtrl : (afterCtrl p d t).addr = p.addr := by
  unfold afterCtrl fated
  split
  · rfl
  · rfl

theorem afterAddr_ctrl : (afterAddr p d reg t).ctrl = (afterCtrl p d t).ctrl := by
  unfold afterAddr fated
  split
  · rfl
  · exact storeData_ctrl

theorem hits_addr {e : Fin 32} {r : UInt16} : Hits t.addr (afterCtrl p d t) e r ↔
    t.addr ≠ .lost ∧ Leftover p t ∧ e = p.dev ∧ r = p.addr p.dev := by
  unfold Hits Leftover
  by_cases h : t.ctrl = .lost
  · simp [h, afterCtrl_of_lost]
  · simp [h, func_afterCtrl]

theorem storeData_addr (e : Fin 32) : (p.storeData v).addr e =
    if e = p.dev then (if p.func = 0 then v else if p.func = 1 then p.addr e else p.addr e + 1)
    else p.addr e := by
  by_cases h0 : p.func = 0
  · rw [storeData_address h0]
    simp [h0, Function.update_apply]
  · by_cases h1 : p.func = 1
    · rw [storeData_data h1]
      simp [h1, Phy.setMmd]
    · unfold Phy.storeData
      by_cases he : e = p.dev
      · subst he
        simp [h0, h1, Phy.setMmd, Phy.bump, Phy.dev]
      · simp only [h0, h1, he, if_false]
        exact Function.update_of_ne he _ _

/-- What a device's address register holds when the data function is selected, or should be. -/
theorem addr_afterAddr (e : Fin 32) : (afterAddr p d reg t).addr e =
    if t.addr = .lost then p.addr e
    else if Leftover p t then (if p.func = 1 ∨ e ≠ p.dev then p.addr e else p.addr e + 1)
    else if e = (if t.ctrl = .lost then p.dev else low5 d) then reg else p.addr e := by
  unfold afterAddr fated
  by_cases ha : t.addr = .lost
  · rw [if_pos ha, if_pos ha, addr_afterCtrl]
  · rw [if_neg ha, if_neg ha, storeData_addr, addr_afterCtrl]
    unfold Leftover
    by_cases hc : t.ctrl = .lost
    · by_cases h0 : p.func = 0
      · simp [hc, h0, afterCtrl_of_lost]
      · by_cases he : e = p.dev
        · by_cases h1 : p.func = 1
          · simp [hc, h1, he, afterCtrl_of_lost]
          · simp [hc, h0, h1, he, afterCtrl_of_lost]
        · simp [hc, h0, he, afterCtrl_of_lost]
    · simp [hc, func_afterCtrl, dev_afterCtrl]

theorem hits_last {e : Fin 32} {r : UInt16} : Hits t.last (afterData p d reg t) e r ↔
    t.last ≠ .lost ∧
      (t.data ≠ .lost ∧ e = low5 d ∧ r = (afterAddr p d reg t).addr (low5 d) ∨
        t.data = .lost ∧ Leftover p t ∧ e = p.dev ∧ r = (afterAddr p d reg t).addr p.dev) := by
  unfold Hits
  by_cases hd : t.data = .lost
  · have h : afterData p d reg t = afterAddr p d reg t := if_pos hd
    rw [h, func_congr afterAddr_ctrl, dev_congr afterAddr_ctrl]
    unfold Leftover
    by_cases hc : t.ctrl = .lost
    · simp [hd, hc, afterCtrl_of_lost]
    · simp [hd, hc, func_afterCtrl]
  · have h : afterData p d reg t =
        { afterAddr p d reg t with ctrl := mmdCtrlData ||| d.toUInt16 } := if_neg hd
    rw [h, func_data, dev_data]
    simp [hd]

/-- What is stored where does not depend on the contents. -/
theorem hits_addr_holding {b : Phys} {m : Contents} {i e : Fin 32} {r : UInt16} :
    Hits t.addr (afterCtrl (holding b m i) d t) e r ↔ Hits t.addr (afterCtrl (b i) d t) e r := by
  rw [hits_addr, hits_addr]
  rfl

theorem afterAddr_holding {b : Phys} {m : Contents} {i : Fin 32} :
    (afterAddr (holding b m i) d reg t).addr = (afterAddr (b i) d reg t).addr := by
  funext e
  rw [addr_afterAddr, addr_afterAddr]
  rfl

theorem afterData_holding {b : Phys} {m : Contents} {i : Fin 32} :
    (afterData (holding b m i) d reg t).ctrl = (afterData (b i) d reg t).ctrl ∧
      (afterData (holding b m i) d reg t).addr = (afterData (b i) d reg t).addr := by
  have hctrl : (afterAddr (holding b m i) d reg t).ctrl = (afterAddr (b i) d reg t).ctrl := by
    rw [afterAddr_ctrl, afterAddr_ctrl]
    unfold afterCtrl fated
    split
    · rfl
    · rfl
  unfold afterData fated
  split
  · exact ⟨hctrl, afterAddr_holding⟩
  · exact ⟨rfl, afterAddr_holding⟩

theorem hits_last_holding {b : Phys} {m : Contents} {i e : Fin 32} {r : UInt16} :
    Hits t.last (afterData (holding b m i) d reg t) e r ↔
      Hits t.last (afterData (b i) d reg t) e r := by
  obtain ⟨hc, ha⟩ := @afterData_holding d reg t b m i
  unfold Hits
  rw [func_congr hc, dev_congr hc, ha]

/-! ### The calls -/

variable {phy devad : UInt8} {b : Phys}

/-- The contents after a write. -/
theorem writeMmd_eq (m : Contents) (k : MmdKey) : writeMmd phy devad reg val t (holding b m) k =
    if k.phy = low5 phy then
      if Hits t.last (afterData (b (low5 phy)) devad reg t) k.dev k.reg then val
      else if Hits t.addr (afterCtrl (b (low5 phy)) devad t) k.dev k.reg then reg else m k
    else m k := by
  unfold writeMmd contents
  rw [line_writeMmd]
  by_cases hp : k.phy = low5 phy
  · rw [if_pos hp, hp, Function.update_self, fated_storeData, afterData_mmd, afterAddr_mmd]
    simp only [hits_addr_holding, hits_last_holding]
    rw [← hp]
    rfl
  · rw [if_neg hp, Function.update_of_ne hp]
    rfl

/-- The contents after a read. -/
theorem readMmd_contents (m : Contents) (k : MmdKey) :
    (readMmd phy devad reg t (holding b m)).2 k =
      if k.phy = low5 phy ∧ Hits t.addr (afterCtrl (b (low5 phy)) devad t) k.dev k.reg then reg
      else m k := by
  unfold readMmd contents
  rw [line_readMmd]
  by_cases hp : k.phy = low5 phy
  · simp only [hp, true_and, Function.update_self]
    rw [fated_loadData, afterData_mmd, afterAddr_mmd]
    simp only [hits_addr_holding]
    rw [← hp]
    rfl
  · simp only [hp, false_and, if_false]
    rw [Function.update_of_ne hp]
    rfl

/-- Everything that is stored goes to one register. -/
def Keeps (f : Fate) (p : Phy) (d : Fin 32) (reg : UInt16) : Prop :=
  ∀ e r, Hits f p e r → e = d ∧ r = reg

theorem exists_ne_ne (x y : UInt16) : ∃ c, c ≠ x ∧ c ≠ y := by
  by_contra h
  push Not at h
  have h0 : (0 : UInt16) ≠ 1 := by decide
  have h1 : (0 : UInt16) ≠ 2 := by decide
  have h2 : (1 : UInt16) ≠ 2 := by decide
  by_cases h0x : (0 : UInt16) = x
  · have h1y := h 1 fun h' => h0 (h0x.trans h'.symm)
    have h2y := h 2 fun h' => h1 (h0x.trans h'.symm)
    exact h2 (h1y.trans h2y.symm)
  · have h0y := h 0 h0x
    by_cases h1x : (1 : UInt16) = x
    · have h2y := h 2 fun h' => h2 (h1x.trans h'.symm)
      exact h1 (h0y.trans h2y.symm)
    · exact h0 (h0y.trans (h 1 h1x).symm)

/-- A write keeps to its register if everything it stores goes there. -/
theorem writeSafe_iff_keeps : WriteSafe phy devad reg val t b ↔
    Keeps t.addr (afterCtrl (b (low5 phy)) devad t) (low5 devad) reg ∧
      Keeps t.last (afterData (b (low5 phy)) devad reg t) (low5 devad) reg := by
  constructor
  · intro h
    obtain ⟨c, hr, hv⟩ := exists_ne_ne reg val
    have hkey : ∀ e r, (Hits t.last (afterData (b (low5 phy)) devad reg t) e r ∨
        Hits t.addr (afterCtrl (b (low5 phy)) devad t) e r) → e = low5 devad ∧ r = reg := by
      intro e r hh
      by_contra hne
      have hk : (⟨low5 phy, e, r⟩ : MmdKey) ≠ keyOf phy devad reg := by
        intro he
        injection he with _ he hr
        exact hne ⟨he, hr⟩
      have heq := h (fun _ => c) _ hk
      rw [writeMmd_eq, if_pos rfl] at heq
      split at heq
      · exact hv heq.symm
      · rcases hh with hh | hh
        · contradiction
        · rw [if_pos hh] at heq
          exact hr heq.symm
    exact ⟨fun e r hh => hkey e r (Or.inr hh), fun e r hh => hkey e r (Or.inl hh)⟩
  · rintro ⟨haddr, hlast⟩ m k hk
    rw [writeMmd_eq]
    split
    · rename_i hp
      have hne : ¬(k.dev = low5 devad ∧ k.reg = reg) := by
        rintro ⟨hd, hr⟩
        refine hk ?_
        cases k
        subst hp hd hr
        rfl
      rw [if_neg fun hh => hne (hlast _ _ hh), if_neg fun hh => hne (haddr _ _ hh)]
    · rfl

/-- What a read returns whose last transaction is done. -/
theorem readMmd_value (m : Contents) (hok : t.last = .ok)
    (hno : ∀ e r, ¬Hits t.addr (afterCtrl (b (low5 phy)) devad t) e r) {q : Phy}
    (hq : afterData (b (low5 phy)) devad reg t = q) :
    (readMmd phy devad reg t (holding b m)).1 =
      if q.func = 0 then q.addr q.dev else m ⟨low5 phy, q.dev, q.addr q.dev⟩ := by
  subst hq
  obtain ⟨hc, ha⟩ := @afterData_holding devad reg t b m (low5 phy)
  unfold readMmd
  rw [line_readMmd]
  simp only [if_pos hok]
  unfold Phy.loadData
  rw [func_congr hc, dev_congr hc, ha, afterData_mmd, apply_ite Prod.fst]
  dsimp only
  rw [afterAddr_mmd, if_neg fun hh => hno _ _ (hits_addr_holding.mp hh)]
  rfl

/-- A read is safe if it stores nothing and, where its last transaction is done, finds its register
selected. -/
theorem readSafe_iff_keeps : ReadSafe phy devad reg t b ↔
    (∀ e r, ¬Hits t.addr (afterCtrl (b (low5 phy)) devad t) e r) ∧
      (t.last = .ok → Hits t.last (afterData (b (low5 phy)) devad reg t) (low5 devad) reg) := by
  constructor
  · intro h
    have hno : ∀ e r, ¬Hits t.addr (afterCtrl (b (low5 phy)) devad t) e r := by
      intro e r hh
      obtain ⟨c, hr, -⟩ := exists_ne_ne reg reg
      have heq := (h fun _ => c).1 ⟨low5 phy, e, r⟩
      rw [readMmd_contents, if_pos ⟨rfl, hh⟩] at heq
      exact hr heq.symm
    refine ⟨hno, fun hok => ?_⟩
    generalize hq : afterData (b (low5 phy)) devad reg t = q
    have hval : ∀ m : Contents, (if q.func = 0 then q.addr q.dev
        else m ⟨low5 phy, q.dev, q.addr q.dev⟩) = m (keyOf phy devad reg) := by
      intro m
      rw [← readMmd_value m hok hno hq]
      exact (h m).2.resolve_right fun hl => hl.1 hok
    have h0 : q.func ≠ 0 := by
      intro h0
      obtain ⟨c, hc, -⟩ := exists_ne_ne (q.addr q.dev) 0
      have heq := hval fun _ => c
      rw [if_pos h0] at heq
      exact hc heq.symm
    have hkey : (⟨low5 phy, q.dev, q.addr q.dev⟩ : MmdKey) = keyOf phy devad reg := by
      by_contra hne
      have heq := hval fun k => if k = keyOf phy devad reg then 1 else 0
      rw [if_neg h0, if_neg hne, if_pos rfl] at heq
      exact absurd heq (by decide)
    injection hkey with _ hd hr
    rw [hok]
    exact ⟨by decide, h0, hd.symm, hr.symm⟩
  · rintro ⟨hno, hlast⟩ m
    refine ⟨fun k => ?_, ?_⟩
    · rw [readMmd_contents, if_neg fun hh => hno _ _ hh.2]
    · by_cases hok : t.last = .ok
      · left
        obtain ⟨-, h0, hd, hr⟩ := hlast hok
        rw [readMmd_value m hok hno rfl, if_neg h0, ← hr, ← hd]
        rfl
      · right
        refine ⟨hok, ?_⟩
        unfold readMmd
        rw [line_readMmd]
        exact if_neg hok

/-! ### The conditions -/

theorem keeps_addr : Keeps t.addr (afterCtrl p d t) (low5 d) reg ↔
    (t.addr ≠ .lost → Leftover p t → Aimed p (low5 d) reg) := by
  unfold Keeps
  simp only [hits_addr]
  constructor
  · intro h ha hl
    obtain ⟨hd, hr⟩ := h _ _ ⟨ha, hl, rfl, rfl⟩
    rw [hd] at hr
    exact ⟨hd, hr⟩
  · rintro h e r ⟨ha, hl, rfl, rfl⟩
    obtain ⟨hd, hr⟩ := h ha hl
    rw [hd]
    exact ⟨rfl, hr⟩

theorem keeps_last : Keeps t.last (afterData p d reg t) (low5 d) reg ↔ (t.last ≠ .lost →
    (t.data ≠ .lost → (afterAddr p d reg t).addr (low5 d) = reg) ∧ (t.data = .lost →
      Leftover p t → p.dev = low5 d ∧ (afterAddr p d reg t).addr p.dev = reg)) := by
  unfold Keeps
  simp only [hits_last]
  constructor
  · intro h hl
    refine ⟨fun hd => ?_, fun hd hleft => ?_⟩
    · exact (h _ _ ⟨hl, Or.inl ⟨hd, rfl, rfl⟩⟩).2
    · exact h _ _ ⟨hl, Or.inr ⟨hd, hleft, rfl, rfl⟩⟩
  · rintro h e r ⟨hl, ⟨hd, rfl, rfl⟩ | ⟨hd, hleft, rfl, rfl⟩⟩
    · exact ⟨rfl, (h hl).1 hd⟩
    · exact (h hl).2 hd hleft

/-- The device's address register holds the address. -/
theorem addr_eq_iff (h : t.addr ≠ .lost → Leftover p t → Aimed p (low5 d) reg) :
    (afterAddr p d reg t).addr (low5 d) = reg ↔
      Latched p (low5 d) reg t ∧ (Leftover p t → t.addr ≠ .lost → p.func = 1) := by
  rw [addr_afterAddr]
  unfold Latched
  by_cases ha : t.addr = .lost
  · simp [ha]
  · by_cases hl : Leftover p t
    · obtain ⟨hd, hr⟩ := h ha hl
      simp [ha, hl, hd, hr]
    · by_cases hc : t.ctrl = .lost
      · have h0 : p.func = 0 := by
          by_contra h0
          exact hl ⟨hc, h0⟩
        by_cases hd : low5 d = p.dev
        · simp [ha, hl, hc, h0, hd]
        · have hd' : p.dev ≠ low5 d := fun h => hd h.symm
          simp [ha, hl, hc, hd, hd']
      · simp [ha, hl, hc]

/-- The register that was selected last is the one asked for, and still is. -/
theorem aimed_iff (h : t.addr ≠ .lost → Leftover p t → Aimed p (low5 d) reg) (hl : Leftover p t) :
    (p.dev = low5 d ∧ (afterAddr p d reg t).addr p.dev = reg) ↔
      Aimed p (low5 d) reg ∧ (t.addr ≠ .lost → p.func = 1) := by
  rw [addr_afterAddr]
  unfold Aimed
  by_cases ha : t.addr = .lost
  · constructor
    · rintro ⟨hd, hr⟩
      rw [if_pos ha, hd] at hr
      exact ⟨⟨hd, hr⟩, fun hn => absurd ha hn⟩
    · rintro ⟨⟨hd, hr⟩, -⟩
      rw [if_pos ha, hd]
      exact ⟨rfl, hr⟩
  · obtain ⟨hd, hr⟩ := h ha hl
    simp [ha, hl, hd, hr]

theorem writeCond_iff : WriteCond p (low5 d) reg t ↔
    Keeps t.addr (afterCtrl p d t) (low5 d) reg ∧
      Keeps t.last (afterData p d reg t) (low5 d) reg := by
  rw [keeps_addr, keeps_last]
  constructor
  · intro h
    have haddr : t.addr ≠ .lost → Leftover p t → Aimed p (low5 d) reg := fun ha hl =>
      h.stray hl (Or.inl ha)
    refine ⟨haddr, fun hlast => ⟨fun hd => ?_, fun hd hl => ?_⟩⟩
    · exact (addr_eq_iff haddr).mpr ⟨h.latched hd hlast, fun hl ha => h.still hl ha hlast⟩
    · exact (aimed_iff haddr hl).mpr ⟨h.stray hl (Or.inr ⟨hd, hlast⟩), fun ha => h.still hl ha hlast⟩
  · rintro ⟨haddr, hlast⟩
    refine ⟨fun hl hor => ?_, fun hd hn => ?_, fun hl ha hn => ?_⟩
    · rcases hor with ha | ⟨hd, hn⟩
      · exact haddr ha hl
      · exact ((aimed_iff haddr hl).mp ((hlast hn).2 hd hl)).1
    · exact ((addr_eq_iff haddr).mp ((hlast hn).1 hd)).1
    · by_cases hd : t.data = .lost
      · exact ((aimed_iff haddr hl).mp ((hlast hn).2 hd hl)).2 ha
      · exact ((addr_eq_iff haddr).mp ((hlast hn).1 hd)).2 hl ha

theorem readCond_iff : ReadCond p (low5 d) reg t ↔
    (∀ e r, ¬Hits t.addr (afterCtrl p d t) e r) ∧
      (t.last = .ok → Hits t.last (afterData p d reg t) (low5 d) reg) := by
  have hno : (∀ e r, ¬Hits t.addr (afterCtrl p d t) e r) ↔ (Leftover p t → t.addr = .lost) := by
    simp only [hits_addr]
    constructor
    · intro h hl
      by_contra ha
      exact h _ _ ⟨ha, hl, rfl, rfl⟩
    · rintro h e r ⟨ha, hl, -, -⟩
      exact ha (h hl)
  rw [hno, hits_last]
  constructor
  · intro h
    have haddr : t.addr ≠ .lost → Leftover p t → Aimed p (low5 d) reg := fun ha hl =>
      absurd (h.stray hl) ha
    refine ⟨h.stray, fun hok => ⟨by simp [hok], ?_⟩⟩
    by_cases hd : t.data = .lost
    · obtain ⟨hl, haim⟩ := h.aimed hok hd
      obtain ⟨he, hr⟩ := (aimed_iff haddr hl).mpr ⟨haim, fun ha => absurd (h.stray hl) ha⟩
      exact Or.inr ⟨hd, hl, he.symm, hr.symm⟩
    · have hr := (addr_eq_iff haddr).mpr ⟨h.latched hok hd, fun hl ha => absurd (h.stray hl) ha⟩
      exact Or.inl ⟨hd, rfl, hr.symm⟩
  · rintro ⟨hstray, hlast⟩
    have haddr : t.addr ≠ .lost → Leftover p t → Aimed p (low5 d) reg := fun ha hl =>
      absurd (hstray hl) ha
    refine ⟨hstray, fun hok hd => ?_, fun hok hd => ?_⟩
    · rcases (hlast hok).2 with ⟨-, -, hr⟩ | ⟨hd', -⟩
      · exact ((addr_eq_iff haddr).mp hr.symm).1
      · exact absurd hd' hd
    · rcases (hlast hok).2 with ⟨hd', -⟩ | ⟨-, hl, he, hr⟩
      · exact absurd hd hd'
      · exact ⟨hl, ((aimed_iff haddr hl).mp ⟨he.symm, hr.symm⟩).1⟩

/-- **When the MMD helpers keep to their register**, whatever becomes of their transactions and
whatever earlier accesses left. -/
theorem mmd_safe_iff (phy devad : UInt8) (reg val : UInt16) (t : Fates) (b : Phys) :
    (WriteSafe phy devad reg val t b ↔ WriteCond (b (low5 phy)) (low5 devad) reg t) ∧
      (ReadSafe phy devad reg t b ↔ ReadCond (b (low5 phy)) (low5 devad) reg t) :=
  ⟨writeSafe_iff_keeps.trans writeCond_iff.symm, readSafe_iff_keeps.trans readCond_iff.symm⟩

/-- The PHYs after an access to the register 0x1234 of the device 3. -/
def afterAccess : Phys := fun _ => ⟨0x4003, fun _ => 0x1234, fun _ _ => 0, fun _ => 0⟩

/-- Only the first transaction of a write to 0x8029 of the device 7 is lost, and the address lands in
the register 0x1234 of the device 3. -/
theorem mmd_loss_strays :
    writeMmd 4 7 0x8029 1 ⟨.lost, .ok, .ok, .ok⟩ afterAccess ⟨4, 3, 0x1234⟩ = 0x8029 ∧
      contents afterAccess ⟨4, 3, 0x1234⟩ = 0 ∧
      ¬WriteSafe 4 7 0x8029 1 ⟨.lost, .ok, .ok, .ok⟩ afterAccess := by
  have hw : writeMmd 4 7 0x8029 1 ⟨.lost, .ok, .ok, .ok⟩ afterAccess ⟨4, 3, 0x1234⟩ = 0x8029 := by
    decide
  refine ⟨hw, rfl, fun h => ?_⟩
  have heq := h (fun _ => 0) ⟨4, 3, 0x1234⟩ (by decide)
  exact absurd (hw.symm.trans heq) (by decide)

/-! ### On the wire -/

/-- The first four fates of a list. -/
def Fates.of (fs : List Fate) : Fates :=
  ⟨fs.headD .ok, fs.tail.headD .ok, fs.tail.tail.headD .ok, fs.tail.tail.tail.headD .ok⟩

/-- Every run of a write on the wire is one of these. -/
theorem wire_writeMmd {s s' : Ctl Phys} {l : List (MdioOp × Ctl Phys)}
    (hr : Run (mdio onPhys) s (onWire (ipq4019PhyWriteMmd phy devad reg val)) l s' (.ret ())) :
    ∃ t, contents (settled s') = writeMmd phy devad reg val t (settled s) := by
  obtain ⟨fs, hfs⟩ := wire_run hr
  refine ⟨Fates.of fs, ?_⟩
  have h : (exec line (ipq4019PhyWriteMmd phy devad reg val) (settled s, fs)).2.1 =
      (exec line (ipq4019PhyWriteMmd phy devad reg val) (settled s, (Fates.of fs).list)).2.1 := rfl
  rw [hfs] at h
  exact congrArg contents h

/-- And every run of a read. -/
theorem wire_readMmd {s s' : Ctl Phys} {l : List (MdioOp × Ctl Phys)} {v : UInt16}
    (hr : Run (mdio onPhys) s (onWire (ipq4019PhyReadMmd phy devad reg)) l s' (.ret v)) :
    ∃ t, (v, contents (settled s')) = readMmd phy devad reg t (settled s) := by
  obtain ⟨fs, hfs⟩ := wire_run hr
  refine ⟨Fates.of fs, ?_⟩
  have h : ∀ r, exec line (ipq4019PhyReadMmd phy devad reg) (settled s, fs) = r →
      (r.1, contents r.2.1) = readMmd phy devad reg (Fates.of fs) (settled s) := by
    rintro _ rfl
    rfl
  exact h _ hfs

end Ipq4019.Mdio.MmdLoss
