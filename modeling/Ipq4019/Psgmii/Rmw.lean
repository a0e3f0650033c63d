import Ipq4019.Mdio.Chain
import Ipq4019.Psgmii.Driver

/-!
# PSGMII self-test: read-modify-write when transactions time out

`psgmii_st_phy_power_down`, `_prepare`, `_recover` and `_start_traffic` read a register, change some
of its bits and write it back, without a look at the result of the read.  After a failed read the
word that goes back is made of what the variable held before: 0, or the value of another register.

* `rmw_survives_iff`: when a call leaves each of the four registers as it was, but for the bits it is
  about, for each choice of fates and each state of the PHY's function, device and addresses.
-/

namespace Ipq4019.Psgmii.Rmw

open Ipq4019.Lib.Interleave Ipq4019.Lib.Interleave.Prog
open Ipq4019.Mdio.Driver Ipq4019.Mdio.Controller Ipq4019.Mdio.Bank Ipq4019.Mdio.Line
open Ipq4019.Mdio.MmdLoss Ipq4019.Mdio.Chain Ipq4019.Psgmii.Driver

/-! ### The registers and the calls -/

/-- The registers that the functions read, modify and write. -/
inductive RmwReg
  | bmcr | chipConfiguration | functionControl | crcPacketCounter

def RmwReg.get (p : Phy) : RmwReg → UInt16
  | .bmcr => p.reg (low5 miiBmcr)
  | .chipConfiguration => p.reg (low5 qca807xChipConfiguration)
  | .functionControl => p.reg (low5 qca807xFunctionControl)
  | .crcPacketCounter => p.mmd (low5 mdioMmdAn) qca807xMmd7CrcPacketCounter

/-- The functions. -/
inductive RmwCall
  | powerDown | prepare | recover | startTraffic

def RmwCall.prog (phy : UInt8) : RmwCall → Bus Unit
  | .powerDown => psgmiiStPhyPowerDown phy
  | .prepare => psgmiiStPhyPrepare phy
  | .recover => psgmiiStPhyRecover phy
  | .startTraffic => psgmiiStPhyStartTraffic phy

/-- What they mean to do to a register. -/
def down (v : UInt16) : UInt16 := v ||| qca807xPowerDown
def mediaPage (v : UInt16) : UInt16 := v ||| qca807xMediaPageSelect
def manualMdi (v : UInt16) : UInt16 := v &&& ~~~qca807xMdiCrossoverModeMask &&& ~~~qca807xPolarityReversal
def counterOff (v : UInt16) : UInt16 :=
  v &&& ~~~qca807xMmd7PacketCounterSelfclr &&& ~~~qca807xMmd7CrcPacketCounterEn
def counterOn (v : UInt16) : UInt16 := v ||| qca807xMmd7CrcPacketCounterEn

/-- What a function means to make of a register that holds `v`. -/
def RmwCall.meant : RmwCall → RmwReg → UInt16 → UInt16
  | .powerDown, .bmcr, v => down v
  | .prepare, .bmcr, v => down v
  | .prepare, .chipConfiguration, v => mediaPage v
  | .prepare, .functionControl, v => manualMdi v
  | .recover, .crcPacketCounter, v => counterOff v
  | .startTraffic, .crcPacketCounter, v => counterOn v
  | _, _, v => v

/-- A PHY with these contents, and function, device and addresses as they are. -/
def filled (p : Phy) (reg : Fin 32 → UInt16) (mmd : Fin 32 → UInt16 → UInt16) : Phy :=
  { p with reg := reg, mmd := mmd }

/-- A register is as it was, or altered as it should be. -/
def Kept (alter : UInt16 → UInt16) (v v' : UInt16) : Prop := v' = v ∨ v' = alter v

instance (alter : UInt16 → UInt16) (v v' : UInt16) : Decidable (Kept alter v v') := by
  unfold Kept; infer_instance

/-- **Each register survives the call**, whatever the registers hold.  The chip configuration is as
it is: it decides how many transactions the call makes. -/
def Survives (c : RmwCall) (phy : UInt8) (fs : List Fate) (b : Phys) : Prop :=
  ∀ reg mmd, reg (low5 qca807xChipConfiguration) =
      (b (low5 phy)).reg (low5 qca807xChipConfiguration) →
    let p := filled (b (low5 phy)) reg mmd
    let b' := (exec line (c.prog phy) (Function.update b (low5 phy) p, fs)).2.1
    ∀ r : RmwReg, Kept (c.meant r) (r.get p) (r.get (b' (low5 phy)))

/-! ### When they do -/

/-- A transaction with the fate `f` stores into the packet counter's control register. -/
abbrev OnCounter (f : Fate) (p : Phy) : Prop :=
  Hits f p (low5 mdioMmdAn) qca807xMmd7CrcPacketCounter

/-- No transaction of an access to another register does. -/
def Clear (p : Phy) (reg : UInt16) (t : Fates) : Prop :=
  ¬OnCounter t.addr (afterCtrl p mdioMmdAn t) ∧ ¬OnCounter t.last (afterData p mdioMmdAn reg t)

/-- The read succeeds, or nothing is written back. -/
def ReadOrLost (f₀ f₁ : Fate) : Prop := f₀ = .ok ∨ f₁ = .lost

/-- What a read may bring, according to the registers' contents. -/
def MayBring (p : Phy) (reg : UInt16) (t : Fates) (v : UInt16) : Prop :=
  let q := afterData p mdioMmdAn reg t
  if t.last ≠ .ok then v = 0
  else if q.func = 0 then v = q.addr q.dev
  else Hits t.addr (afterCtrl p mdioMmdAn t) q.dev (q.addr q.dev) → v = reg

/-- **When the packet counter's control register survives** a read, the write of the altered value,
and a write of another register. -/
structure UpdateCond (alter : UInt16 → UInt16) (p : Phy) (reg : UInt16) (t₀ t₁ t₂ : Fates) :
    Prop where
  /-- The read stores no address there. -/
  read : ¬OnCounter t₀.addr (afterCtrl p mdioMmdAn t₀)
  /-- If a word is written back, it was read there. -/
  back : OnCounter t₁.last (afterData (loaded p mdioMmdAn qca807xMmd7CrcPacketCounter t₀) mdioMmdAn
      qca807xMmd7CrcPacketCounter t₁) →
    t₀.last = .ok ∧ OnCounter t₀.last (afterData p mdioMmdAn qca807xMmd7CrcPacketCounter t₀)
  /-- If none is, no address is left there either. -/
  stray : ¬OnCounter t₁.last (afterData (loaded p mdioMmdAn qca807xMmd7CrcPacketCounter t₀) mdioMmdAn
      qca807xMmd7CrcPacketCounter t₁) →
    ¬OnCounter t₁.addr (afterCtrl (loaded p mdioMmdAn qca807xMmd7CrcPacketCounter t₀) mdioMmdAn t₁)
  /-- The last access stays away, whatever word was to be written back. -/
  after : ∀ v, MayBring p qca807xMmd7CrcPacketCounter t₀ v →
    Clear (stored (loaded p mdioMmdAn qca807xMmd7CrcPacketCounter t₀) mdioMmdAn
      qca807xMmd7CrcPacketCounter (alter v) t₁) reg t₂

/-- The fates after the chip configuration is done with. -/
def afterChip (p : Phy) (fs : List Fate) : List Fate :=
  if fate fs 0 = .ok ∧ p.reg (low5 qca807xChipConfiguration) ≠ 0 then fs.drop 2 else fs.drop 1

/-- When the registers survive `psgmii_st_phy_prepare`, from the fates after the chip configuration
is done with. -/
structure PrepareCond (p : Phy) (fs : List Fate) : Prop where
  bmcr : ReadOrLost (fate fs 0) (fate fs 1)
  count : Clear p 0x8021 (Fates.of (fs.drop 2))
  size : Clear (stored p mdioMmdAn 0x8021 (UInt16.ofNat psgmiiStPktCount) (Fates.of (fs.drop 2)))
    0x8062 (Fates.of (fs.drop 6))
  control : ReadOrLost (fate fs 10) (fate fs 11)

/-- **When the registers survive a call.** -/
def SurvivesWhen (p : Phy) (fs : List Fate) : RmwCall → Prop
  | .powerDown => ReadOrLost (fate fs 0) (fate fs 1)
  | .prepare => PrepareCond p (afterChip p fs)
  | .recover => Clear p 0x8021 (Fates.of fs) ∧
      UpdateCond counterOff (stored p mdioMmdAn 0x8021 0x0 (Fates.of fs)) 0x8020
        (Fates.of (fs.drop 4)) (Fates.of (fs.drop 8)) (Fates.of (fs.drop 12))
  | .startTraffic => UpdateCond counterOn p 0x8020 (Fates.of fs) (Fates.of (fs.drop 4))
      (Fates.of (fs.drop 8))

/-! ### What the calls leave -/

variable {phy : UInt8} {p : Phy} {b : Phys} {fs : List Fate} {f f₀ f₁ : Fate} {r : Fin 32}
  {old v : UInt16} {alter : UInt16 → UInt16}

/-- A PHY after one of its registers is read, modified and written; `old` is what the variable holds
if the read fails. -/
def modified (p : Phy) (r : Fin 32) (alter : UInt16 → UInt16) (old : UInt16) (f₀ f₁ : Fate) : Phy :=
  fated f₁ p { p with reg := Function.update p.reg r (alter (if f₀ = .ok then p.reg r else old)) }

/-- A register without a part in the indirect access. -/
def Plain (r : Fin 32) : Prop := r ≠ 0x0d ∧ r ≠ 0x0e

instance : Decidable (Plain r) := by unfold Plain; infer_instance

theorem Plain.read (h : Plain r) : p.read r = (p.reg r, p) := by
  unfold Phy.read
  rw [if_neg h.1, if_neg h.2]

theorem Plain.write (h : Plain r) : p.write r v = { p with reg := Function.update p.reg r v } := by
  unfold Phy.write
  rw [if_neg h.1, if_neg h.2]

theorem exec_readPlain {q : UInt8} (hq : Plain (low5 q)) :
    exec line (mdioRead phy q v) (b, fs) =
      (((if fate fs 0 = .ok then (0, (b (low5 phy)).reg (low5 q)) else (-1, v)) : Int × UInt16),
        b, fs.drop 1) := by
  have hself : fated (fate fs 0) (b (low5 phy)) (b (low5 phy)) = b (low5 phy) := ite_self _
  rw [exec_read, hq.read, hself, Function.update_eq_self]

theorem exec_writePlain {q : UInt8} (hq : Plain (low5 q)) :
    (exec line (mdioWrite phy q v) (b, fs)).2 = (Function.update b (low5 phy)
      (fated (fate fs 0) (b (low5 phy)) { b (low5 phy) with
        reg := Function.update (b (low5 phy)).reg (low5 q) v }), fs.drop 1) := by
  rw [exec_write, hq.write]

theorem plain_bmcr : Plain (low5 miiBmcr) := by decide
theorem plain_chip : Plain (low5 qca807xChipConfiguration) := by decide
theorem plain_control : Plain (low5 qca807xFunctionControl) := by decide

theorem exec_powerDown : (exec line (psgmiiStPhyPowerDown phy) (b, fs)).2 =
    (Function.update b (low5 phy) (modified (b (low5 phy)) (low5 miiBmcr) down 0 (fate fs 0)
      (fate fs 1)), fs.drop 2) := by
  unfold psgmiiStPhyPowerDown
  simp only [exec_bind, exec_readPlain plain_bmcr, exec_writePlain plain_bmcr, List.drop_drop]
  rw [apply_ite Prod.snd]
  rfl

/-- A PHY after the rest of `psgmii_st_phy_prepare`. -/
def prepared (p : Phy) (val : UInt16) (fs : List Fate) : Phy :=
  modified (stored (stored (modified p (low5 miiBmcr) down 0 (fate fs 0) (fate fs 1)) mdioMmdAn 0x8021
    (UInt16.ofNat psgmiiStPktCount) (Fates.of (fs.drop 2))) mdioMmdAn 0x8062 psgmiiStPktSize
    (Fates.of (fs.drop 6))) (low5 qca807xFunctionControl) manualMdi val (fate fs 10) (fate fs 11)

theorem exec_prepareRest : (exec line (prepareRest phy v) (b, fs)).2.1 =
    Function.update b (low5 phy) (prepared (b (low5 phy)) v fs) := by
  unfold prepareRest
  simp only [exec_bind, exec_powerDown, exec_writeMmd, exec_readPlain plain_control,
    exec_writePlain plain_control, Function.update_self, Function.update_idem, List.drop_drop]
  rw [apply_ite Prod.snd]
  rfl

/-- A PHY after the first step of `psgmii_st_phy_prepare`, and what `val` holds then. -/
def configured (p : Phy) (fs : List Fate) : Phy :=
  let r := low5 qca807xChipConfiguration
  if fate fs 0 = .ok ∧ p.reg r ≠ 0 then
    fated (fate fs 1) p { p with reg := Function.update p.reg r (mediaPage (p.reg r)) }
  else p

def configuredVal (p : Phy) (fs : List Fate) : UInt16 :=
  let v := p.reg (low5 qca807xChipConfiguration)
  if fate fs 0 = .ok ∧ v ≠ 0 then mediaPage v else 0

theorem exec_prepare : (exec line (psgmiiStPhyPrepare phy) (b, fs)).2.1 =
    Function.update b (low5 phy) (prepared (configured (b (low5 phy)) fs)
      (configuredVal (b (low5 phy)) fs) (afterChip (b (low5 phy)) fs)) := by
  unfold psgmiiStPhyPrepare
  rw [exec_bind, exec_readPlain plain_chip]
  unfold configured configuredVal afterChip
  by_cases h : fate fs 0 = .ok ∧ (b (low5 phy)).reg (low5 qca807xChipConfiguration) ≠ 0
  · rw [if_pos h, if_pos h, if_pos h, if_pos h.1]
    simp only [h.2, if_true, ne_eq, not_false_eq_true]
    rw [exec_bind, exec_writePlain plain_chip, exec_prepareRest, Function.update_self,
      Function.update_idem, List.drop_drop]
    rfl
  · rw [if_neg h, if_neg h, if_neg h]
    have h0 : (if fate fs 0 = .ok then ((0 : Int), (b (low5 phy)).reg
        (low5 qca807xChipConfiguration)) else (-1, 0)).2 = 0 := by
      split
      · rename_i hok
        by_contra hne
        exact h ⟨hok, hne⟩
      · rfl
    simp only [h0, if_false, ne_eq, not_true_eq_false]
    exact exec_prepareRest

/-- A PHY after a read of the packet counter's control register, the write of the altered value, and
a write of another register. -/
def updated (alter : UInt16 → UInt16) (reg x : UInt16) (p : Phy) (t₀ t₁ t₂ : Fates) : Phy :=
  stored (stored (loaded p mdioMmdAn qca807xMmd7CrcPacketCounter t₀) mdioMmdAn
    qca807xMmd7CrcPacketCounter (alter (brought p mdioMmdAn qca807xMmd7CrcPacketCounter t₀)) t₁)
    mdioMmdAn reg x t₂

theorem exec_startTraffic : (exec line (psgmiiStPhyStartTraffic phy) (b, fs)).2.1 =
    Function.update b (low5 phy) (updated counterOn 0x8020 0xa000 (b (low5 phy)) (Fates.of fs)
      (Fates.of (fs.drop 4)) (Fates.of (fs.drop 8))) := by
  unfold psgmiiStPhyStartTraffic
  simp only [exec_bind, exec_writeMmd, exec_readMmd, Function.update_self, Function.update_idem,
    List.drop_drop]
  rfl

theorem exec_recover : (exec line (psgmiiStPhyRecover phy) (b, fs)).2.1 =
    Function.update b (low5 phy) (updated counterOff 0x8020 0x0
      (stored (b (low5 phy)) mdioMmdAn 0x8021 0x0 (Fates.of fs)) (Fates.of (fs.drop 4))
      (Fates.of (fs.drop 8)) (Fates.of (fs.drop 12))) := by
  unfold psgmiiStPhyRecover
  simp only [exec_bind, exec_writeMmd, exec_readMmd, Function.update_self, Function.update_idem,
    List.drop_drop]
  rfl

/-- The PHYs whose registers may be anything. -/
def Like (p q : Phy) : Prop :=
  Alike q p ∧ q.reg (low5 qca807xChipConfiguration) = p.reg (low5 qca807xChipConfiguration)

/-! ### Words that tell a lost register -/

/-- Three words that a function leaves alone. -/
def Fixes (alter : UInt16 → UInt16) : Prop :=
  ∃ x y z : UInt16, x ≠ y ∧ x ≠ z ∧ y ≠ z ∧ alter x = x ∧ alter y = y ∧ alter z = z

theorem fixes_down : Fixes down := ⟨0x800, 0x801, 0x802, by decide⟩
theorem fixes_manualMdi : Fixes manualMdi := ⟨0, 1, 4, by decide⟩
theorem fixes_counterOff : Fixes counterOff := ⟨0, 4, 8, by decide⟩
theorem fixes_counterOn : Fixes counterOn := ⟨1, 3, 5, by decide⟩
theorem fixes_id : Fixes fun v => v := ⟨0, 1, 2, by decide⟩

/-- Some word is neither of two, and left alone. -/
theorem Fixes.exists (h : Fixes alter) (v v' : UInt16) : ∃ y, alter y = y ∧ y ≠ v ∧ y ≠ v' := by
  obtain ⟨x, y, z, hxy, hxz, hyz, hx, hy, hz⟩ := h
  by_contra hn
  push Not at hn
  by_cases hxv : x = v
  · have hyv := hn y hy fun h => hxy (hxv.trans h.symm)
    have hzv := hn z hz fun h => hxz (hxv.trans h.symm)
    exact hyz (hyv.trans hzv.symm)
  · have hxv' := hn x hx hxv
    by_cases hyv : y = v
    · have hzv := hn z hz fun h => hyz (hyv.trans h.symm)
      exact hxz (hxv'.trans hzv.symm)
    · exact hxy (hxv'.trans (hn y hy hyv).symm)

/-- What does not depend on a register does not keep it. -/
theorem Fixes.not_kept {F : UInt16 → UInt16} (h : Fixes alter) {v w : UInt16}
    (hF : ∀ y, F y = v ∨ F y = w) : ¬∀ y, Kept alter y (F y) := by
  intro hk
  obtain ⟨y, hy, hv, hw⟩ := h.exists v w
  have hFy : F y = y := by
    rcases hk y with h | h
    · exact h
    · exact h.trans hy
  rcases hF y with h | h
  · exact hv (hFy.symm.trans h)
  · exact hw (hFy.symm.trans h)

/-- **One register read, modified and written** with plain transactions. -/
theorem modified_iff (h : Fixes alter) (old : UInt16) (f₀ f₁ : Fate) :
    (∀ y, Kept alter y (if f₁ = .lost then y else alter (if f₀ = .ok then y else old))) ↔
      ReadOrLost f₀ f₁ := by
  constructor
  · intro hk
    by_contra hn
    unfold ReadOrLost at hn
    push Not at hn
    simp only [hn.1, hn.2, if_false] at hk
    exact h.not_kept (w := 0) (fun _ => Or.inl rfl) hk
  · rintro (h | h) y
    · simp only [h, if_true]
      split
      · exact Or.inl rfl
      · exact Or.inr rfl
    · simp only [h, if_true]
      exact Or.inl rfl

/-! ### The packet counter's control register -/

variable {reg x val : UInt16} {t t₀ t₁ t₂ : Fates} {m : Fin 32 → UInt16 → UInt16} {q : Phy}

/-- The register. -/
def counter (p : Phy) : UInt16 := p.mmd (low5 mdioMmdAn) qca807xMmd7CrcPacketCounter

/-- A PHY with the register set. -/
def withCounter (p : Phy) (y : UInt16) : Phy :=
  p.setMmd (low5 mdioMmdAn) qca807xMmd7CrcPacketCounter y

theorem counter_withCounter (y : UInt16) : counter (withCounter p y) = y := by
  simp [counter, withCounter, Phy.setMmd]

theorem withCounter_reg (y : UInt16) : (withCounter p y).reg = p.reg := rfl

theorem alike_withCounter (y : UInt16) : Alike (withCounter p y) p := ⟨rfl, rfl⟩

theorem withCounter_other {y : UInt16} {e : Fin 32} {a : UInt16}
    (h : ¬(e = low5 mdioMmdAn ∧ a = qca807xMmd7CrcPacketCounter)) :
    (withCounter p y).mmd e a = p.mmd e a := by
  unfold withCounter Phy.setMmd
  by_cases he : e = low5 mdioMmdAn
  · subst he
    have ha : a ≠ qca807xMmd7CrcPacketCounter := fun ha => h ⟨rfl, ha⟩
    simp [ha]
  · simp [he]

/-- An access that stays away leaves the register as it was. -/
theorem Clear.counter (h : Clear p reg t) :
    counter (stored p mdioMmdAn reg val t) = counter p := by
  unfold Rmw.counter
  rw [stored_mmd]
  exact (if_neg h.2).trans (if_neg h.1)

/-- One that does not leaves nothing of it. -/
theorem stored_of_not_clear (h : ¬Clear p reg t) (y : UInt16) :
    stored (withCounter p y) mdioMmdAn reg val t = stored p mdioMmdAn reg val t := by
  have hal := alike_withCounter (p := p) y
  refine hal.stored.eq (fun e a => ?_) (by rw [stored_reg, stored_reg, withCounter_reg])
  rw [stored_mmd, stored_mmd]
  simp only [hal.afterData.hits, hal.afterCtrl.hits]
  by_cases he : e = low5 mdioMmdAn ∧ a = qca807xMmd7CrcPacketCounter
  · obtain ⟨rfl, rfl⟩ := he
    by_cases hl : OnCounter t.last (afterData p mdioMmdAn reg t)
    · exact (if_pos hl).trans (if_pos hl).symm
    · have ha : OnCounter t.addr (afterCtrl p mdioMmdAn t) := by
        by_contra ha
        exact h ⟨ha, hl⟩
      rw [if_neg hl, if_neg hl, if_pos ha, if_pos ha]
  · rw [withCounter_other he]

/-- A read that stores its address there leaves nothing of it either. -/
theorem loaded_of_onCounter (h : OnCounter t.addr (afterCtrl p mdioMmdAn t)) (y : UInt16) :
    loaded (withCounter p y) mdioMmdAn reg t = loaded p mdioMmdAn reg t := by
  have hal := alike_withCounter (p := p) y
  refine hal.loaded.eq (fun e a => ?_) (by rw [loaded_reg, loaded_reg, withCounter_reg])
  rw [loaded_mmd, loaded_mmd]
  simp only [hal.afterCtrl.hits]
  by_cases he : e = low5 mdioMmdAn ∧ a = qca807xMmd7CrcPacketCounter
  · obtain ⟨rfl, rfl⟩ := he
    rw [if_pos h, if_pos h]
  · rw [withCounter_other he]

/-- What the register holds in the end: the word of the last transaction that was stored there. -/
theorem counter_updated (hq : Alike q p) : counter (updated alter reg x q t₀ t₁ t₂) =
    let l := loaded p mdioMmdAn qca807xMmd7CrcPacketCounter t₀
    let v := brought q mdioMmdAn qca807xMmd7CrcPacketCounter t₀
    let s := stored l mdioMmdAn qca807xMmd7CrcPacketCounter (alter v) t₁
    if OnCounter t₂.last (afterData s mdioMmdAn reg t₂) then x
    else if OnCounter t₂.addr (afterCtrl s mdioMmdAn t₂) then reg
    else if OnCounter t₁.last (afterData l mdioMmdAn qca807xMmd7CrcPacketCounter t₁) then alter v
    else if OnCounter t₁.addr (afterCtrl l mdioMmdAn t₁) then qca807xMmd7CrcPacketCounter
    else if OnCounter t₀.addr (afterCtrl p mdioMmdAn t₀) then qca807xMmd7CrcPacketCounter
    else counter q := by
  have hload : Alike (loaded q mdioMmdAn qca807xMmd7CrcPacketCounter t₀)
      (loaded p mdioMmdAn qca807xMmd7CrcPacketCounter t₀) := hq.loaded
  unfold updated counter
  rw [stored_mmd, stored_mmd, loaded_mmd]
  simp only [hload.stored.afterData.hits, hload.stored.afterCtrl.hits, hload.afterData.hits,
    hload.afterCtrl.hits, hq.afterCtrl.hits]

/-- A read brings what it may bring. -/
theorem mayBring_brought (h : Alike q p) : MayBring p reg t (brought q mdioMmdAn reg t) := by
  unfold MayBring
  have hal : Alike (afterData q mdioMmdAn reg t) (afterData p mdioMmdAn reg t) := h.afterData
  dsimp only
  by_cases hok : t.last = .ok
  · rw [if_neg (by simp [hok])]
    split
    · rename_i h0
      have h0' : (afterData q mdioMmdAn reg t).func = 0 := (func_congr hal.ctrl).trans h0
      unfold brought Phy.loadData
      rw [if_pos hok, if_pos h0', dev_congr hal.ctrl, hal.addr]
    · rename_i h0
      intro hh
      have hsel : Hits t.last (afterData q mdioMmdAn reg t) _ _ :=
        hal.hits.mpr ⟨by simp [hok], h0, rfl, rfl⟩
      rw [brought_of_hits hsel hok, loaded_mmd, if_pos (h.afterCtrl.hits.mpr hh)]
  · rw [if_pos hok]
    unfold brought
    rw [if_neg hok]

/-- And may bring all that. -/
theorem exists_brought (hv : MayBring p reg t v) : ∃ q, Like p q ∧ brought q mdioMmdAn reg t = v := by
  refine ⟨{ p with mmd := fun _ _ => v }, ⟨⟨rfl, rfl⟩, rfl⟩, ?_⟩
  have hal : Alike { p with mmd := fun _ _ => v } p := ⟨rfl, rfl⟩
  have hal' : Alike (afterData { p with mmd := fun _ _ => v } mdioMmdAn reg t)
      (afterData p mdioMmdAn reg t) := hal.afterData
  unfold MayBring at hv
  dsimp only at hv
  by_cases hok : t.last = .ok
  · rw [if_neg (by simp [hok])] at hv
    split at hv
    · rename_i h0
      have h0' := (func_congr hal'.ctrl).trans h0
      unfold brought Phy.loadData
      rw [if_pos hok, if_pos h0', dev_congr hal'.ctrl, hal'.addr, hv]
    · rename_i h0
      have hsel : Hits t.last (afterData { p with mmd := fun _ _ => v } mdioMmdAn reg t) _ _ :=
        hal'.hits.mpr ⟨by simp [hok], h0, rfl, rfl⟩
      rw [brought_of_hits hsel hok, loaded_mmd]
      split
      · rename_i hh
        exact (hv (hal.afterCtrl.hits.mp hh)).symm
      · rfl
  · rw [if_pos hok] at hv
    unfold brought
    rw [if_neg hok, hv]

/-- A read that does not bring the register depends on others only. -/
theorem brought_withCounter (h : ¬(t.last = .ok ∧ OnCounter t.last (afterData p mdioMmdAn reg t)))
    (y : UInt16) : brought (withCounter p y) mdioMmdAn reg t = brought p mdioMmdAn reg t := by
  have hal := alike_withCounter (p := p) y
  refine brought_congr hal fun hok e a hh => ?_
  have he : ¬(e = low5 mdioMmdAn ∧ a = qca807xMmd7CrcPacketCounter) := by
    rintro ⟨rfl, rfl⟩
    exact h ⟨hok, hal.afterData.hits.mp hh⟩
  rw [loaded_mmd, loaded_mmd, withCounter_other he]
  simp only [hal.afterCtrl.hits]

/-- A read that brings the register. -/
theorem brought_counter (hr : ¬OnCounter t.addr (afterCtrl p mdioMmdAn t)) (hok : t.last = .ok)
    (h : OnCounter t.last (afterData p mdioMmdAn reg t)) :
    brought p mdioMmdAn reg t = counter p := by
  rw [brought_of_hits h hok, loaded_mmd, if_neg hr]
  rfl

section Necessary
variable (hfix : Fixes alter)
  (hk : ∀ y, Kept alter y (counter (updated alter reg x (withCounter p y) t₀ t₁ t₂)))
include hfix hk

theorem read_of_kept : ¬OnCounter t₀.addr (afterCtrl p mdioMmdAn t₀) := by
  intro h
  refine hfix.not_kept (v := counter (updated alter reg x p t₀ t₁ t₂)) (w := 0)
    (fun y => Or.inl ?_) hk
  have hload : loaded (withCounter p y) mdioMmdAn qca807xMmd7CrcPacketCounter t₀ =
      loaded p mdioMmdAn qca807xMmd7CrcPacketCounter t₀ := loaded_of_onCounter h y
  have hbr : brought (withCounter p y) mdioMmdAn qca807xMmd7CrcPacketCounter t₀ =
      brought p mdioMmdAn qca807xMmd7CrcPacketCounter t₀ :=
    brought_congr (alike_withCounter y) fun _ e a _ => by rw [hload]
  unfold updated
  rw [hload, hbr]

theorem after_of_kept {v : UInt16} (hword : qca807xMmd7CrcPacketCounter = alter v →
      ¬OnCounter t₂.last (afterData (stored (loaded p mdioMmdAn qca807xMmd7CrcPacketCounter t₀)
        mdioMmdAn qca807xMmd7CrcPacketCounter (alter v) t₁) mdioMmdAn reg t₂)) :
    Clear (stored (loaded p mdioMmdAn qca807xMmd7CrcPacketCounter t₀) mdioMmdAn
      qca807xMmd7CrcPacketCounter (alter v) t₁) reg t₂ := by
  refine ⟨fun ha => ?_, fun hl => ?_⟩
  · refine hfix.not_kept (v := x) (w := reg) (fun y => ?_) hk
    rw [counter_updated (alike_withCounter y)]
    dsimp only
    rw [if_pos (hits_addr_word ha)]
    split
    · exact Or.inl rfl
    · exact Or.inr rfl
  · rcases hits_last_word hl with hv | hall
    · exact hword hv hl
    · refine hfix.not_kept (v := x) (w := x) (fun y => Or.inl ?_) hk
      rw [counter_updated (alike_withCounter y)]
      exact if_pos (hall _)

variable (hafter : ∀ v, MayBring p qca807xMmd7CrcPacketCounter t₀ v →
  Clear (stored (loaded p mdioMmdAn qca807xMmd7CrcPacketCounter t₀) mdioMmdAn
    qca807xMmd7CrcPacketCounter (alter v) t₁) reg t₂)
include hafter

theorem back_of_kept (hb : OnCounter t₁.last (afterData
      (loaded p mdioMmdAn qca807xMmd7CrcPacketCounter t₀) mdioMmdAn
      qca807xMmd7CrcPacketCounter t₁)) :
    t₀.last = .ok ∧ OnCounter t₀.last (afterData p mdioMmdAn qca807xMmd7CrcPacketCounter t₀) := by
  by_contra hn
  refine hfix.not_kept (v := alter (brought p mdioMmdAn qca807xMmd7CrcPacketCounter t₀)) (w := 0)
    (fun y => Or.inl ?_) hk
  have hy := alike_withCounter (p := p) y
  obtain ⟨ha, hl⟩ := hafter _ (mayBring_brought hy)
  rw [counter_updated hy]
  dsimp only
  rw [if_neg hl, if_neg ha, if_pos hb, brought_withCounter hn]

theorem stray_of_kept (hb : ¬OnCounter t₁.last (afterData
      (loaded p mdioMmdAn qca807xMmd7CrcPacketCounter t₀) mdioMmdAn
      qca807xMmd7CrcPacketCounter t₁)) :
    ¬OnCounter t₁.addr (afterCtrl (loaded p mdioMmdAn qca807xMmd7CrcPacketCounter t₀) mdioMmdAn
      t₁) := by
  intro hs
  refine hfix.not_kept (v := qca807xMmd7CrcPacketCounter) (w := 0) (fun y => Or.inl ?_) hk
  have hy := alike_withCounter (p := p) y
  obtain ⟨ha, hl⟩ := hafter _ (mayBring_brought hy)
  rw [counter_updated hy]
  dsimp only
  rw [if_neg hl, if_neg ha, if_neg hb, if_pos hs]

theorem updateCond_of_kept : UpdateCond alter p reg t₀ t₁ t₂ :=
  ⟨read_of_kept hfix hk, back_of_kept hfix hk hafter, stray_of_kept hfix hk hafter, hafter⟩

end Necessary

/-- The word that goes back may be the register's own number, and be taken for an address. -/
theorem not_word_of_kept (hfix : Fixes alter)
    (hk : ∀ q, Like p q → Kept alter (counter q) (counter (updated alter reg x q t₀ t₁ t₂)))
    (hx : ∀ v, qca807xMmd7CrcPacketCounter = alter v → x ≠ v ∧ x ≠ alter v) {v : UInt16}
    (hv : MayBring p qca807xMmd7CrcPacketCounter t₀ v)
    (hword : qca807xMmd7CrcPacketCounter = alter v) :
    ¬OnCounter t₂.last (afterData (stored (loaded p mdioMmdAn qca807xMmd7CrcPacketCounter t₀)
      mdioMmdAn qca807xMmd7CrcPacketCounter (alter v) t₁) mdioMmdAn reg t₂) := by
  intro hl
  obtain ⟨q, hq, rfl⟩ := exists_brought hv
  have hkq : ∀ y, Kept alter y (counter (updated alter reg x (withCounter q y) t₀ t₁ t₂)) := by
    intro y
    have hky := hk (withCounter q y) ⟨⟨hq.1.ctrl, hq.1.addr⟩, hq.2⟩
    rwa [counter_withCounter] at hky
  by_cases hgood : t₀.last = .ok ∧
      OnCounter t₀.last (afterData q mdioMmdAn qca807xMmd7CrcPacketCounter t₀)
  · have hb := brought_counter (read_of_kept hfix hkq) hgood.1 hgood.2
    have hlast := hk q hq
    rw [counter_updated hq.1] at hlast
    dsimp only at hlast
    rw [if_pos hl, ← hb] at hlast
    obtain ⟨h, h'⟩ := hx _ hword
    rcases hlast with hc | hc
    · exact h hc
    · exact h' hc
  · refine hfix.not_kept (v := x) (w := x) (fun y => Or.inl ?_) hkq
    have hy : Alike (withCounter q y) p := ⟨hq.1.ctrl, hq.1.addr⟩
    rw [counter_updated hy, brought_withCounter hgood]
    exact if_pos hl

/-- **The packet counter's control register** survives its update under the condition. -/
theorem UpdateCond.kept (h : UpdateCond alter p reg t₀ t₁ t₂) (hq : Alike q p) :
    Kept alter (counter q) (counter (updated alter reg x q t₀ t₁ t₂)) := by
  obtain ⟨ha, hl⟩ := h.after _ (mayBring_brought hq)
  rw [counter_updated hq]
  dsimp only
  rw [if_neg hl, if_neg ha]
  by_cases hb : OnCounter t₁.last (afterData (loaded p mdioMmdAn qca807xMmd7CrcPacketCounter t₀)
      mdioMmdAn qca807xMmd7CrcPacketCounter t₁)
  · obtain ⟨hok, hsel⟩ := h.back hb
    rw [if_pos hb, brought_counter (fun hh => h.read (hq.afterCtrl.hits.mp hh)) hok
      (hq.afterData.hits.mpr hsel)]
    exact Or.inr rfl
  · rw [if_neg hb, if_neg (h.stray hb), if_neg h.read]
    exact Or.inl rfl

/-! ### The calls -/

/-- A PHY after a call. -/
def RmwCall.leaves (p : Phy) (fs : List Fate) : RmwCall → Phy
  | .powerDown => modified p (low5 miiBmcr) down 0 (fate fs 0) (fate fs 1)
  | .prepare => prepared (configured p fs) (configuredVal p fs) (afterChip p fs)
  | .recover => updated counterOff 0x8020 0x0 (stored p mdioMmdAn 0x8021 0x0 (Fates.of fs))
      (Fates.of (fs.drop 4)) (Fates.of (fs.drop 8)) (Fates.of (fs.drop 12))
  | .startTraffic => updated counterOn 0x8020 0xa000 p (Fates.of fs) (Fates.of (fs.drop 4))
      (Fates.of (fs.drop 8))

theorem exec_prog (c : RmwCall) : (exec line (c.prog phy) (b, fs)).2.1 =
    Function.update b (low5 phy) (c.leaves (b (low5 phy)) fs) := by
  cases c with
  | powerDown => exact congrArg Prod.fst exec_powerDown
  | prepare => exact exec_prepare
  | recover => exact exec_recover
  | startTraffic => exact exec_startTraffic

theorem survives_iff (c : RmwCall) : Survives c phy fs b ↔
    ∀ q, Like (b (low5 phy)) q → ∀ r : RmwReg, Kept (c.meant r) (r.get q) (r.get (c.leaves q fs)) := by
  unfold Survives
  simp only [exec_prog, Function.update_self]
  constructor
  · rintro h q ⟨⟨hc, ha⟩, hchip⟩
    have hq : filled (b (low5 phy)) q.reg q.mmd = q := by
      unfold filled
      rw [← hc, ← ha]
    have hk := h q.reg q.mmd hchip
    rwa [hq] at hk
  · intro h reg mmd hchip
    exact h _ ⟨⟨rfl, rfl⟩, hchip⟩

theorem modified_reg : (modified p r alter old f₀ f₁).reg r =
    if f₁ = .lost then p.reg r else alter (if f₀ = .ok then p.reg r else old) := by
  unfold modified fated
  by_cases h : f₁ = .lost
  · rw [if_pos h, if_pos h]
  · rw [if_neg h, if_neg h]
    exact Function.update_self _ _ _

theorem modified_other {r' : Fin 32} (h : r' ≠ r) :
    (modified p r alter old f₀ f₁).reg r' = p.reg r' := by
  unfold modified fated
  split
  · rfl
  · exact Function.update_of_ne h _ _

theorem modified_counter : counter (modified p r alter old f₀ f₁) = counter p := by
  unfold modified fated
  split
  · rfl
  · rfl

theorem modified_alike : Alike (modified p r alter old f₀ f₁) p := by
  unfold modified fated
  split
  · exact ⟨rfl, rfl⟩
  · exact ⟨rfl, rfl⟩

/-- A PHY with a clause-22 register set. -/
def withReg (p : Phy) (r : Fin 32) (y : UInt16) : Phy :=
  { p with reg := Function.update p.reg r y }

theorem withReg_self (y : UInt16) : (withReg p r y).reg r = y := Function.update_self _ _ _

theorem like_withReg (h : low5 qca807xChipConfiguration ≠ r) (y : UInt16) : Like p (withReg p r y) :=
  ⟨⟨rfl, rfl⟩, Function.update_of_ne h _ _⟩

theorem like_withCounter (y : UInt16) : Like p (withCounter p y) := ⟨⟨rfl, rfl⟩, rfl⟩

/-! The registers are different ones. -/

theorem chip_ne_bmcr : low5 qca807xChipConfiguration ≠ low5 miiBmcr := by decide
theorem control_ne_bmcr : low5 qca807xFunctionControl ≠ low5 miiBmcr := by decide
theorem chip_ne_control : low5 qca807xChipConfiguration ≠ low5 qca807xFunctionControl := by decide

theorem survives_powerDown : Survives .powerDown phy fs b ↔ ReadOrLost (fate fs 0) (fate fs 1) := by
  rw [survives_iff, ← modified_iff fixes_down 0]
  constructor
  · intro h y
    have hy : Kept down ((withReg _ _ y).reg _) ((modified (withReg _ _ y) _ _ _ _ _).reg _) :=
      h _ (like_withReg chip_ne_bmcr y) .bmcr
    rwa [modified_reg, withReg_self] at hy
  · intro h q _ r
    cases r with
    | bmcr =>
      change Kept down _ ((modified _ _ _ _ _ _).reg _)
      rw [modified_reg]
      exact h _
    | chipConfiguration => exact Or.inl (modified_other chip_ne_bmcr)
    | functionControl => exact Or.inl (modified_other control_ne_bmcr)
    | crcPacketCounter => exact Or.inl modified_counter

theorem updated_reg : (updated alter reg x p t₀ t₁ t₂).reg = p.reg := by
  unfold updated
  rw [stored_reg, stored_reg, loaded_reg]

theorem counterOn_number (h : qca807xMmd7CrcPacketCounter = counterOn v) :
    (0xa000 : UInt16) ≠ v ∧ (0xa000 : UInt16) ≠ counterOn v := by
  rw [← h]
  refine ⟨?_, by decide⟩
  rintro rfl
  exact absurd h (by decide)

theorem counterOff_number : qca807xMmd7CrcPacketCounter ≠ counterOff v := by
  intro h
  have hbit := congrArg (fun w : UInt16 => w &&& 1) h
  have hzero : ~~~qca807xMmd7CrcPacketCounterEn &&& 1 = 0 := by decide
  rw [counterOff, UInt16.and_assoc, hzero, UInt16.and_zero] at hbit
  exact absurd hbit (by decide)

theorem survives_startTraffic : Survives .startTraffic phy fs b ↔
    UpdateCond counterOn (b (low5 phy)) 0x8020 (Fates.of fs) (Fates.of (fs.drop 4))
      (Fates.of (fs.drop 8)) := by
  rw [survives_iff]
  constructor
  · intro h
    have hk := fun q hq => h q hq .crcPacketCounter
    have hk' : ∀ y, Kept counterOn y (counter (updated counterOn 0x8020 0xa000
        (withCounter (b (low5 phy)) y) (Fates.of fs) (Fates.of (fs.drop 4)) (Fates.of (fs.drop 8)))) := by
      intro y
      have hy : Kept counterOn (counter (withCounter _ y)) _ := hk _ (like_withCounter y)
      rwa [counter_withCounter] at hy
    refine updateCond_of_kept fixes_counterOn hk' fun v hv => ?_
    exact after_of_kept fixes_counterOn hk'
      (not_word_of_kept fixes_counterOn hk (fun _ => counterOn_number) hv)
  · intro h q hq r
    cases r with
    | crcPacketCounter => exact h.kept hq.1
    | bmcr => exact Or.inl (congrFun updated_reg _)
    | chipConfiguration => exact Or.inl (congrFun updated_reg _)
    | functionControl => exact Or.inl (congrFun updated_reg _)

/-- An access that stays away, before the update. -/
theorem stored_withCounter (h : Clear p reg t) (y : UInt16) :
    stored (withCounter p y) mdioMmdAn reg val t = withCounter (stored p mdioMmdAn reg val t) y := by
  have hal := alike_withCounter (p := p) y
  have hst : Alike (stored (withCounter p y) mdioMmdAn reg val t) (stored p mdioMmdAn reg val t) :=
    hal.stored
  refine Alike.eq ⟨hst.ctrl, hst.addr⟩ (fun e a => ?_) ?_
  · rw [stored_mmd]
    simp only [hal.afterData.hits, hal.afterCtrl.hits]
    by_cases he : e = low5 mdioMmdAn ∧ a = qca807xMmd7CrcPacketCounter
    · obtain ⟨rfl, rfl⟩ := he
      rw [if_neg h.2, if_neg h.1]
      exact (counter_withCounter y).trans (counter_withCounter y).symm
    · rw [withCounter_other he, withCounter_other he, stored_mmd]
  · rw [stored_reg, withCounter_reg, withCounter_reg, stored_reg]

theorem survives_recover : Survives .recover phy fs b ↔ Clear (b (low5 phy)) 0x8021 (Fates.of fs) ∧
    UpdateCond counterOff (stored (b (low5 phy)) mdioMmdAn 0x8021 0x0 (Fates.of fs)) 0x8020
      (Fates.of (fs.drop 4)) (Fates.of (fs.drop 8)) (Fates.of (fs.drop 12)) := by
  rw [survives_iff]
  constructor
  · intro h
    have hk : ∀ y, Kept counterOff y (counter (updated counterOff 0x8020 0x0
        (stored (withCounter (b (low5 phy)) y) mdioMmdAn 0x8021 0x0 (Fates.of fs))
        (Fates.of (fs.drop 4)) (Fates.of (fs.drop 8)) (Fates.of (fs.drop 12)))) := by
      intro y
      have hy : Kept counterOff (counter (withCounter _ y)) _ :=
        h _ (like_withCounter y) .crcPacketCounter
      rwa [counter_withCounter] at hy
    have hclear : Clear (b (low5 phy)) 0x8021 (Fates.of fs) := by
      by_contra hn
      refine fixes_counterOff.not_kept (v := counter (updated counterOff 0x8020 0x0
        (stored (b (low5 phy)) mdioMmdAn 0x8021 0x0 (Fates.of fs)) (Fates.of (fs.drop 4))
        (Fates.of (fs.drop 8)) (Fates.of (fs.drop 12)))) (w := 0) (fun y => Or.inl ?_) hk
      rw [stored_of_not_clear hn]
    refine ⟨hclear, ?_⟩
    have hk' := fun y => stored_withCounter hclear y ▸ hk y
    exact updateCond_of_kept fixes_counterOff hk' fun v _ => after_of_kept fixes_counterOff hk' fun hw =>
      absurd hw counterOff_number
  · rintro ⟨hc, h⟩ q hq r
    cases r with
    | crcPacketCounter =>
      have hst : Alike (stored q mdioMmdAn 0x8021 0x0 (Fates.of fs))
          (stored (b (low5 phy)) mdioMmdAn 0x8021 0x0 (Fates.of fs)) := hq.1.stored
      have hk := h.kept (x := 0x0) hst
      have hsame : counter (stored q mdioMmdAn 0x8021 0x0 (Fates.of fs)) = counter q := by
        have hcq : Clear q 0x8021 (Fates.of fs) :=
          ⟨fun hh => hc.1 (hq.1.afterCtrl.hits.mp hh), fun hh => hc.2 (hq.1.afterData.hits.mp hh)⟩
        exact hcq.counter
      rwa [hsame] at hk
    | bmcr => exact Or.inl (congrFun (updated_reg.trans stored_reg) _)
    | chipConfiguration => exact Or.inl (congrFun (updated_reg.trans stored_reg) _)
    | functionControl => exact Or.inl (congrFun (updated_reg.trans stored_reg) _)

/-! ### The preparation -/

theorem configured_reg (h : r ≠ low5 qca807xChipConfiguration) : (configured p fs).reg r = p.reg r := by
  unfold configured fated
  dsimp only
  split
  · split
    · rfl
    · exact Function.update_of_ne h _ _
  · rfl

theorem configured_chip : Kept mediaPage (p.reg (low5 qca807xChipConfiguration))
    ((configured p fs).reg (low5 qca807xChipConfiguration)) := by
  unfold configured fated
  dsimp only
  split
  · split
    · exact Or.inl rfl
    · right
      exact Function.update_self (low5 qca807xChipConfiguration) (mediaPage _) p.reg
  · exact Or.inl rfl

theorem configured_alike : Alike (configured p fs) p := by
  unfold configured fated
  dsimp only
  split
  · split
    · exact ⟨rfl, rfl⟩
    · exact ⟨rfl, rfl⟩
  · exact ⟨rfl, rfl⟩

theorem configured_counter : counter (configured p fs) = counter p := by
  unfold configured fated
  dsimp only
  split
  · split
    · rfl
    · rfl
  · rfl

theorem prepared_bmcr : (prepared p v fs).reg (low5 miiBmcr) = if fate fs 1 = .lost
    then p.reg (low5 miiBmcr) else down (if fate fs 0 = .ok then p.reg (low5 miiBmcr) else 0) := by
  unfold prepared
  rw [modified_other control_ne_bmcr.symm, stored_reg, stored_reg, modified_reg]

theorem prepared_control : (prepared p v fs).reg (low5 qca807xFunctionControl) =
    if fate fs 11 = .lost then p.reg (low5 qca807xFunctionControl)
    else manualMdi (if fate fs 10 = .ok then p.reg (low5 qca807xFunctionControl) else v) := by
  unfold prepared
  rw [modified_reg, stored_reg, stored_reg, modified_other control_ne_bmcr]

theorem prepared_chip : (prepared p v fs).reg (low5 qca807xChipConfiguration) =
    p.reg (low5 qca807xChipConfiguration) := by
  unfold prepared
  rw [modified_other chip_ne_control, stored_reg, stored_reg, modified_other chip_ne_bmcr]

theorem counter_stored (hq : Alike q p) : counter (stored q mdioMmdAn reg val t) =
    if OnCounter t.last (afterData p mdioMmdAn reg t) then val
    else if OnCounter t.addr (afterCtrl p mdioMmdAn t) then reg else counter q := by
  unfold counter
  rw [stored_mmd]
  simp only [hq.afterData.hits, hq.afterCtrl.hits]

/-- An access that does not stay away leaves the same, whatever there was. -/
theorem counter_of_not_clear (h : ¬Clear p reg t) (val : UInt16) :
    ∃ w, ∀ q, Alike q p → counter (stored q mdioMmdAn reg val t) = w := by
  by_cases hl : OnCounter t.last (afterData p mdioMmdAn reg t)
  · refine ⟨val, fun q hq => ?_⟩
    rw [counter_stored hq, if_pos hl]
  · have ha : OnCounter t.addr (afterCtrl p mdioMmdAn t) := by
      by_contra ha
      exact h ⟨ha, hl⟩
    refine ⟨reg, fun q hq => ?_⟩
    rw [counter_stored hq, if_neg hl, if_pos ha]

/-- Nor does one of two. -/
theorem counter_of_not_clear_two {reg' : UInt16} {t' : Fates}
    (h : ¬(Clear p reg t ∧ Clear (stored p mdioMmdAn reg val t) reg' t')) (val' : UInt16) :
    ∃ w, ∀ q, Alike q p →
      counter (stored (stored q mdioMmdAn reg val t) mdioMmdAn reg' val' t') = w := by
  by_cases hc' : Clear (stored p mdioMmdAn reg val t) reg' t'
  · have hc : ¬Clear p reg t := fun hc => h ⟨hc, hc'⟩
    obtain ⟨w, hw⟩ := counter_of_not_clear hc val
    refine ⟨w, fun q hq => ?_⟩
    rw [counter_stored hq.stored, if_neg hc'.2, if_neg hc'.1, hw q hq]
  · obtain ⟨w, hw⟩ := counter_of_not_clear hc' val'
    exact ⟨w, fun q hq => hw _ hq.stored⟩

theorem afterChip_like (h : Like p q) : afterChip q fs = afterChip p fs ∧
    configuredVal q fs = configuredVal p fs := by
  unfold afterChip configuredVal
  rw [h.2]
  exact ⟨rfl, rfl⟩

theorem survives_prepare : Survives .prepare phy fs b ↔
    PrepareCond (b (low5 phy)) (afterChip (b (low5 phy)) fs) := by
  rw [survives_iff]
  have hpre : ∀ q, Alike q (b (low5 phy)) → ∀ f₀ f₁, Alike (modified (configured q fs) (low5 miiBmcr)
      down 0 f₀ f₁) (b (low5 phy)) ∧ counter (modified (configured q fs) (low5 miiBmcr) down 0 f₀ f₁) =
        counter q := by
    intro q hq f₀ f₁
    have hm : Alike (modified (configured q fs) (low5 miiBmcr) down 0 f₀ f₁) (configured q fs) :=
      modified_alike
    have hc : Alike (configured q fs) q := configured_alike
    refine ⟨⟨?_, ?_⟩, modified_counter.trans configured_counter⟩
    · rw [hm.ctrl, hc.ctrl, hq.ctrl]
    · rw [hm.addr, hc.addr, hq.addr]
  constructor
  · intro h
    have hbmcr := (modified_iff fixes_down 0 (fate (afterChip (b (low5 phy)) fs) 0)
      (fate (afterChip (b (low5 phy)) fs) 1)).mp fun y => by
      have hlike := like_withReg (p := b (low5 phy)) chip_ne_bmcr y
      have hy : Kept down ((withReg _ _ y).reg _) ((prepared _ _ _).reg _) := h _ hlike .bmcr
      rwa [prepared_bmcr, configured_reg chip_ne_bmcr.symm, withReg_self,
        (afterChip_like hlike).1] at hy
    have hcontrol := (modified_iff fixes_manualMdi (configuredVal (b (low5 phy)) fs)
      (fate (afterChip (b (low5 phy)) fs) 10) (fate (afterChip (b (low5 phy)) fs) 11)).mp fun y => by
      have hlike := like_withReg (p := b (low5 phy)) chip_ne_control y
      have hy : Kept manualMdi ((withReg _ _ y).reg _) ((prepared _ _ _).reg _) :=
        h _ hlike .functionControl
      rwa [prepared_control, configured_reg chip_ne_control.symm, withReg_self,
        (afterChip_like hlike).1, (afterChip_like hlike).2] at hy
    have hclear : Clear (b (low5 phy)) 0x8021 (Fates.of ((afterChip (b (low5 phy)) fs).drop 2)) ∧
        Clear (stored (b (low5 phy)) mdioMmdAn 0x8021 (UInt16.ofNat psgmiiStPktCount)
          (Fates.of ((afterChip (b (low5 phy)) fs).drop 2))) 0x8062
          (Fates.of ((afterChip (b (low5 phy)) fs).drop 6)) := by
      by_contra hn
      obtain ⟨w, hw⟩ := counter_of_not_clear_two hn psgmiiStPktSize
      refine fixes_id.not_kept (F := fun _ => w) (v := w) (w := w) (fun _ => Or.inl rfl) fun y => ?_
      have hlike := like_withCounter (p := b (low5 phy)) y
      have hy : Kept (fun v => v) (counter (withCounter _ y)) (counter (prepared _ _ _)) :=
        h _ hlike .crcPacketCounter
      unfold prepared at hy
      rwa [modified_counter, (afterChip_like hlike).1, hw _ (hpre _ hlike.1 _ _).1,
        counter_withCounter] at hy
    exact ⟨hbmcr, hclear.1, hclear.2, hcontrol⟩
  · intro h q hq r
    obtain ⟨hch, hval⟩ : afterChip q fs = afterChip (b (low5 phy)) fs ∧
        configuredVal q fs = configuredVal (b (low5 phy)) fs := afterChip_like hq
    cases r with
    | bmcr =>
      change Kept down _ ((prepared _ _ _).reg _)
      rw [prepared_bmcr, configured_reg chip_ne_bmcr.symm, hch]
      exact (modified_iff fixes_down _ _ _).mpr h.bmcr _
    | chipConfiguration =>
      change Kept mediaPage _ ((prepared _ _ _).reg _)
      rw [prepared_chip]
      exact configured_chip
    | functionControl =>
      change Kept manualMdi _ ((prepared _ _ _).reg _)
      rw [prepared_control, configured_reg chip_ne_control.symm, hch]
      exact (modified_iff fixes_manualMdi _ _ _).mpr h.control _
    | crcPacketCounter =>
      left
      change counter (prepared _ _ _) = counter q
      unfold prepared
      obtain ⟨hal, hcount⟩ := hpre q hq.1 (fate (afterChip q fs) 0) (fate (afterChip q fs) 1)
      rw [modified_counter, counter_stored hal.stored, hch, if_neg h.size.2, if_neg h.size.1]
      rw [hch] at hal hcount
      rw [counter_stored hal, if_neg h.count.2, if_neg h.count.1, hcount]

/-- **When the registers survive a call**, whatever becomes of its transactions and whatever earlier
accesses left. -/
theorem rmw_survives_iff (c : RmwCall) (phy : UInt8) (fs : List Fate) (b : Phys) :
    Survives c phy fs b ↔ SurvivesWhen (b (low5 phy)) fs c := by
  cases c with
  | powerDown => exact survives_powerDown
  | prepare => exact survives_prepare
  | recover => exact survives_recover
  | startTraffic => exact survives_startTraffic

/-- PHYs that are up, with a chip configuration of 0x8123. -/
def upAndRunning : Phys := fun _ => ⟨0, fun _ => 0, fun _ _ => 0, fun r =>
  if r = low5 miiBmcr then 0x9040 else if r = low5 qca807xChipConfiguration then 0x8123
  else if r = low5 qca807xFunctionControl then 0x6860 else 0⟩

/-- If the read is lost, BMCR becomes 0x0800; and if only the read of FUNCTION_CONTROL is, it is made
of the chip configuration. -/
theorem rmw_fails :
    (RmwCall.powerDown.leaves (upAndRunning 0) [.lost]).reg (low5 miiBmcr) = 0x0800 ∧
    ¬Survives .powerDown 0 [.lost] upAndRunning ∧
    (RmwCall.prepare.leaves (upAndRunning 0) (List.replicate 12 .ok ++ [.lost])).reg
      (low5 qca807xFunctionControl) = 0x8101 ∧
    ¬Survives .prepare 0 (List.replicate 12 .ok ++ [.lost]) upAndRunning := by
  refine ⟨by decide, fun h => ?_, by decide, fun h => ?_⟩
  · have hk := survives_iff _ |>.mp h (upAndRunning 0) ⟨⟨rfl, rfl⟩, rfl⟩ .bmcr
    exact absurd hk (by decide)
  · have hk := survives_iff _ |>.mp h (upAndRunning 0) ⟨⟨rfl, rfl⟩, rfl⟩ .functionControl
    exact absurd hk (by decide)

/-- Every run of a call on the controller is one of these. -/
theorem wire_rmw (c : RmwCall) (phy : UInt8) {s s' : Ctl Phys}
    {l : List (MdioOp × Ctl Phys)}
    (hr : Run (mdio onPhys) s (onWire (c.prog phy)) l s' (.ret ())) :
    ∃ fs, settled s' = Function.update (settled s) (low5 phy)
      (c.leaves (settled s (low5 phy)) fs) := by
  obtain ⟨fs, hfs⟩ := wire_run hr
  refine ⟨fs, ?_⟩
  rw [← exec_prog, hfs]

end Ipq4019.Psgmii.Rmw
