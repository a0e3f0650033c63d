import Ipq4019.Mdio.Call
import Mathlib.Tactic.NormNum

/-!
# MDIO: PHYs with indirect access

The PHYs on the bus are plain storage with the standard indirect access to their MMD registers: the
clause-22 register 0x0d holds a function and a device address, and 0x0e is the device's address
register or, under the other functions, the data register it names.

* `select_eq`: what the three transactions that select a data register leave.
-/

namespace Ipq4019.Mdio.Bank

open Ipq4019.Lib.Interleave Ipq4019.Lib.Interleave.Prog
open Ipq4019.Mdio.Driver Ipq4019.Mdio.Controller Ipq4019.Mdio.Call

/-! ### One PHY -/

instance neZero32 : NeZero 32 := ⟨by decide⟩

/-- The registers of a PHY: 0x0d, the address register and the data registers of each device, and
the other clause-22 registers. -/
structure Phy where
  ctrl : UInt16
  addr : Fin 32 → UInt16
  mmd : Fin 32 → UInt16 → UInt16
  reg : Fin 32 → UInt16

/-- The function field of 0x0d: 0 for the address register, 1 for data, 2 and 3 for data with
post-increment (3: on writes only). -/
def Phy.func (p : Phy) : ℕ := p.ctrl.toNat / 2 ^ 14

/-- The device field of 0x0d. -/
def Phy.dev (p : Phy) : Fin 32 := ⟨p.ctrl.toNat % 32, Nat.mod_lt _ (by decide)⟩

/-- The post-increment. -/
def Phy.bump (p : Phy) : Phy :=
  { p with addr := Function.update p.addr p.dev (p.addr p.dev + 1) }

/-- A data register takes a word. -/
def Phy.setMmd (p : Phy) (d : Fin 32) (r v : UInt16) : Phy :=
  { p with mmd := Function.update p.mmd d (Function.update (p.mmd d) r v) }

/-- A write of 0x0e. -/
def Phy.storeData (p : Phy) (v : UInt16) : Phy :=
  if p.func = 0 then { p with addr := Function.update p.addr p.dev v }
  else
    let p' := p.setMmd p.dev (p.addr p.dev) v
    if p.func = 1 then p' else p'.bump

/-- A read of 0x0e. -/
def Phy.loadData (p : Phy) : UInt16 × Phy :=
  if p.func = 0 then (p.addr p.dev, p)
  else (p.mmd p.dev (p.addr p.dev), if p.func = 2 then p.bump else p)

def Phy.write (p : Phy) (r : Fin 32) (v : UInt16) : Phy :=
  if r = 0x0d then { p with ctrl := v }
  else if r = 0x0e then p.storeData v
  else { p with reg := Function.update p.reg r v }

def Phy.read (p : Phy) (r : Fin 32) : UInt16 × Phy :=
  if r = 0x0d then (p.ctrl, p)
  else if r = 0x0e then p.loadData
  else (p.reg r, p)

/-! ### The bus -/

/-- The PHYs, by address. -/
abbrev Phys := Fin 32 → Phy

/-- The low five bits: what a frame carries of an address. -/
def low5 (v : UInt8) : Fin 32 := ⟨v.toNat % 32, Nat.mod_lt _ (by decide)⟩

/-- The fields of the controller's address register. -/
def phyField (a : UInt32) : Fin 32 := ⟨a.toNat / 2 ^ 8 % 32, Nat.mod_lt _ (by decide)⟩
def regField (a : UInt32) : Fin 32 := ⟨a.toNat % 32, Nat.mod_lt _ (by decide)⟩

/-- **What a transaction does**, and the word it brings. -/
def perform : Txn → Phys → UInt32 × Phys
  | .read a, b =>
    let r := (b (phyField a)).read (regField a)
    (r.1.toUInt32, Function.update b (phyField a) r.2)
  | .write a d, b =>
    (0, Function.update b (phyField a) ((b (phyField a)).write (regField a) d.toUInt16))

/-- The controller's bus with these PHYs. -/
def onPhys (t : Txn) (b : Phys) (v : UInt32) (b' : Phys) : Prop := (v, b') = perform t b

theorem addrWord_toNat (phy reg : UInt8) :
    (addrWord phy reg).toNat = phy.toNat * 2 ^ 8 + reg.toNat := by
  have hp := phy.toNat_lt
  have hr := reg.toNat_lt
  have hs : (phy.toUInt32 <<< 8 : UInt32).toNat = phy.toNat * 2 ^ 8 := by
    rw [UInt32.toNat_shiftLeft, UInt8.toNat_toUInt32]
    simp [Nat.shiftLeft_eq]
    omega
  rw [addrWord, UInt32.toNat_or, hs, UInt8.toNat_toUInt32, Nat.mul_comm,
    ← Nat.two_pow_add_eq_or_of_lt hr]

theorem phyField_addrWord (phy reg : UInt8) : phyField (addrWord phy reg) = low5 phy := by
  have hr := reg.toNat_lt
  apply Fin.ext
  change (addrWord phy reg).toNat / 2 ^ 8 % 32 = phy.toNat % 32
  rw [addrWord_toNat]
  omega

theorem regField_addrWord (phy reg : UInt8) : regField (addrWord phy reg) = low5 reg := by
  apply Fin.ext
  change (addrWord phy reg).toNat % 32 = reg.toNat % 32
  rw [addrWord_toNat]
  omega

/-- What the transaction of a call brings. -/
theorem perform_read (phy reg : UInt8) (val : UInt16) (b : Phys) :
    perform (txnOf (.read phy reg val)) b = (((b (low5 phy)).read (low5 reg)).1.toUInt32,
      Function.update b (low5 phy) ((b (low5 phy)).read (low5 reg)).2) := by
  unfold perform txnOf
  simp only [phyField_addrWord, regField_addrWord]

theorem perform_write (phy reg : UInt8) (val : UInt16) (b : Phys) :
    perform (txnOf (.write phy reg val)) b = (0, Function.update b (low5 phy)
      ((b (low5 phy)).write (low5 reg) val)) := by
  unfold perform txnOf
  simp only [phyField_addrWord, regField_addrWord, UInt16.toUInt16_toUInt32]

/-- The value a read brings. -/
theorem succeeded_read (phy reg : UInt8) (val v : UInt16) :
    succeeded v.toUInt32 (.read phy reg val) = ((0, v) : Int × UInt16) := by
  have h : (v.toUInt32 &&& 0xffff).toUInt16 = v := by
    apply UInt16.toNat_inj.mp
    rw [UInt32.toNat_toUInt16, UInt32.toNat_and, UInt16.toNat_toUInt32]
    have := v.toNat_lt
    have h16 : v.toNat &&& (0xffff : UInt32).toNat = v.toNat % 2 ^ 16 :=
      Nat.and_two_pow_sub_one_eq_mod v.toNat 16
    rw [h16]
    omega
  change ((0, (v.toUInt32 &&& 0xffff).toUInt16) : Int × UInt16) = _
  rw [h]

/-! ### The frames of an indirect access -/

/-- The words that the driver writes to 0x0d select the device, and the function. -/
theorem ctrl_word (d : UInt8) : d.toUInt16.toNat = d.toNat ∧
    (mmdCtrlData ||| d.toUInt16).toNat = 2 ^ 14 + d.toNat := by
  have hd := d.toNat_lt
  refine ⟨UInt8.toNat_toUInt16 d, ?_⟩
  have h := Nat.two_pow_add_eq_or_of_lt (i := 14) (b := d.toNat) (by omega) 1
  rw [Nat.mul_one] at h
  rw [UInt16.toNat_or, UInt8.toNat_toUInt16, h]
  rfl

variable {p : Phy} {d : UInt8} {r v : UInt16}

/-- The address function is selected, for a device. -/
theorem func_address : Phy.func { p with ctrl := d.toUInt16 } = 0 := by
  have hd := d.toNat_lt
  change d.toUInt16.toNat / 2 ^ 14 = 0
  rw [(ctrl_word d).1]
  omega

theorem dev_address : Phy.dev { p with ctrl := d.toUInt16 } = low5 d := by
  apply Fin.ext
  change d.toUInt16.toNat % 32 = d.toNat % 32
  rw [(ctrl_word d).1]

/-- The data function is selected, for a device. -/
theorem func_data : Phy.func { p with ctrl := mmdCtrlData ||| d.toUInt16 } = 1 := by
  have hd := d.toNat_lt
  change (mmdCtrlData ||| d.toUInt16).toNat / 2 ^ 14 = 1
  rw [(ctrl_word d).2]
  omega

theorem dev_data : Phy.dev { p with ctrl := mmdCtrlData ||| d.toUInt16 } = low5 d := by
  apply Fin.ext
  change (mmdCtrlData ||| d.toUInt16).toNat % 32 = d.toNat % 32
  rw [(ctrl_word d).2]
  omega

@[simp] theorem write_ctrl : p.write (low5 miiMmdCtrl) v = { p with ctrl := v } := rfl

@[simp] theorem write_data : p.write (low5 miiMmdData) v = p.storeData v := rfl

@[simp] theorem read_data : p.read (low5 miiMmdData) = p.loadData := rfl

theorem storeData_address (h : p.func = 0) :
    p.storeData v = { p with addr := Function.update p.addr p.dev v } := by
  unfold Phy.storeData
  rw [if_pos h]

theorem storeData_data (h : p.func = 1) : p.storeData v = p.setMmd p.dev (p.addr p.dev) v := by
  unfold Phy.storeData
  rw [if_neg (by omega), if_pos h]

theorem loadData_data (h : p.func = 1) : p.loadData = (p.mmd p.dev (p.addr p.dev), p) := by
  unfold Phy.loadData
  rw [if_neg (by omega), if_neg (by omega)]

/-- The data register `r` of the device `d` is selected. -/
def Phy.select (p : Phy) (d : UInt8) (r : UInt16) : Phy :=
  { p with ctrl := mmdCtrlData ||| d.toUInt16, addr := Function.update p.addr (low5 d) r }

/-- **Selecting a register.** -/
theorem select_eq : ((((p.write (low5 miiMmdCtrl) d.toUInt16).write (low5 miiMmdData) r).write
    (low5 miiMmdCtrl) (mmdCtrlData ||| d.toUInt16))) = p.select d r := by
  simp only [write_ctrl, write_data]
  rw [storeData_address func_address, dev_address]
  rfl

theorem func_select : (p.select d r).func = 1 :=
  func_data (p := { p with addr := Function.update p.addr (low5 d) r })

theorem dev_select : (p.select d r).dev = low5 d :=
  dev_data (p := { p with addr := Function.update p.addr (low5 d) r })

theorem addr_select : (p.select d r).addr (p.select d r).dev = r := by
  rw [dev_select]
  exact Function.update_self _ _ _

theorem storeData_select : (p.select d r).storeData v = (p.select d r).setMmd (low5 d) r v := by
  rw [storeData_data func_select, addr_select, dev_select]

theorem loadData_select : (p.select d r).loadData = (p.mmd (low5 d) r, p.select d r) := by
  rw [loadData_data func_select, addr_select, dev_select]
  rfl

end Ipq4019.Mdio.Bank
