import Ipq4019.Lib.Interleave

/-!
# MDIO: the driver's code

`ipq4019_mdio.c` in two layers.  `ipq4019_mdio_read` and `ipq4019_mdio_write` are programs over the
accesses to the controller's registers; the MMD helpers are programs over transactions, that is, over
the calls of those two.  `onWire` puts the one layer on top of the other.  The console output is left
out, but for the message of the timeout, which tells the two ways out of the wait loop apart.
-/

namespace Ipq4019.Mdio.Driver

open Ipq4019.Lib.Interleave Ipq4019.Lib.Interleave.Prog

/-! ### The header -/

def mdioCmdAccessBusy : UInt32 := (1 : UInt32) <<< 16
def mdioCmdAccessStart : UInt32 := (1 : UInt32) <<< 8
def mdioCmdAccessCodeRead : UInt32 := 0
def mdioCmdAccessCodeWrite : UInt32 := 1

def mdioBusyTimeoutUs : ℕ := 100000
def mdioPollUs : ℕ := 10

def miiMmdCtrl : UInt8 := 0x0d
def miiMmdData : UInt8 := 0x0e
def mmdCtrlData : UInt16 := 0x4000

/-- The controller's registers that a transaction uses. -/
inductive MdioReg
  | addr | dataWrite | dataRead | cmd
  deriving DecidableEq

/-- Their offsets from `IPQ4019_MDIO_BASE`. -/
def MdioReg.offset : MdioReg → UInt32
  | .addr => 0x44
  | .dataWrite => 0x48
  | .dataRead => 0x4c
  | .cmd => 0x50

/-! ### Accesses to the controller -/

inductive MdioOp
  | readl (r : MdioReg)
  | writel (v : UInt32) (r : MdioReg)
  | udelay (us : ℕ)
  | busyTimeout
  deriving DecidableEq

/-- What each access returns. -/
def MdioOp.Res : MdioOp → Type
  | .readl _ => UInt32
  | _ => Unit

abbrev mdioSig : Sig := ⟨MdioOp, MdioOp.Res⟩

/-- A piece of the driver, on the controller. -/
abbrev Wire (α : Type) := Prog mdioSig α

abbrev readl (r : MdioReg) : Wire UInt32 := call (S := mdioSig) (.readl r)
abbrev writel (v : UInt32) (r : MdioReg) : Wire Unit := call (S := mdioSig) (.writel v r)
abbrev udelay (us : ℕ) : Wire Unit := call (S := mdioSig) (.udelay us)
/-- The message of the timeout. -/
abbrev busyTimeout : Wire Unit := call (S := mdioSig) .busyTimeout

/-- The loop of `mdio_wait_busy`, with `n` polls left. -/
def pollBusy : ℕ → Wire Int
  | 0 => do
    busyTimeout
    return -1
  | n + 1 => do
    let r ← readl .cmd
    if r &&& mdioCmdAccessBusy = 0 then return 0
    else do
      udelay mdioPollUs
      pollBusy n

def mdioWaitBusy : Wire Int := pollBusy (mdioBusyTimeoutUs / mdioPollUs)

/-- The word for the address register. -/
def addrWord (phy reg : UInt8) : UInt32 := phy.toUInt32 <<< 8 ||| reg.toUInt32

/-- The part of `ipq4019_mdio_read` from the second wait on. -/
def endRead (val : UInt16) : Wire (Int × UInt16) := do
  let r ← mdioWaitBusy
  if r ≠ 0 then return (-1, val)
  else do
    let d ← readl .dataRead
    return (0, (d &&& 0xffff).toUInt16)

/-- The part of `ipq4019_mdio_read` after the first wait. -/
def startRead (phy reg : UInt8) (val : UInt16) : Wire (Int × UInt16) := do
  writel (addrWord phy reg) .addr
  writel (mdioCmdAccessStart ||| mdioCmdAccessCodeRead) .cmd
  endRead val

/-- The value is the result and what `*val` holds then; `val` is what it held before. -/
def ipq4019MdioRead (phy reg : UInt8) (val : UInt16) : Wire (Int × UInt16) := do
  let r ← mdioWaitBusy
  if r ≠ 0 then return (-1, val)
  else startRead phy reg val

/-- The part of `ipq4019_mdio_write` after the first wait. -/
def startWrite (phy reg : UInt8) (val : UInt16) : Wire Int := do
  writel (addrWord phy reg) .addr
  writel val.toUInt32 .dataWrite
  writel (mdioCmdAccessStart ||| mdioCmdAccessCodeWrite) .cmd
  mdioWaitBusy

def ipq4019MdioWrite (phy reg : UInt8) (val : UInt16) : Wire Int := do
  let r ← mdioWaitBusy
  if r ≠ 0 then return -1
  else startWrite phy reg val

/-! ### Transactions -/

/-- A call of `ipq4019_mdio_read` or of `ipq4019_mdio_write`. -/
inductive BusOp
  | read (phy reg : UInt8) (val : UInt16)
  | write (phy reg : UInt8) (val : UInt16)

/-- What each call returns; a read also what `*val` holds then. -/
def BusOp.Res : BusOp → Type
  | .read _ _ _ => Int × UInt16
  | .write _ _ _ => Int

abbrev busSig : Sig := ⟨BusOp, BusOp.Res⟩

/-- A piece of the driver, on the transactions. -/
abbrev Bus (α : Type) := Prog busSig α

abbrev mdioRead (phy reg : UInt8) (val : UInt16) : Bus (Int × UInt16) :=
  call (S := busSig) (.read phy reg val)
abbrev mdioWrite (phy reg : UInt8) (val : UInt16) : Bus Int :=
  call (S := busSig) (.write phy reg val)

/-- The calls, carried out on the controller. -/
def wireOp : (o : BusOp) → Wire o.Res
  | .read phy reg val => ipq4019MdioRead phy reg val
  | .write phy reg val => ipq4019MdioWrite phy reg val

def onWire {α : Type} (q : Bus α) : Wire α := q.subst (S := busSig) (T := mdioSig) wireOp

/-! ### The MMD helpers -/

def ipq4019PhyReadMmd (phy devad : UInt8) (reg : UInt16) : Bus UInt16 := do
  let v : UInt16 := 0
  let _ ← mdioWrite phy miiMmdCtrl devad.toUInt16
  let _ ← mdioWrite phy miiMmdData reg
  let _ ← mdioWrite phy miiMmdCtrl (mmdCtrlData ||| devad.toUInt16)
  let r ← mdioRead phy miiMmdData v
  return r.2

def ipq4019PhyWriteMmd (phy devad : UInt8) (reg val : UInt16) : Bus Unit := do
  let _ ← mdioWrite phy miiMmdCtrl devad.toUInt16
  let _ ← mdioWrite phy miiMmdData reg
  let _ ← mdioWrite phy miiMmdCtrl (mmdCtrlData ||| devad.toUInt16)
  let _ ← mdioWrite phy miiMmdData val

end Ipq4019.Mdio.Driver
