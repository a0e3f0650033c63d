import Ipq4019.Chip.Access

/-!
# The switch: the driver's code

`ess_switch_init`, `ess_switch_disable_lookup` and `ess_switch_enable_lookup` of `ipq4019.c`, and
`esw_port_loopback_set` and `esw_port_loopback_set_all` of `ipq4019_psgmii.c`.  The former reach the
switch by the pointer in the device, `esw`, the latter by the constant `ess`.
-/

namespace Ipq4019.Ess.Driver

open Ipq4019.Lib.Interleave Ipq4019.Lib.Interleave.Prog
open Ipq4019.Chip.Access

/-! ### The header -/

def ipq4019EssBase : UInt32 := 0x0c000000

def essPortsNum : ℕ := 6
def essGlobalFwCtrl1 : UInt32 := 0x624
def essPort0Status : UInt32 := 0x7c
def essPortSpeed1000 : UInt32 := 3
def essPortTxmacEn : UInt32 := (1 : UInt32) <<< 2
def essPortRxmacEn : UInt32 := (1 : UInt32) <<< 3
def essPortTxFlowEn : UInt32 := (1 : UInt32) <<< 4
def essPortRxFlowEn : UInt32 := (1 : UInt32) <<< 5
def essPortDuplexMode : UInt32 := (1 : UInt32) <<< 6
def essPortLookupCtrl (p : ℕ) : UInt32 := 0x660 + UInt32.ofNat p * 12
def essPortLoopBackEn : UInt32 := (1 : UInt32) <<< 21
def essPortVidMemMask : UInt32 := 0x7f
def essPortHolCtrl0 (p : ℕ) : UInt32 := 0x970 + UInt32.ofNat p * 8
def essPortHolCtrl1 (p : ℕ) : UInt32 := 0x974 + UInt32.ofNat p * 8
def essIngBufNum0Mask : UInt32 := 0xf

def egPortQueueNumShift : UInt32 := 24
def egPri5QueueNumShift : UInt32 := 20
def egPri4QueueNumShift : UInt32 := 16
def egPri3QueueNumShift : UInt32 := 12
def egPri2QueueNumShift : UInt32 := 8
def egPri1QueueNumShift : UInt32 := 4
def egPri0QueueNumShift : UInt32 := 0

/-! ### Port lookup -/

/-- The `vid` of `ess_switch_disable_lookup`. -/
def disabledVid (i : ℕ) : UInt32 :=
  if i = 0 ∨ i = 5 then 0 else 0x1e &&& ~~~((1 : UInt32) <<< UInt32.ofNat i)

def essSwitchDisableLookup (esw : UInt32) : Soc Unit := do
  (List.range essPortsNum).forM fun i => do
    let val ← readl (esw + essPortLookupCtrl i)
    let val := val &&& ~~~essPortVidMemMask
    let val := val ||| (disabledVid i &&& essPortVidMemMask)
    writel val (esw + essPortLookupCtrl i)
  writel 0x3e3e3e (esw + essGlobalFwCtrl1)

/-- The `vid` of `ess_switch_enable_lookup`. -/
def enabledVid (i : ℕ) : UInt32 :=
  if i = 0 then 0x3e
  else if i = 5 then 0x01
  else 0x1f &&& ~~~((1 : UInt32) <<< UInt32.ofNat i)

def essSwitchEnableLookup (esw : UInt32) : Soc Unit := do
  (List.range essPortsNum).forM fun i => do
    let val ← readl (esw + essPortLookupCtrl i)
    let val := val &&& ~~~essPortVidMemMask
    let val := val ||| (enabledVid i &&& essPortVidMemMask)
    writel val (esw + essPortLookupCtrl i)
  writel 0x3f3f3f (esw + essGlobalFwCtrl1)

/-- The word for the first queue register of a port. -/
def holWord (i : ℕ) : UInt32 :=
  let val := (30 : UInt32) <<< egPortQueueNumShift
  let val := if i = 0 ∨ i = 5 then
      val ||| (4 : UInt32) <<< egPri5QueueNumShift ||| (4 : UInt32) <<< egPri4QueueNumShift
    else val
  val ||| (4 : UInt32) <<< egPri3QueueNumShift ||| (4 : UInt32) <<< egPri2QueueNumShift |||
    (4 : UInt32) <<< egPri1QueueNumShift ||| (4 : UInt32) <<< egPri0QueueNumShift

/-- The part of `ess_switch_init` after the ports' lookup. -/
def initQueues (esw : UInt32) : Soc Unit := do
  (List.range essPortsNum).forM fun i => do
    writel (holWord i) (esw + essPortHolCtrl0 i)
    let val ← readl (esw + essPortHolCtrl1 i)
    let val := val &&& ~~~essIngBufNum0Mask
    let val := val ||| (6 &&& essIngBufNum0Mask)
    writel val (esw + essPortHolCtrl1 i)
  mdelay 1
  let val ← readl (esw + essPort0Status)
  let val := val ||| (essPortTxmacEn ||| essPortRxmacEn)
  writel val (esw + essPort0Status)
  writel 0x7f7f7f (esw + essGlobalFwCtrl1)

def essSwitchInit (esw : UInt32) : Soc Unit := do
  writel 0x3e3e3e (esw + essGlobalFwCtrl1)
  let val := essPortSpeed1000 ||| essPortDuplexMode ||| essPortTxFlowEn ||| essPortRxFlowEn
  writel val (esw + essPort0Status)
  (List.range essPortsNum).forM fun i => do
    let val ← readl (esw + essPortLookupCtrl i)
    let val := val &&& ~~~essPortVidMemMask
    writel val (esw + essPortLookupCtrl i)
  initQueues esw

/-! ### Loopback -/

def ess : UInt32 := ipq4019EssBase

def eswPortLoopbackSet (port : ℕ) (enable : Int) : Soc Unit := do
  let t ← readl (ess + essPortLookupCtrl port)
  let t := if enable ≠ 0 then t ||| essPortLoopBackEn else t &&& ~~~essPortLoopBackEn
  writel t (ess + essPortLookupCtrl port)

def eswPortLoopbackSetAll (enable : Int) : Soc Unit :=
  (List.range' 1 (essPortsNum - 1)).forM fun i => eswPortLoopbackSet i enable

end Ipq4019.Ess.Driver
