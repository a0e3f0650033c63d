import Ipq4019.Edma.Alloc
import Ipq4019.Ess.Driver
import Ipq4019.Psgmii.Driver

/-!
# The network device: the driver's code

The bring-up and the life cycle in `ipq4019.c`: `ipq4019_eth_init`, `ipq4019_net_poller`,
`ipq4019_eth_start` and `ipq4019_phy_check_link`.  A device is named by its place in the order of
allocation.  The console output is left out, with the registers read only to be printed and the flag
`link_logged`.
-/

namespace Ipq4019.Eth.Driver

open Ipq4019.Lib.Interleave Ipq4019.Lib.Interleave.Prog
open Ipq4019.Mdio.Driver (Bus BusOp MdioReg mdioRead)
open Ipq4019.Chip.Access (Soc SocOp socSig readl writel mdelay onSoc)
open Ipq4019.Ess.Driver (ipq4019EssBase essSwitchInit essSwitchDisableLookup essSwitchEnableLookup)
open Ipq4019.Psgmii.Driver (qca807xPhySpecific qca807xPhySpecificLink ipq4019NumPortPhy)
open Ipq4019.Psgmii.Driver (ipq4019GccBase gccEssBcr gccEssBcrBlkAres)
open Ipq4019.Edma.Driver (Platform Drv EdmaOp RecvOut edmaInitDesc edmaInitRfdRing)
open Ipq4019.Edma.Driver (ipq4019EthSend ipq4019EthRecv)
open Ipq4019.Edma.Alloc

/-! ### The header -/

def ipq4019EdmaBase : UInt32 := 0x0c080000
def ipq4019MdioBase : UInt32 := 0x00090000

def ipq4019EdmaRssTypeNone : UInt32 := 0x1
def edmaRegTxqCtrl : UInt32 := 0x404
def edmaTxqCtrlTxqEn : UInt32 := 0x20
def edmaTxqCtrlTpdBurstEn : UInt32 := 0x100
def edmaTxqNumTpdBurstShift : UInt32 := 0
def edmaTxqTxfBurstNumShift : UInt32 := 16
def edmaTxfBurst : UInt32 := 0x100
def edmaTpdBurst : UInt32 := 5
def edmaRegRssType : UInt32 := 0x894
def edmaRfdBurst : UInt32 := 8
def edmaRfdThr : UInt32 := 16
def edmaRfdLthr : UInt32 := 0
def edmaRegRxDesc1 : UInt32 := 0xA14
def edmaRxqRfdBurstNumShift : UInt32 := 0
def edmaRxqRfdPfThreshShift : UInt32 := 8
def edmaRxqRfdLowThreshShift : UInt32 := 16
def edmaRegRxqCtrl : UInt32 := 0xA18
def edmaFifoThresh128Byte : UInt32 := 0x0
def edmaRxqCtrlRmvVlan : UInt32 := 0x00000002
def edmaRxqCtrlEn : UInt32 := 0x0000FF00
def regMacCtrl0 : UInt32 := 0xC20
def regMacCtrl1 : UInt32 := 0xC24
def edmaRegRssIdt (x : ℕ) : UInt32 := 0x840 + (UInt32.ofNat x <<< (2 : UInt32))
def edmaNumIdt : ℕ := 16
def edmaRssIdtValue : UInt32 := 0x64206420

def mdioModeReg : UInt32 := 0x40
def mdioModeC45 : UInt32 := (1 : UInt32) <<< 8
def mdioModeDivMask : UInt32 := 0xff
def mdioModeDiv64 : UInt32 := 0x3f

def gccEssCbcrOffset : UInt32 := 0x12010
def gccEssCbcrClkEna : UInt32 := (1 : UInt32) <<< 0
def gccEssPortAresOffset : UInt32 := 0x1200C

def ipq4019TlmmBase : UInt32 := 0x01000000
def tlmmGpioCfg (n : UInt32) : UInt32 := ipq4019TlmmBase + 0x1000 * n
def tlmmGpioInOut (n : UInt32) : UInt32 := ipq4019TlmmBase + 0x1000 * n + 4

def ipq4019EthInitMaxRetries : Int := 3

/-! ### The driver's state and its accesses -/

/-- The six bytes of a MAC address. -/
abbrev UipEthAddr := Vector UInt8 6

/-- The static variables of `ipq4019_net_poller`. -/
structure Poller where
  initted : Int
  retryCount : Int
  gaveUp : Int
  deriving DecidableEq

/-- The accesses: to the rings of a device, to the rest of the chip, to the other fields of a device,
to the static variables, and what the driver calls of the firmware. -/
inductive NicOp
  | ring (p : ℕ) (o : AllocOp)
  | soc (o : SocOp)
  | xzallocDev
  | setMacAddr (p : ℕ) (m : UipEthAddr)
  | getStarted (p : ℕ)
  | setStarted (p : ℕ) (v : Int)
  | getPoller
  | modPoller (f : Poller → Poller)
  | sysinfoMac
  | netAddDevice (p : ℕ)

/-- What each access returns. -/
def NicOp.Res : NicOp → Type
  | .ring _ o => o.Res
  | .soc o => o.Res
  | .xzallocDev => ℕ
  | .getStarted _ => Int
  | .getPoller => Poller
  | .sysinfoMac => UipEthAddr
  | _ => Unit

abbrev nicSig : Sig := ⟨NicOp, NicOp.Res⟩

/-- A piece of the driver. -/
abbrev Nic (α : Type) := Prog nicSig α

/-- What only goes to the rings of a device, or to the rest of the chip. -/
def onRing {α : Type} (p : ℕ) (q : AllocDrv α) : Nic α :=
  q.subst (S := allocSig) (T := nicSig) fun o => call (S := nicSig) (.ring p o)
def onNic {α : Type} (q : Soc α) : Nic α :=
  q.subst (S := socSig) (T := nicSig) fun o => call (S := nicSig) (.soc o)

/-- A zeroed `NetDevice` with a zeroed `IpqEdmaDev`. -/
abbrev xzallocDev : Nic ℕ := call (S := nicSig) .xzallocDev
/-- `p->mac_addr = m` -/
abbrev setMacAddr (p : ℕ) (m : UipEthAddr) : Nic Unit := call (S := nicSig) (.setMacAddr p m)
/-- `p->started` -/
abbrev getStarted (p : ℕ) : Nic Int := call (S := nicSig) (.getStarted p)
abbrev setStarted (p : ℕ) (v : Int) : Nic Unit := call (S := nicSig) (.setStarted p v)
abbrev getPoller : Nic Poller := call (S := nicSig) .getPoller
abbrev modPoller (f : Poller → Poller) : Nic Unit := call (S := nicSig) (.modPoller f)
/-- `lib_sysinfo.macs[0].mac_addr` -/
abbrev sysinfoMac : Nic UipEthAddr := call (S := nicSig) .sysinfoMac
abbrev netAddDevice (p : ℕ) : Nic Unit := call (S := nicSig) (.netAddDevice p)

/-! ### Bring-up of the chip -/

def tlmmCfg (pull func drv oe : UInt32) : UInt32 :=
  (pull &&& 0x3) ||| (func &&& 0xf) <<< (2 : UInt32) ||| (drv &&& 0x7) <<< (6 : UInt32) |||
    (oe &&& 0x1) <<< (9 : UInt32)

def ipq4019MdioPinmuxInit : Soc Unit := do
  writel (tlmmCfg 0 1 3 0) (tlmmGpioCfg 6)
  writel (tlmmCfg 0 1 3 0) (tlmmGpioCfg 7)
  writel (tlmmCfg 0 0 3 1) (tlmmGpioCfg 40)
  writel ((1 : UInt32) <<< 1) (tlmmGpioInOut 40)

def ipq4019EssClockAndResetInit : Soc Unit := do
  let cbcr := ipq4019GccBase + gccEssCbcrOffset
  let bcr := ipq4019GccBase + gccEssBcr
  let pares := ipq4019GccBase + gccEssPortAresOffset
  let v ← readl cbcr
  writel (v ||| gccEssCbcrClkEna) cbcr
  mdelay 10
  writel gccEssBcrBlkAres bcr
  mdelay 10
  writel 0 bcr
  mdelay 10
  let v ← readl pares
  if v &&& 0x3F ≠ 0 then do
    writel (v &&& ~~~0x3F) pares
    mdelay 10

def ipq4019MdioInit : Soc Unit := do
  let modePre ← readl (ipq4019MdioBase + mdioModeReg)
  let modeNew := modePre &&& ~~~(mdioModeC45 ||| mdioModeDivMask) ||| mdioModeDiv64
  writel modeNew (ipq4019MdioBase + mdioModeReg)
  writel 0x1234 (ipq4019MdioBase + MdioReg.addr.offset)

/-! ### Bring-up of the EDMA -/

def edmaStopRxTx (base : UInt32) : Soc Unit := do
  let d ← readl (base + edmaRegRxqCtrl)
  writel (d &&& ~~~edmaRxqCtrlEn) (base + edmaRegRxqCtrl)
  let d ← readl (base + edmaRegTxqCtrl)
  writel (d &&& ~~~edmaTxqCtrlTxqEn) (base + edmaRegTxqCtrl)

def edmaStartRxTx (base : UInt32) : Soc Unit := do
  let d ← readl (base + edmaRegRxqCtrl)
  writel (d ||| edmaRxqCtrlEn) (base + edmaRegRxqCtrl)
  let d ← readl (base + edmaRegTxqCtrl)
  writel (d ||| edmaTxqCtrlTxqEn) (base + edmaRegTxqCtrl)

def edmaConfigure (base : UInt32) : Soc Unit := do
  writel ipq4019EdmaRssTypeNone (base + edmaRegRssType)
  (List.range edmaNumIdt).forM fun i => writel edmaRssIdtValue (base + edmaRegRssIdt i)
  writel (edmaRfdBurst <<< edmaRxqRfdBurstNumShift ||| edmaRfdThr <<< edmaRxqRfdPfThreshShift |||
    edmaRfdLthr <<< edmaRxqRfdLowThreshShift) (base + edmaRegRxDesc1)
  writel (edmaFifoThresh128Byte ||| edmaRxqCtrlRmvVlan) (base + edmaRegRxqCtrl)
  writel (edmaTpdBurst <<< edmaTxqNumTpdBurstShift ||| edmaTxqCtrlTpdBurstEn |||
    edmaTxfBurst <<< edmaTxqTxfBurstNumShift) (base + edmaRegTxqCtrl)

/-- A locally administered address. -/
def localMac : UipEthAddr := #v[0x02, 0x00, 0xc0, 0xff, 0xee, 0x01]

/-- The value is what is left in `enetaddr`. -/
def getEthMacAddress : Nic UipEthAddr := do
  let enetaddr ← sysinfoMac
  return if enetaddr = Vector.replicate 6 0 then localMac else enetaddr

def ipq4019EthWriteHwaddr (base : UInt32) (m : UipEthAddr) : Soc Unit := do
  let hi := m[0].toUInt32 <<< (8 : UInt32) ||| m[1].toUInt32
  let lo := m[2].toUInt32 <<< (24 : UInt32) ||| m[3].toUInt32 <<< (16 : UInt32) |||
    m[4].toUInt32 <<< (8 : UInt32) ||| m[5].toUInt32
  writel lo (base + regMacCtrl0)
  writel hi (base + regMacCtrl1)

/-! ### Bring-up of the device -/

/-- The part of `ipq4019_eth_init` after the allocation of the rings. -/
def initDev (c : Platform) (p : ℕ) (m : UipEthAddr) : Nic Unit := do
  onNic (edmaStopRxTx ipq4019EdmaBase)
  onNic (edmaConfigure ipq4019EdmaBase)
  onRing p (onAlloc (edmaInitDesc c))
  onNic (essSwitchDisableLookup ipq4019EssBase)
  onNic (ipq4019EthWriteHwaddr ipq4019EdmaBase m)

/-- The part of `ipq4019_eth_init` before that. -/
def initChip (p : ℕ) : Nic UipEthAddr := do
  let m ← getEthMacAddress
  setMacAddr p m
  onNic ipq4019MdioPinmuxInit
  onNic ipq4019EssClockAndResetInit
  onNic ipq4019MdioInit
  onNic (essSwitchInit ipq4019EssBase)
  return m

def ipq4019EthInit (c : Platform) : Nic Int := do
  let p ← xzallocDev
  let m ← initChip p
  let r ← onRing p (edmaAllocRings c)
  if r ≠ 0 then return -1
  else do
    initDev c p m
    netAddDevice p
    return 0

/-- The value tells what `ipq4019_eth_init` returned, if it was called. -/
def ipq4019NetPoller (c : Platform) : Nic (Option Int) := do
  let s ← getPoller
  if s.initted ≠ 0 ∨ s.gaveUp ≠ 0 then return none
  else if s.retryCount ≥ ipq4019EthInitMaxRetries then do
    modPoller fun s => { s with gaveUp := 1 }
    return none
  else do
    modPoller fun s => { s with retryCount := s.retryCount + 1 }
    let r ← ipq4019EthInit c
    if r = 0 then modPoller fun s => { s with initted := 1 }
    return some r

/-! ### The device's functions -/

def ipq4019EthStart (c : Platform) (p : ℕ) : Nic Int := do
  onRing p (onAlloc (edmaInitRfdRing c))
  onNic (edmaStartRxTx ipq4019EdmaBase)
  onNic (essSwitchEnableLookup ipq4019EssBase)
  setStarted p 1
  return 0

/-- The loop of `ipq4019_phy_check_link`, with the PHYs still to come; the value is `*ready`. -/
def checkPhys : List ℕ → Int → Bus Int
  | [], ready => return ready
  | i :: is, ready => do
    let v : UInt16 := 0
    let r ← mdioRead (UInt8.ofNat i) qca807xPhySpecific v
    checkPhys is (if r.2 &&& qca807xPhySpecificLink ≠ 0 then 1 else ready)

/-- What a call of `ipq4019_phy_check_link` leaves: its value and `*ready`; and what
`ipq4019_eth_start` returned, if it was called. -/
structure ReadyOut where
  ret : Int
  ready : Int
  start : Option Int
  deriving DecidableEq

/-- The part of `ipq4019_phy_check_link` after the start. -/
def checkLink (start : Option Int) : Nic ReadyOut := do
  let ready ← onNic (onSoc (checkPhys (List.range ipq4019NumPortPhy) 0))
  return ⟨0, ready, start⟩

def ipq4019PhyCheckLink (c : Platform) (p : ℕ) : Nic ReadyOut := do
  let started ← getStarted p
  if started = 0 then do
    let r ← ipq4019EthStart c p
    checkLink (some r)
  else checkLink none

/-! ### The callers -/

/-- A call of the network layer. -/
inductive NicCall
  | poll
  | ready (p : ℕ)
  | send (p : ℕ) (packet : UInt32) (length : UInt16)
  | recv (p : ℕ) (maxlen : Int)

/-- What each call leaves. -/
def NicCall.Out : NicCall → Type
  | .poll => Option Int
  | .ready _ => ReadyOut
  | .send _ _ _ => Int
  | .recv _ _ => RecvOut

def NicCall.prog (c : Platform) : (x : NicCall) → Nic x.Out
  | .poll => ipq4019NetPoller c
  | .ready p => ipq4019PhyCheckLink c p
  | .send p packet length => onRing p (onAlloc (ipq4019EthSend c packet length))
  | .recv p maxlen => onRing p (onAlloc (ipq4019EthRecv maxlen))

end Ipq4019.Eth.Driver
