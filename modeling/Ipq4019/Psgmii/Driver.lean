import Ipq4019.Ess.Driver

/-!
# PSGMII calibration and self-test: the driver's code

`ipq4019_psgmii.c`.  What only goes over MDIO is a program over transactions, the rest one over the
accesses of the board.  The console output is left out.
-/

namespace Ipq4019.Psgmii.Driver

open Ipq4019.Lib.Interleave Ipq4019.Lib.Interleave.Prog
open Ipq4019.Mdio.Driver (Bus mdioRead mdioWrite ipq4019PhyReadMmd ipq4019PhyWriteMmd)
open Ipq4019.Chip.Access Ipq4019.Ess.Driver

/-! ### The header -/

def qca807xChipConfiguration : UInt8 := 0x1f
def qca807xMediaPageSelect : UInt16 := (1 : UInt16) <<< 15
def qca807xPowerDown : UInt16 := (1 : UInt16) <<< 11
def qca807xFunctionControl : UInt8 := 0x10
def qca807xMdiCrossoverModeMask : UInt16 := (3 : UInt16) <<< 5
def qca807xPolarityReversal : UInt16 := (1 : UInt16) <<< 1
def qca807xPhySpecific : UInt8 := 0x11
def qca807xPhySpecificLink : UInt16 := (1 : UInt16) <<< 10
def qca807xMmd7CrcPacketCounter : UInt16 := 0x8029
def qca807xMmd7PacketCounterSelfclr : UInt16 := (1 : UInt16) <<< 1
def qca807xMmd7CrcPacketCounterEn : UInt16 := (1 : UInt16) <<< 0
def qca807xMmd7ValidEgressCounter2 : UInt16 := 0x802e

def mdioMmdPmapmd : UInt8 := 1
def mdioMmdAn : UInt8 := 7

def miiBmcr : UInt8 := 0x00

def ipq4019PsgmiiBase : UInt32 := 0x00098000
def psgmiiphyVcoCalibrationCtrlRegister1 : UInt32 := 0x9c
def psgmiiphyVcoVal : UInt32 := 0x4ada
def psgmiiphyVcoRstVal : UInt32 := 0x0ada
def psgmiiphyVcoCalibrationCtrlRegister2 : UInt32 := 0xa0
def psgmiiphyPllVcoRelatedCtrl : UInt32 := 0x78c
def psgmiiphyPllVcoVal : UInt32 := 0x2803

def ipq4019PhyPsgmiiAddr : UInt8 := 5
def ipq4019NumPortPhy : ℕ := 5

def ipq4019GccBase : UInt32 := 0x01800000
def gccEssBcr : UInt32 := 0x12008
def gccEssBcrBlkAres : UInt32 := (1 : UInt32) <<< 0

def psgmii : UInt32 := ipq4019PsgmiiBase
def psgmiiPhy : UInt8 := ipq4019PhyPsgmiiAddr

def psgmiiStPktCount : ℕ := 4 * 1024
def psgmiiStPktSize : UInt16 := 1504

/-! ### The reset -/

def essReset : Soc Unit := do
  let bcr := ipq4019GccBase + gccEssBcr
  writel gccEssBcrBlkAres bcr
  mdelay 10
  writel 0 bcr
  mdelay 10

/-- A loop that waits for bit 0, with `n` polls left; the value is the loop's counter at its end. -/
def waitBit0 (read : Soc UInt32) : (n i : ℕ) → Soc ℕ
  | 0, i => return i
  | n + 1, i => do
    let val ← read
    if val &&& 0x1 ≠ 0 then return i
    else do
      mdelay 1
      waitBit0 read n (i + 1)

/-- The diagnostic reads of the identifiers. -/
def probeIds : Soc Unit :=
  (List.range (ipq4019PhyPsgmiiAddr.toNat + 1)).forM fun i => do
    let _ ← onSoc (mdioRead (UInt8.ofNat i) 2 0xdead)
    let _ ← onSoc (mdioRead (UInt8.ofNat i) 3 0xdead)

/-- `probeDone` is the static flag; the call leaves it at 1. -/
def qca8075EssReset (probeDone : Int) : Soc Unit := do
  if probeDone = 0 then probeIds
  let _ ← onSoc (mdioWrite psgmiiPhy miiBmcr 0x005b)
  let _ ← onSoc (mdioWrite psgmiiPhy miiBmcr 0x001b)
  let _ ← onSoc (mdioWrite psgmiiPhy miiBmcr 0x005b)
  let _ ← waitBit0 (do
    let v ← onSoc (ipq4019PhyReadMmd psgmiiPhy mdioMmdPmapmd 0x28)
    return v.toUInt32) 100 0
  let _ ← onSoc (mdioWrite psgmiiPhy 0x1a 0x2230)
  essReset
  let _ ← waitBit0 (readl (psgmii + psgmiiphyVcoCalibrationCtrlRegister2)) 100 0
  let _ ← onSoc (mdioWrite psgmiiPhy 0x1a 0x3230)
  let _ ← onSoc (mdioWrite psgmiiPhy miiBmcr 0x005f)

/-! ### The PHYs of the ports -/

def psgmiiStPhyPowerDown (phy : UInt8) : Bus Unit := do
  let val : UInt16 := 0
  let r ← mdioRead phy miiBmcr val
  let val := r.2 ||| qca807xPowerDown
  let _ ← mdioWrite phy miiBmcr val

/-- The part of `psgmii_st_phy_prepare` after the page is selected. -/
def prepareRest (phy : UInt8) (val : UInt16) : Bus Unit := do
  psgmiiStPhyPowerDown phy
  ipq4019PhyWriteMmd phy mdioMmdAn 0x8021 (UInt16.ofNat psgmiiStPktCount)
  ipq4019PhyWriteMmd phy mdioMmdAn 0x8062 psgmiiStPktSize
  -- a failed read leaves the value of the chip configuration in `val`
  let r ← mdioRead phy qca807xFunctionControl val
  let val := r.2 &&& ~~~qca807xMdiCrossoverModeMask
  let val := val &&& ~~~qca807xPolarityReversal
  let _ ← mdioWrite phy qca807xFunctionControl val

def psgmiiStPhyPrepare (phy : UInt8) : Bus Unit := do
  let val : UInt16 := 0
  let r ← mdioRead phy qca807xChipConfiguration val
  let val := r.2
  if val ≠ 0 then do
    let val := val ||| qca807xMediaPageSelect
    let _ ← mdioWrite phy qca807xChipConfiguration val
    prepareRest phy val
  else prepareRest phy val

def psgmiiStPhyRecover (phy : UInt8) : Bus Unit := do
  ipq4019PhyWriteMmd phy mdioMmdAn 0x8021 0x0
  let val ← ipq4019PhyReadMmd phy mdioMmdAn qca807xMmd7CrcPacketCounter
  let val := val &&& ~~~qca807xMmd7PacketCounterSelfclr
  let val := val &&& ~~~qca807xMmd7CrcPacketCounterEn
  ipq4019PhyWriteMmd phy mdioMmdAn qca807xMmd7CrcPacketCounter val
  ipq4019PhyWriteMmd phy mdioMmdAn 0x8020 0x0

def psgmiiStPhyStartTraffic (phy : UInt8) : Bus Unit := do
  let val ← ipq4019PhyReadMmd phy mdioMmdAn qca807xMmd7CrcPacketCounter
  let val := val ||| qca807xMmd7CrcPacketCounterEn
  ipq4019PhyWriteMmd phy mdioMmdAn qca807xMmd7CrcPacketCounter val
  ipq4019PhyWriteMmd phy mdioMmdAn 0x8020 0xa000

def psgmiiStPhyCheckCounters (phy : UInt8) : Bus Int := do
  let txOk ← ipq4019PhyReadMmd phy mdioMmdAn qca807xMmd7ValidEgressCounter2
  return if txOk.toNat = psgmiiStPktCount &&& 0xffff then 1 else 0

def psgmiiStPhyResetLoopback (phy : UInt8) : Bus Unit := do
  let _ ← mdioWrite phy miiBmcr 0x9000
  let _ ← mdioWrite phy miiBmcr 0x4140

def psgmiiStPhyLinkIsUp (phy : UInt8) : Bus Int := do
  let val : UInt16 := 0
  let r ← mdioRead phy qca807xPhySpecific val
  return if r.2 &&& qca807xPhySpecificLink ≠ 0 then 1 else 0

/-! ### The test -/

/-- One round of `psgmii_st_phy_wait`, with the PHYs still to come; the value is `mask`. -/
def waitRound (check : UInt8 → Soc Int) : List ℕ → UInt32 → Soc UInt32
  | [], mask => return mask
  | phy :: phys, mask => do
    let bit := (1 : UInt32) <<< UInt32.ofNat phy
    if mask &&& bit = 0 then waitRound check phys mask
    else do
      let r ← check (UInt8.ofNat phy)
      waitRound check phys (if r ≠ 0 then mask &&& ~~~bit else mask)

/-- The rounds of `psgmii_st_phy_wait`, with `n` left; the value is `mask`. -/
def waitRounds (delay : ℕ) (check : UInt8 → Soc Int) : ℕ → UInt32 → Soc UInt32
  | 0, mask => return mask
  | n + 1, mask => do
    let mask ← waitRound check (List.range ipq4019NumPortPhy) mask
    if mask = 0 then return mask
    else do
      mdelay delay
      waitRounds delay check n mask

def psgmiiStPhyWait (mask : UInt32) (retries : Int) (delay : ℕ) (check : UInt8 → Soc Int) :
    Soc Int := do
  let mask ← waitRounds delay check retries.toNat mask
  return if mask = 0 then 1 else 0

/-- The two checks, as `psgmii_st_phy_wait` calls them. -/
def linkIsUp (phy : UInt8) : Soc Int := onSoc (psgmiiStPhyLinkIsUp phy)
def checkCounters (phy : UInt8) : Soc Int := onSoc (psgmiiStPhyCheckCounters phy)

/-- One PHY in `psgmii_st_run_test_serial`; the value is `result`. -/
def testSerial (i : ℕ) (result : Int) : Soc Int := do
  onSoc (psgmiiStPhyResetLoopback (UInt8.ofNat i))
  let _ ← psgmiiStPhyWait ((1 : UInt32) <<< UInt32.ofNat i) 100 10 linkIsUp
  onSoc (psgmiiStPhyStartTraffic (UInt8.ofNat i))
  let r ← psgmiiStPhyWait ((1 : UInt32) <<< UInt32.ofNat i) 5000 1 checkCounters
  onSoc (psgmiiStPhyPowerDown (UInt8.ofNat i))
  -- `result &= r`; neither is negative
  return ((result.toNat &&& r.toNat : ℕ) : Int)

/-- The loop of `psgmii_st_run_test_serial`, with the PHYs still to come. -/
def testsSerial : List ℕ → Int → Soc Int
  | [], result => return result
  | i :: is, result => do
    let result ← testSerial i result
    if result = 0 then return result
    else testsSerial is result

def psgmiiStRunTestSerial (_phyMask : UInt32) : Soc Int :=
  testsSerial (List.range ipq4019NumPortPhy) 1

def psgmiiStRunTestParallel (phyMask : UInt32) : Soc Int := do
  (List.range ipq4019NumPortPhy).forM fun i => onSoc (psgmiiStPhyResetLoopback (UInt8.ofNat i))
  let _ ← psgmiiStPhyWait phyMask 100 10 linkIsUp
  (List.range ipq4019NumPortPhy).forM fun i => onSoc (psgmiiStPhyStartTraffic (UInt8.ofNat i))
  let result ← psgmiiStPhyWait phyMask 5000 1 checkCounters
  (List.range ipq4019NumPortPhy).forM fun i => onSoc (psgmiiStPhyPowerDown (UInt8.ofNat i))
  return result

/-! ### The self-test -/

def psgmiiAnalogCal : Soc Unit := do
  writel psgmiiphyPllVcoVal (psgmii + psgmiiphyPllVcoRelatedCtrl)
  writel psgmiiphyVcoVal (psgmii + psgmiiphyVcoCalibrationCtrlRegister1)
  mdelay 10
  writel psgmiiphyVcoRstVal (psgmii + psgmiiphyVcoCalibrationCtrlRegister1)

/-- The recovery of one PHY at the end of `ipq4019_psgmii_self_test`. -/
def recoverPhy (phy : UInt8) : Bus Unit := do
  psgmiiStPhyRecover phy
  let _ ← mdioWrite phy qca807xFunctionControl 0x6860
  let _ ← mdioWrite phy miiBmcr 0x9040

/-- The part of `ipq4019_psgmii_self_test` after the calibration. -/
def recoverAll (result : Int) : Soc Int := do
  (List.range ipq4019NumPortPhy).forM fun i => onSoc (recoverPhy (UInt8.ofNat i))
  eswPortLoopbackSetAll 0
  return if result ≠ 0 then 0 else -1

/-- `probeDone` is the static flag of `qca8075_ess_reset`. -/
def ipq4019PsgmiiSelfTest (probeDone : Int) : Soc Int := do
  psgmiiAnalogCal
  (List.range ipq4019NumPortPhy).forM fun i => onSoc (psgmiiStPhyPrepare (UInt8.ofNat i))
  qca8075EssReset probeDone
  psgmiiAnalogCal
  mdelay 10
  -- the result is set, whatever the calibration came to
  let result : Int := 1
  recoverAll result

end Ipq4019.Psgmii.Driver
