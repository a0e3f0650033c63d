import Ipq4019.Lib.Interleave
import Ipq4019.Lib.Ring

/-!
# The EDMA rings: the driver's code

The descriptor rings of `ipq4019.c`: `edma_init_desc`, `edma_init_rfd_ring`, `ipq4019_eth_send` and
`ipq4019_eth_recv`, as programs over the accesses they make: to the EDMA registers, to the driver's
own `IpqEdmaDev`, to the descriptors and buffers shared with the EDMA, and to the cache.  The
console output is left out, with the registers read only to be printed; the message of the TX
timeout stays, since it tells the two ways out of the wait loop apart.
-/

namespace Ipq4019.Edma.Driver

open Ipq4019.Lib.Interleave Ipq4019.Lib.Interleave.Prog Ipq4019.Lib.Ring

/-! ### The header -/

def noOfTxDesc : ℕ := 8
def noOfRxDesc : ℕ := 512
def edmaRxBufSize : ℕ := 2048

def edmaTpdsPerPacket : ℕ := 4
def edmaTpdMinBytes : ℕ := 4
def edmaMinPktSize : ℕ := edmaTpdsPerPacket * edmaTpdMinBytes
def edmaTxCompleteTimeout : ℕ := 1000000

def edmaTpdEopShift : UInt32 := 31
def edmaTpdPortBitmapShift : UInt32 := 18
def edmaPortEnableAll : UInt32 := 0x3E

def edmaTpdRingSizeMask : UInt32 := 0xFFFF
def edmaTpdProdIdxMask : UInt32 := 0xFFFF
def edmaTpdConsIdxShift : UInt32 := 16
def edmaTpdConsIdxMask : UInt32 := 0xFFFF
def edmaLoadPtrShift : UInt32 := 16

def edmaRfdConsIdxShift : UInt32 := 16
def edmaRfdConsIdxMask : UInt32 := 0xFFF
def edmaRfdRingSizeMask : UInt32 := 0xFFF
def edmaRfdRingSizeShift : UInt32 := 0
def edmaRxBufSizeMask : UInt32 := 0xFFFF
def edmaRxBufSizeShift : UInt32 := 16

/-- The EDMA registers of the rings, for transmit queue 0 and receive queue 0. -/
inductive EdmaReg
  | rxSwConsIdxQ | txSwConsIdxQ | txSramPart | txfWaterMark | tpdRingSize | tpdBaseAddrQ | tpdIdxQ
  | rfdBaseAddrQ | rfdIdxQ | rxDesc0
  deriving DecidableEq

/-- Their offsets from `IPQ4019_EDMA_BASE`. -/
def EdmaReg.offset : EdmaReg → UInt32
  | .rxSwConsIdxQ => 0x220
  | .txSwConsIdxQ => 0x240
  | .txSramPart => 0x400
  | .txfWaterMark => 0x408
  | .tpdRingSize => 0x41C
  | .tpdBaseAddrQ => 0x420
  | .tpdIdxQ => 0x460
  | .rfdBaseAddrQ => 0x950
  | .rfdIdxQ => 0x9B0
  | .rxDesc0 => 0xA10

/-- No two of the registers are at one address. -/
theorem EdmaReg.offset_injective : Function.Injective EdmaReg.offset := by
  intro r r' h
  cases r <;> cases r' <;> first | rfl | exact absurd h (by decide)

/-- A transmit packet descriptor. -/
structure EdmaTpd where
  len : UInt16
  svlanTag : UInt16
  word1 : UInt32
  addr : UInt32
  word3 : UInt32
  deriving DecidableEq

/-- The size of a transmit packet descriptor. -/
def sizeofEdmaTpd : ℕ := 16

/-- The size of a receive free descriptor: its one field `buffer_addr`. -/
def sizeofEdmaRfd : ℕ := 4

/-- A receive return descriptor. -/
structure EdmaRrd where
  rrd0 : UInt16
  rrd1 : UInt16
  rrd2 : UInt16
  rrd3 : UInt16
  rrd4 : UInt16
  rrd5 : UInt16
  rrd6 : UInt16
  rrd7 : UInt16
  deriving DecidableEq

def edmaRrdSize : ℕ := 16
def edmaRrd7DescValid : UInt16 := (1 : UInt16) <<< 15

/-- The offsets of the two fields of a receive return descriptor that the driver reads. -/
def offsetofRrd6 : ℕ := 12
def offsetofRrd7 : ℕ := 14

/-! ### The driver's state and its accesses -/

/-- The driver's own state, as far as the rings need it. -/
structure IpqEdmaDev where
  tpdRing : UInt32
  rfdRing : UInt32
  tpdHead : UInt16
  tpdTail : UInt16
  rfdHead : UInt16
  rfdTail : UInt16
  deriving DecidableEq

/-- What the driver uses of the firmware library: the size of a cache line, and the constant
difference between a virtual address and its physical one. -/
structure Platform where
  dcacheLineBytes : ℕ
  virtualOffset : UInt32

/-- Cache lines of 64 bytes, and an identity mapping. -/
def Platform.flat : Platform := ⟨64, 0⟩

def Platform.virtToPhys (c : Platform) (v : UInt32) : UInt32 := v - c.virtualOffset

theorem Platform.virtToPhys_add (c : Platform) (v d : UInt32) :
    c.virtToPhys (v + d) = c.virtToPhys v + d := by
  unfold Platform.virtToPhys; grind

/-- `ALIGN_UP`. -/
def alignUp (n a : ℕ) : ℕ := (n + a - 1) / a * a

/-- The accesses of the driver. -/
inductive EdmaOp
  | readl (r : EdmaReg)
  | writel (v : UInt32) (r : EdmaReg)
  | getDev
  | modDev (f : IpqEdmaDev → IpqEdmaDev)
  | storeTpd (i : UInt16) (t : EdmaTpd)
  | storeRfd (i : ℕ) (bufferAddr : UInt32)
  | netRxPacket (i : ℕ)
  | load16 (a : UInt32)
  | memcpy (src : UInt32) (n : ℕ)
  | flushRange (a : UInt32) (n : ℕ)
  | invalidateRange (a : UInt32) (n : ℕ)
  | dsb
  | udelay (us : ℕ)
  | txTimeout (length : UInt16)

/-- What each access returns. -/
def EdmaOp.Res : EdmaOp → Type
  | .readl _ => UInt32
  | .getDev => IpqEdmaDev
  | .netRxPacket _ => UInt32
  | .load16 _ => UInt16
  | .memcpy _ _ => List UInt8
  | _ => Unit

abbrev edmaSig : Sig := ⟨EdmaOp, EdmaOp.Res⟩

/-- A piece of the driver. -/
abbrev Drv (α : Type) := Prog edmaSig α

abbrev readl (r : EdmaReg) : Drv UInt32 := call (S := edmaSig) (.readl r)
abbrev writel (v : UInt32) (r : EdmaReg) : Drv Unit := call (S := edmaSig) (.writel v r)
abbrev getDev : Drv IpqEdmaDev := call (S := edmaSig) .getDev
abbrev modDev (f : IpqEdmaDev → IpqEdmaDev) : Drv Unit := call (S := edmaSig) (.modDev f)
/-- `p->tpd_ring[i] = t` -/
abbrev storeTpd (i : UInt16) (t : EdmaTpd) : Drv Unit := call (S := edmaSig) (.storeTpd i t)
/-- `p->rfd_ring[i].buffer_addr = a` -/
abbrev storeRfd (i : ℕ) (a : UInt32) : Drv Unit := call (S := edmaSig) (.storeRfd i a)
/-- `net_rx_packets[i]` -/
abbrev netRxPacket (i : ℕ) : Drv UInt32 := call (S := edmaSig) (.netRxPacket i)
abbrev load16 (a : UInt32) : Drv UInt16 := call (S := edmaSig) (.load16 a)
/-- `memcpy` to the caller's buffer; the value is what was copied. -/
abbrev memcpy (src : UInt32) (n : ℕ) : Drv (List UInt8) := call (S := edmaSig) (.memcpy src n)
abbrev flushRange (a : UInt32) (n : ℕ) : Drv Unit := call (S := edmaSig) (.flushRange a n)
abbrev invalidateRange (a : UInt32) (n : ℕ) : Drv Unit := call (S := edmaSig) (.invalidateRange a n)
abbrev dsb : Drv Unit := call (S := edmaSig) .dsb
abbrev udelay (us : ℕ) : Drv Unit := call (S := edmaSig) (.udelay us)
/-- The message of the TX timeout. -/
abbrev txTimeout (length : UInt16) : Drv Unit := call (S := edmaSig) (.txTimeout length)

/-! ### Bring-up of the rings -/

def edmaInitDesc (c : Platform) : Drv Unit := do
  -- TX
  let p ← getDev
  writel (c.virtToPhys p.tpdRing) .tpdBaseAddrQ
  let data ← readl .tpdIdxQ
  let hwCons := (data >>> edmaTpdConsIdxShift) &&& edmaTpdConsIdxMask
  modDev fun p => { p with tpdHead := hwCons.toUInt16 }
  modDev fun p => { p with tpdTail := hwCons.toUInt16 }
  let data := data &&& ~~~edmaTpdProdIdxMask
  let data := data ||| hwCons
  writel data .tpdIdxQ
  writel hwCons .txSwConsIdxQ
  writel (UInt32.ofNat noOfTxDesc &&& edmaTpdRingSizeMask) .tpdRingSize
  -- RX
  writel (c.virtToPhys p.rfdRing) .rfdBaseAddrQ
  let data := (UInt32.ofNat noOfRxDesc &&& edmaRfdRingSizeMask) <<< edmaRfdRingSizeShift
  let data := data ||| (UInt32.ofNat edmaRxBufSize &&& edmaRxBufSizeMask) <<< edmaRxBufSizeShift
  writel data .rxDesc0
  writel 0 .txfWaterMark
  let data ← readl .txSramPart
  let data := data ||| (1 : UInt32) <<< edmaLoadPtrShift
  writel data .txSramPart

/-- The loop of `edma_init_rfd_ring`, with `n` descriptors left from `i` on. -/
def fillRfds (c : Platform) : (n i : ℕ) → Drv Unit
  | 0, _ => return ()
  | n + 1, i => do
    let pkt ← netRxPacket i
    storeRfd i (c.virtToPhys pkt)
    fillRfds c n (i + 1)

def edmaInitRfdRing (c : Platform) : Drv Unit := do
  fillRfds c noOfRxDesc 0
  let p ← getDev
  flushRange p.rfdRing (noOfRxDesc * sizeofEdmaRfd)
  modDev fun p => { p with rfdHead := UInt16.ofNat (noOfRxDesc - 1) }
  modDev fun p => { p with rfdTail := 0 }
  let p ← getDev
  writel p.rfdHead.toUInt32 .rfdIdxQ

/-! ### Sending -/

/-- One round of the loop that fills the descriptors of a packet; the loop carries `first` and
`len`. -/
def fillTpd (c : Platform) (packet : UInt32) (length : UInt16) (s : UInt32 × Int) (i : ℕ) :
    Drv (UInt32 × Int) := do
  let frag := packet + UInt32.ofNat (i * edmaTpdMinBytes)
  let p ← getDev
  let tpd := p.tpdHead
  let first := if i = 0 then p.tpdRing + UInt32.ofNat (sizeofEdmaTpd * tpd.toNat) else s.1
  modDev fun p => { p with tpdHead := bump noOfTxDesc p.tpdHead }
  storeTpd tpd
    { svlanTag := 0
      addr := c.virtToPhys frag
      word3 := edmaPortEnableAll <<< edmaTpdPortBitmapShift
      -- the last descriptor gets `length`, not the running `len`
      len := if i < edmaTpdsPerPacket - 1 then UInt16.ofNat edmaTpdMinBytes else length
      word1 := if i < edmaTpdsPerPacket - 1 then 0 else (1 : UInt32) <<< edmaTpdEopShift }
  return (first, s.2 - edmaTpdMinBytes)

/-- The wait for the EDMA, with `n` polls left; the value is the loop's counter at its end. -/
def txWait : (n i : ℕ) → Drv ℕ
  | 0, i => return i
  | n + 1, i => do
    let r ← readl .tpdIdxQ
    let prod := r &&& edmaTpdProdIdxMask
    let cons := (r >>> edmaTpdConsIdxShift) &&& edmaTpdConsIdxMask
    if cons = prod then return i
    else do
      udelay 1
      txWait n (i + 1)

/-- The part of `ipq4019_eth_send` after the doorbell. -/
def txComplete (length : UInt16) : Drv Int := do
  let i ← txWait edmaTxCompleteTimeout 0
  if i = edmaTxCompleteTimeout then txTimeout length
  let p ← getDev
  writel p.tpdHead.toUInt32 .txSwConsIdxQ
  return 0

/-- The part of `ipq4019_eth_send` before the doorbell. -/
def txFill (c : Platform) (packet : UInt32) (length : UInt16) : Drv Unit := do
  flushRange packet (alignUp length.toNat c.dcacheLineBytes)
  let s ← (List.range edmaTpdsPerPacket).foldlM (fillTpd c packet length) (0, (length.toNat : Int))
  dsb
  flushRange s.1 (edmaTpdsPerPacket * sizeofEdmaTpd)

def ipq4019EthSend (c : Platform) (packet : UInt32) (length : UInt16) : Drv Int := do
  if length.toNat < edmaMinPktSize then return 0
  else do
    txFill c packet length
    let p ← getDev
    writel p.tpdHead.toUInt32 .tpdIdxQ
    txComplete length

/-! ### Receiving -/

/-- What a call of `ipq4019_eth_recv` leaves: its value, `*len`, and the bytes put into `buf`. -/
structure RecvOut where
  ret : Int
  len : UInt16
  buf : List UInt8
  deriving DecidableEq

/-- The recycling of the descriptor at `rfd_tail`, at the end of `ipq4019_eth_recv`. -/
def recycle : Drv Unit := do
  let p ← getDev
  writel p.rfdHead.toUInt32 .rfdIdxQ
  modDev fun p => { p with rfdHead := bump noOfRxDesc p.rfdHead }
  modDev fun p => { p with rfdTail := bump noOfRxDesc p.rfdTail }
  let p ← getDev
  writel p.rfdTail.toUInt32 .rxSwConsIdxQ

/-- The part of `ipq4019_eth_recv` after the test of the valid bit. -/
def rxCopy (maxlen : Int) (rxPkt : UInt32) : Drv RecvOut := do
  let rrd6 ← load16 (rxPkt + UInt32.ofNat offsetofRrd6)
  let length := if (rrd6.toNat : Int) > maxlen then UInt16.ofInt maxlen else rrd6
  let bytes ← memcpy (rxPkt + UInt32.ofNat edmaRrdSize) length.toNat
  recycle
  return ⟨0, length, bytes⟩

/-- The part of `ipq4019_eth_recv` after the test of the index. -/
def rxTake (maxlen : Int) (rfdTail : UInt16) : Drv RecvOut := do
  let rxPkt ← netRxPacket rfdTail.toNat
  invalidateRange rxPkt edmaRxBufSize
  let rrd7 ← load16 (rxPkt + UInt32.ofNat offsetofRrd7)
  if rrd7 &&& edmaRrd7DescValid = 0 then return ⟨0, 0, []⟩
  else rxCopy maxlen rxPkt

def ipq4019EthRecv (maxlen : Int) : Drv RecvOut := do
  let hwTail ← readl .rfdIdxQ
  let hwTail := (hwTail >>> edmaRfdConsIdxShift) &&& edmaRfdConsIdxMask
  let p ← getDev
  if hwTail.toNat = p.rfdTail.toNat then return ⟨0, 0, []⟩
  else rxTake maxlen p.rfdTail

/-! ### The callers -/

/-- A sequence of calls of `ipq4019_eth_send`: packets and lengths. -/
def sends (c : Platform) : List (UInt32 × UInt16) → Drv (List Int)
  | [] => return []
  | x :: xs => do
    let r ← ipq4019EthSend c x.1 x.2
    let rs ← sends c xs
    return r :: rs

/-- A sequence of calls of `ipq4019_eth_recv`. -/
def recvs : List Int → Drv (List RecvOut)
  | [] => return []
  | m :: ms => do
    let r ← ipq4019EthRecv m
    let rs ← recvs ms
    return r :: rs

/-- A call of either kind. -/
inductive NetCall
  | send (packet : UInt32) (length : UInt16)
  | recv (maxlen : Int)

/-- What a call leaves. -/
def NetCall.Out : NetCall → Type
  | .send _ _ => Int
  | .recv _ => RecvOut

def NetCall.prog (c : Platform) : (x : NetCall) → Drv x.Out
  | .send packet length => ipq4019EthSend c packet length
  | .recv maxlen => ipq4019EthRecv maxlen

/-- A sequence of calls of both kinds, with what those of `ipq4019_eth_recv` leave. -/
def netCalls (c : Platform) : List NetCall → Drv (List RecvOut)
  | [] => return []
  | .send packet length :: xs => do
    let _ ← ipq4019EthSend c packet length
    netCalls c xs
  | .recv maxlen :: xs => do
    let r ← ipq4019EthRecv maxlen
    let rs ← netCalls c xs
    return r :: rs

end Ipq4019.Edma.Driver
