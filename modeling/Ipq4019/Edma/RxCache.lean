import Ipq4019.Edma.Alloc
import Ipq4019.Edma.Device
import Ipq4019.Lib.Cache

/-!
# The receive ring behind the cache

The driver's accesses to memory go through the processor's write-back cache, line by line and byte by
byte; the EDMA fetches the descriptors from memory and writes the buffers there.  Between any two of
the driver's steps the cache may evict and fill lines, and the rest of the payload may store to what
was not given to the driver (`CacheStep`).

Memory and cache are named by the processor's addresses.  A half-word or a word is loaded or stored
as its bytes, so that what may happen between two of these includes what may happen.
-/

namespace Ipq4019.Edma.RxCache

open Ipq4019.Lib Ipq4019.Lib.Interleave Ipq4019.Lib.Interleave.Prog Ipq4019.Lib.Memory
open Ipq4019.Lib.Ring Ipq4019.Lib.Cache
open Ipq4019.Edma.Driver Ipq4019.Edma.Alloc

/-! ### The allocator -/

/-- A block of memory. -/
structure Block where
  addr : UInt32
  size : ℕ

def Block.Has (b : Block) (a : UInt32) : Prop :=
  b.addr.toNat ≤ a.toNat ∧ a.toNat < b.addr.toNat + b.size

/-- One block ends before the other begins. -/
def Block.Apart (b b' : Block) : Prop :=
  b.addr.toNat + b.size ≤ b'.addr.toNat ∨ b'.addr.toNat + b'.size ≤ b.addr.toNat

/-- `xmemalign`: where the next block is, after those given out.  A block that is given out is aligned
as asked for, within the address space, and apart from the others. -/
structure Allocator where
  place : List Block → (align size : ℕ) → UInt32
  aligned : ∀ bs align size, align ∣ (place bs align size).toNat
  fits : ∀ bs align size, place bs align size ≠ 0 → (place bs align size).toNat + size < 2 ^ 32
  apart : ∀ bs align size, place bs align size ≠ 0 → ∀ b ∈ bs,
    Block.Apart ⟨place bs align size, size⟩ b

/-! ### The steps of the accesses -/

/-- A word in memory, the least significant byte first. -/
def bytes32 (v : UInt32) : List UInt8 :=
  (List.range 4).map fun i => UInt8.ofNat (v.toNat / 256 ^ i)

/-- A transmit descriptor in memory. -/
def tpdBytes (t : EdmaTpd) : List UInt8 :=
  bytes16 t.len ++ bytes16 t.svlanTag ++ bytes32 t.word1 ++ bytes32 t.addr ++ bytes32 t.word3

inductive CacheOp
  | readl (r : EdmaReg)
  | writel (v : UInt32) (r : EdmaReg)
  | getDev
  | modDev (f : IpqEdmaDev → IpqEdmaDev)
  | netRxPacket (i : ℕ)
  | setNetRxPacket (i : ℕ) (a : UInt32)
  | xmemalign (align size : ℕ)
  | loadByte (a : UInt32)
  | storeByte (a : UInt32) (b : UInt8)
  | cleanInvalidateLine (k : ℕ)
  | invalidateLine (k : ℕ)
  | pause

/-- What each of them returns. -/
def CacheOp.Res : CacheOp → Type
  | .readl _ => UInt32
  | .getDev => IpqEdmaDev
  | .netRxPacket _ => UInt32
  | .xmemalign _ _ => UInt32
  | .loadByte _ => UInt8
  | _ => Unit

abbrev cacheSig : Sig := ⟨CacheOp, CacheOp.Res⟩

abbrev loadByte (a : UInt32) : Prog cacheSig UInt8 := call (S := cacheSig) (.loadByte a)
abbrev storeByte (a : UInt32) (b : UInt8) : Prog cacheSig Unit :=
  call (S := cacheSig) (.storeByte a b)

def storeBytes (a : UInt32) : List UInt8 → Prog cacheSig Unit
  | [] => return ()
  | b :: bs => do
    storeByte a b
    storeBytes (a + 1) bs

def loadBytes (a : UInt32) : ℕ → Prog cacheSig (List UInt8)
  | 0 => return []
  | n + 1 => do
    let b ← loadByte a
    let bs ← loadBytes (a + 1) n
    return b :: bs

variable (c : Platform)

/-- The line of an address. -/
def lineOf (a : UInt32) : ℕ := a.toNat / c.dcacheLineBytes

/-- The lines of a range, from the one of its first byte on. -/
def linesOf (a : UInt32) (n : ℕ) : List ℕ :=
  let l := c.dcacheLineBytes
  List.range' (a.toNat / l) ((a.toNat + n + l - 1) / l - a.toNat / l)

/-- `dcache_clean_invalidate_by_mva` -/
def cleanInvalidateByMva (a : UInt32) (n : ℕ) : Prog cacheSig Unit :=
  (linesOf c a n).forM fun k => call (S := cacheSig) (.cleanInvalidateLine k)

/-- `dcache_invalidate_by_mva` -/
def invalidateByMva (a : UInt32) (n : ℕ) : Prog cacheSig Unit :=
  (linesOf c a n).forM fun k => call (S := cacheSig) (.invalidateLine k)

/-- An access, step by step. -/
def cachedEdma : (o : EdmaOp) → Prog cacheSig o.Res
  | .readl r => call (S := cacheSig) (.readl r)
  | .writel v r => call (S := cacheSig) (.writel v r)
  | .getDev => call (S := cacheSig) .getDev
  | .modDev f => call (S := cacheSig) (.modDev f)
  | .storeTpd i t => .op (S := cacheSig) .getDev fun p : IpqEdmaDev =>
      storeBytes (p.tpdRing + UInt32.ofNat (sizeofEdmaTpd * i.toNat)) (tpdBytes t)
  | .storeRfd i a => .op (S := cacheSig) .getDev fun p : IpqEdmaDev =>
      storeBytes (p.rfdRing + UInt32.ofNat (sizeofEdmaRfd * i)) (bytes32 a)
  | .netRxPacket i => call (S := cacheSig) (.netRxPacket i)
  | .load16 a => .op (S := cacheSig) (.loadByte a) fun lo : UInt8 =>
      .op (S := cacheSig) (.loadByte (a + 1)) fun hi : UInt8 =>
        .ret (lo.toUInt16 ||| (hi.toUInt16 <<< 8))
  | .memcpy src n => loadBytes src n
  | .flushRange a n => cleanInvalidateByMva c a n
  | .invalidateRange a n => invalidateByMva c a n
  | .dsb => call (S := cacheSig) .pause
  | .udelay _ => call (S := cacheSig) .pause
  | .txTimeout _ => call (S := cacheSig) .pause

def cached : (o : AllocOp) → Prog cacheSig o.Res
  | .edma o => cachedEdma c o
  | .xmemalign align size => call (S := cacheSig) (.xmemalign align size)
  | .clear a n => storeBytes a (List.replicate n 0)
  | .setNetRxPacket i a => call (S := cacheSig) (.setNetRxPacket i a)

/-! ### The machine -/

/-- The driver, its blocks, the memory with the cache before it, and the EDMA.  `wrote` is history:
what the EDMA last wrote at an address. -/
structure RxWorld where
  dev : IpqEdmaDev
  netRxPackets : ℕ → UInt32
  blocks : List Block
  cache : Cached UInt32 ℕ UInt8
  rfdProd : Fin 4096
  rfdCons : Fin 4096
  reg : EdmaReg → UInt32
  wrote : UInt32 → Option UInt8

/-- The value of a register. -/
def RxWorld.readReg (s : RxWorld) : EdmaReg → UInt32
  | .rfdIdxQ => UInt32.ofNat (s.rfdCons.val * 65536 + s.rfdProd.val)
  | r => s.reg r

def RxWorld.writeReg (s : RxWorld) (v : UInt32) : EdmaReg → RxWorld
  | .rfdIdxQ => { s with rfdProd := Fin.ofNat 4096 v.toNat }
  | r => { s with reg := Function.update s.reg r v }

/-- The allocator gives out a block, or none. -/
def RxWorld.give (s : RxWorld) (a : UInt32) (size : ℕ) : RxWorld :=
  { s with blocks := if a = 0 then s.blocks else ⟨a, size⟩ :: s.blocks }

variable (A : Allocator)

/-- **The meaning of a step.** -/
def step : (o : CacheOp) → RxWorld → o.Res × RxWorld
  | .readl r, s => (s.readReg r, s)
  | .writel v r, s => ((), s.writeReg v r)
  | .getDev, s => (s.dev, s)
  | .modDev f, s => ((), { s with dev := f s.dev })
  | .netRxPacket i, s => (s.netRxPackets i, s)
  | .setNetRxPacket i a, s => ((), { s with netRxPackets := Function.update s.netRxPackets i a })
  | .xmemalign align size, s =>
    (A.place s.blocks align size, s.give (A.place s.blocks align size) size)
  | .loadByte a, s =>
    (view (lineOf c) s.cache a, { s with cache := fill (lineOf c a) s.cache })
  | .storeByte a b, s => ((), { s with cache := store (lineOf c) a b s.cache })
  | .cleanInvalidateLine k, s => ((), { s with cache := evict (lineOf c) k s.cache })
  | .invalidateLine k, s => ((), { s with cache := invalidate k s.cache })
  | .pause, s => ((), s)

/-- The EDMA has the descriptor of the slot: it is one of those from the consumer index on up to the
producer index. -/
def Owned (s : RxWorld) (j : ℕ) : Prop :=
  ∃ d < ahead noOfRxDesc s.rfdCons.val s.rfdProd.val, j = (s.rfdCons.val + d) % noOfRxDesc

/-- The descriptor of a slot, as it is in memory. -/
def RxWorld.rfd (s : RxWorld) (j : ℕ) : UInt32 :=
  let byte i := (s.cache.mem (s.dev.rfdRing + UInt32.ofNat (sizeofEdmaRfd * j + i))).toNat
  UInt32.ofNat (byte 0 + 256 * (byte 1 + 256 * (byte 2 + 256 * byte 3)))

/-- The byte `i` of the buffer in the descriptor of the slot. -/
def RxWorld.target (s : RxWorld) (j i : ℕ) : UInt32 := s.rfd j + c.virtualOffset + UInt32.ofNat i

/-- The EDMA writes a byte. -/
def RxWorld.dma (s : RxWorld) (a : UInt32) (b : UInt8) : RxWorld :=
  { s with cache := Cache.dma a b s.cache, wrote := Function.update s.wrote a (some b) }

/-- The EDMA's consumer index moves past a descriptor. -/
def RxWorld.advance (s : RxWorld) : RxWorld :=
  { s with rfdCons := ⟨(s.rfdCons.val + 1) % noOfRxDesc,
      (Nat.mod_lt _ (by decide)).trans (by decide : noOfRxDesc < 4096)⟩ }

/-- What an eviction of the line would write back over the EDMA's bytes is these bytes. -/
def Harmless (s : RxWorld) (k : ℕ) : Prop :=
  Dirty s.cache k → ∀ a v, lineOf c a = k → s.wrote a = some v → view (lineOf c) s.cache a = v

/-- **What goes on beside the driver**: evictions, which are harmless if `careful` holds; fills; stores
to what was not given out; writes of the EDMA to the buffers in the descriptors it has, in any order,
and the steps of its index. -/
inductive CacheStep (careful : Prop) : RxWorld → RxWorld → Prop
  | evict {s : RxWorld} (k : ℕ) (h : careful → Harmless c s k) :
      CacheStep careful s { s with cache := evict (lineOf c) k s.cache }
  | fill {s : RxWorld} (k : ℕ) : CacheStep careful s { s with cache := fill k s.cache }
  | store {s : RxWorld} (a : UInt32) (b : UInt8) (h : ∀ x ∈ s.blocks, ¬x.Has a) :
      CacheStep careful s { s with cache := store (lineOf c) a b s.cache }
  | dma {s : RxWorld} (j i : ℕ) (b : UInt8) (hj : Owned s j) (hi : i < edmaRxBufSize) :
      CacheStep careful s (s.dma (s.target c j i) b)
  | advance {s : RxWorld} (h : s.rfdCons ≠ s.rfdProd) : CacheStep careful s s.advance

theorem CacheStep.mono {careful careful' : Prop} {s s' : RxWorld} (h : CacheStep c careful s s')
    (hc : careful' → careful) : CacheStep c careful' s s' := by
  cases h with
  | evict k h => exact .evict k fun h' => h (hc h')
  | fill k => exact .fill k
  | store a b h => exact .store a b h
  | dma j i b hj hi => exact .dma j i b hj hi
  | advance h => exact .advance h

def rxCache (careful : Prop) : Machine cacheSig RxWorld where
  step := step c A
  env := CacheStep c careful

/-! ### Runs -/

/-- The EDMA is idle, its index is in the ring, and it has written nothing.  The cache is in any
state. -/
structure Start (s : RxWorld) : Prop where
  idle : s.rfdProd = s.rfdCons
  cons : s.rfdCons.val < noOfRxDesc
  wrote : ∀ a, s.wrote a = none

/-- The ring is handed over, and calls of `ipq4019_eth_recv` follow. -/
def serve (ms : List Int) : Prog cacheSig (List RecvOut) := do
  (edmaInitRfdRing c).subst (S := edmaSig) (T := cacheSig) (cachedEdma c)
  (recvs ms).subst (S := edmaSig) (T := cacheSig) (cachedEdma c)

/-- **The receive path from the allocation on.** -/
def session (ms : List Int) : Prog cacheSig (List RecvOut) := do
  let r ← (edmaAllocRings c).subst (S := allocSig) (T := cacheSig) (cached c)
  if r = 0 then serve c ms
  else return []

/-- The buffer at the tail. -/
def tailBuf (s : RxWorld) : UInt32 := s.netRxPackets s.dev.rfdTail.toNat

/-- **A right read**: a byte of the buffer at the tail that the EDMA has written is read as it wrote
it. -/
def RightRead : CacheOp → RxWorld → Prop
  | .loadByte a, s => ∀ i < edmaRxBufSize, a = tailBuf s + UInt32.ofNat i →
      ∀ v, s.wrote a = some v → view (lineOf c) s.cache a = v
  | _, _ => True

end Ipq4019.Edma.RxCache
