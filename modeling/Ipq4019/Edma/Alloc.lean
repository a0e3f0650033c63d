import Ipq4019.Edma.Driver

/-!
# The EDMA rings: allocation

`edma_alloc_rings` of `ipq4019.c`: beside the accesses of the other functions it takes blocks from the
allocator, clears them, and fills the table of the receive buffers.
-/

namespace Ipq4019.Edma.Alloc

open Ipq4019.Lib.Interleave Ipq4019.Lib.Interleave.Prog Ipq4019.Edma.Driver

inductive AllocOp
  | edma (o : EdmaOp)
  | xmemalign (align size : ℕ)
  | clear (a : UInt32) (n : ℕ)
  | setNetRxPacket (i : ℕ) (a : UInt32)

/-- What each access returns. -/
def AllocOp.Res : AllocOp → Type
  | .edma o => o.Res
  | .xmemalign _ _ => UInt32
  | _ => Unit

abbrev allocSig : Sig := ⟨AllocOp, AllocOp.Res⟩

/-- A piece of the driver. -/
abbrev AllocDrv (α : Type) := Prog allocSig α

/-- The accesses of the other functions. -/
def onAlloc {α : Type} (q : Drv α) : AllocDrv α :=
  q.subst (S := edmaSig) (T := allocSig) fun o => call (S := allocSig) (.edma o)

abbrev xmemalign (align size : ℕ) : AllocDrv UInt32 := call (S := allocSig) (.xmemalign align size)
/-- `memset(a, 0, n)` -/
abbrev clear (a : UInt32) (n : ℕ) : AllocDrv Unit := call (S := allocSig) (.clear a n)
/-- `net_rx_packets[i] = a` -/
abbrev setNetRxPacket (i : ℕ) (a : UInt32) : AllocDrv Unit :=
  call (S := allocSig) (.setNetRxPacket i a)

/-- The end of `edma_alloc_rings`. -/
def resetIndices : Drv Unit := do
  modDev fun p => { p with tpdTail := 0 }
  modDev fun p => { p with tpdHead := 0 }
  modDev fun p => { p with rfdTail := 0 }
  modDev fun p => { p with rfdHead := 0 }

/-- The loop of `edma_alloc_rings`, with `n` buffers left from `i` on, and what follows it. -/
def allocBufs (c : Platform) : (n i : ℕ) → AllocDrv Int
  | 0, _ => do
    onAlloc resetIndices
    return 0
  | n + 1, i => do
    let a ← xmemalign c.dcacheLineBytes edmaRxBufSize
    setNetRxPacket i a
    if a = 0 then return -1
    else allocBufs c n (i + 1)

def edmaAllocRings (c : Platform) : AllocDrv Int := do
  let cl := c.dcacheLineBytes
  let tpdRing ← xmemalign cl (alignUp (noOfTxDesc * sizeofEdmaTpd) cl)
  onAlloc (modDev fun p => { p with tpdRing := tpdRing })
  let rfdRing ← xmemalign cl (alignUp (noOfRxDesc * sizeofEdmaRfd) cl)
  onAlloc (modDev fun p => { p with rfdRing := rfdRing })
  if tpdRing = 0 ∨ rfdRing = 0 then return -1
  else do
    clear tpdRing (noOfTxDesc * sizeofEdmaTpd)
    clear rfdRing (noOfRxDesc * sizeofEdmaRfd)
    allocBufs c noOfRxDesc 0

end Ipq4019.Edma.Alloc
