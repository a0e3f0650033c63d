import Ipq4019.Lib.Memory
import Ipq4019.Edma.Driver

/-!
# The EDMA rings: the device

The memory the driver shares with the EDMA, the EDMA's index registers, and what the EDMA does by
itself: it consumes transmit descriptors (`TxStep`), and it completes receive descriptors
(`RxStep`).  The consumer fields of the index registers belong to the EDMA: a write of the driver
sets only the producer field.

`World` also carries history variables, which no access of the driver reads: what was handed to the
EDMA, and what the EDMA did with it.
-/

namespace Ipq4019.Edma.Device

open Ipq4019.Lib.Interleave Ipq4019.Lib.Memory Ipq4019.Edma.Driver

/-! ### The state -/

/-- The bytes of a receive return descriptor. -/
def rrdBytes (r : EdmaRrd) : List UInt8 :=
  bytes16 r.rrd0 ++ bytes16 r.rrd1 ++ bytes16 r.rrd2 ++ bytes16 r.rrd3 ++ bytes16 r.rrd4 ++
    bytes16 r.rrd5 ++ bytes16 r.rrd6 ++ bytes16 r.rrd7

@[simp] theorem length_rrdBytes (r : EdmaRrd) : (rrdBytes r).length = edmaRrdSize := rfl

/-- The descriptor is marked valid. -/
def Valid (r : EdmaRrd) : Prop := r.rrd7 &&& edmaRrd7DescValid ≠ 0

instance (r : EdmaRrd) : Decidable (Valid r) := by unfold Valid; infer_instance

/-- A completed receive descriptor: its slot, the buffer, and what the EDMA stores there. -/
structure RxEntry where
  slot : ℕ
  addr : UInt32
  rrd : EdmaRrd
  data : List UInt8

/-- The bytes the EDMA stores for an entry: the return descriptor and the frame. -/
def RxEntry.bytes (e : RxEntry) : List UInt8 := rrdBytes e.rrd ++ e.data

/-- The receive buffers: what the allocator returned, blocks without a common byte. -/
structure RxBuffers where
  ptr : ℕ → UInt32
  disjoint : ∀ i < noOfRxDesc, ∀ j < noOfRxDesc, i ≠ j → ∀ x < edmaRxBufSize,
    ∀ y < edmaRxBufSize, ptr i + UInt32.ofNat x ≠ ptr j + UInt32.ofNat y

/-- Buffers one after another. -/
def RxBuffers.block (base : UInt32) : RxBuffers where
  ptr i := base + UInt32.ofNat (i * edmaRxBufSize)
  disjoint := by
    intro i hi j hj hij x hx y hy h
    have hb : UInt32.ofNat (i * edmaRxBufSize + x) = UInt32.ofNat (j * edmaRxBufSize + y) := by
      rw [UInt32.ofNat_add, UInt32.ofNat_add]
      grind
    have hn := congrArg UInt32.toNat hb
    simp only [UInt32.toNat_ofNat', noOfRxDesc, edmaRxBufSize] at *
    omega

instance neZero4096 : NeZero 4096 := ⟨by decide⟩

/-- The EDMA: the fields of its two index registers, the other registers as last written, and the
completed receive descriptors whose write to memory is still under way. -/
structure EdmaHw where
  tpdProd : UInt16
  tpdCons : UInt16
  rfdProd : Fin 4096
  rfdCons : Fin 4096
  reg : EdmaReg → UInt32
  pending : List ℕ

/-- The driver, the memory it shares with the EDMA, the EDMA, and the history. -/
structure World where
  dev : IpqEdmaDev
  tpdRing : ℕ → EdmaTpd
  rfdRing : ℕ → UInt32
  netRxPackets : RxBuffers
  mem : Mem
  hw : EdmaHw
  /-- The slots of the descriptors stored since the last doorbell. -/
  filled : List ℕ
  /-- The slots of the descriptors handed to the EDMA and not consumed, the oldest first. -/
  owned : List ℕ
  /-- The frames described by the chains handed to the EDMA. -/
  sent : List (Option (List UInt8))
  /-- The last wait loop ended by timeout. -/
  timedOut : Bool
  /-- The last range written back to memory. -/
  lastFlush : UInt32 × ℕ
  /-- The receive descriptors the EDMA completed. -/
  stored : List RxEntry
  /-- How many frames the driver copied out. -/
  copied : ℕ
  /-- How many receive descriptors were completed when the driver last read their index. -/
  seen : ℕ

/-- A world before bring-up: empty rings, and an EDMA with the given consumer indices. -/
def World.cold (tpdCons : UInt16) (rfdCons : Fin 4096) (mem : Mem) : World where
  dev := ⟨0x81000000, 0x81001000, 0, 0, 0, 0⟩
  tpdRing _ := ⟨0, 0, 0, 0, 0⟩
  rfdRing _ := 0
  netRxPackets := .block 0x82000000
  mem := mem
  hw := ⟨0, tpdCons, 0, rfdCons, fun _ => 0, []⟩
  filled := []
  owned := []
  sent := []
  timedOut := false
  lastFlush := (0, 0)
  stored := []
  copied := 0
  seen := 0

/-! ### The meaning of the accesses -/

/-- The value of a register. -/
def World.readReg (w : World) : EdmaReg → UInt32
  | .tpdIdxQ => UInt32.ofNat (w.hw.tpdCons.toNat * 65536 + w.hw.tpdProd.toNat)
  | .rfdIdxQ => UInt32.ofNat (w.hw.rfdCons.val * 65536 + w.hw.rfdProd.val)
  | r => w.hw.reg r

/-- **The frame a chain of transmit descriptors describes**: the fragments from slot `i` on, up to
the descriptor with the end-of-packet bit, each of its own length; nothing if none of `n`
descriptors has the bit. -/
def gather (mem : Mem) (ring : ℕ → EdmaTpd) : (n i : ℕ) → Option (List UInt8)
  | 0, _ => none
  | n + 1, i =>
    let frag := read mem (ring i).addr (ring i).len.toNat
    if (ring i).word1 &&& (1 : UInt32) <<< edmaTpdEopShift ≠ 0 then some frag
    else (gather mem ring n ((i + 1) % noOfTxDesc)).map (frag ++ ·)

/-- A write of the producer index hands the descriptors stored since the last one to the EDMA. -/
def World.doorbell (w : World) (v : UInt32) : World :=
  { w with
    hw := { w.hw with tpdProd := v.toUInt16 }
    filled := []
    owned := w.owned ++ w.filled
    sent := match w.filled with
      | [] => w.sent
      | i :: _ => w.sent ++ [gather w.mem w.tpdRing noOfTxDesc i]
    timedOut := false }

/-- A register write. -/
def World.writeReg (w : World) (v : UInt32) : EdmaReg → World
  | .tpdIdxQ => w.doorbell v
  | .rfdIdxQ => { w with hw := { w.hw with rfdProd := ⟨v.toNat % 4096, Nat.mod_lt _ (by decide)⟩ } }
  | r => { w with hw := { w.hw with reg := Function.update w.hw.reg r v } }

/-- The effect of a register read: only the history notes the reads of the receive index. -/
def World.noteRead (w : World) : EdmaReg → World
  | .rfdIdxQ => { w with seen := w.stored.length }
  | _ => w

/-- A range is written back to memory; the shared memory is seen behind the cache. -/
def World.flush (w : World) (a : UInt32) (n : ℕ) : World := { w with lastFlush := (a, n) }

@[simp] theorem World.flush_dev (w : World) (a : UInt32) (n : ℕ) : (w.flush a n).dev = w.dev := rfl

@[simp] theorem World.flush_tpdRing (w : World) (a : UInt32) (n : ℕ) :
    (w.flush a n).tpdRing = w.tpdRing := rfl

@[simp] theorem World.flush_filled (w : World) (a : UInt32) (n : ℕ) :
    (w.flush a n).filled = w.filled := rfl

/-- **The meaning of an access.** -/
def step (c : Platform) : (o : EdmaOp) → World → o.Res × World
  | .readl r, w => (w.readReg r, w.noteRead r)
  | .writel v r, w => ((), w.writeReg v r)
  | .getDev, w => (w.dev, w)
  | .modDev f, w => ((), { w with dev := f w.dev })
  | .storeTpd i t, w =>
    ((), { w with
      tpdRing := Function.update w.tpdRing i.toNat t
      filled := w.filled ++ [i.toNat] })
  | .storeRfd i a, w => ((), { w with rfdRing := Function.update w.rfdRing i a })
  | .netRxPacket i, w => (w.netRxPackets.ptr i, w)
  | .load16 a, w => (read16 w.mem (c.virtToPhys a), w)
  | .memcpy src n, w => (read w.mem (c.virtToPhys src) n, { w with copied := w.copied + 1 })
  | .flushRange a n, w => ((), w.flush a n)
  | .invalidateRange _ _, w => ((), w)
  | .dsb, w => ((), w)
  | .udelay _, w => ((), w)
  | .txTimeout _, w => ((), { w with timedOut := true })

/-! ### The fields of the index registers -/

theorem and_mask16 (x : UInt32) : (x &&& 0xFFFF).toNat = x.toNat % 65536 := by
  rw [UInt32.toNat_and]
  exact Nat.and_two_pow_sub_one_eq_mod x.toNat 16

theorem shiftRight16 (x : UInt32) : (x >>> 16).toNat = x.toNat / 65536 := by
  rw [UInt32.toNat_shiftRight, Nat.shiftRight_eq_div_pow]
  rfl

/-- The consumer field of the transmit index register. -/
theorem tpdCons_field (w : World) :
    (w.readReg .tpdIdxQ >>> edmaTpdConsIdxShift) &&& edmaTpdConsIdxMask = w.hw.tpdCons.toUInt32 := by
  rw [← UInt32.toNat_inj, edmaTpdConsIdxMask, and_mask16, edmaTpdConsIdxShift, shiftRight16]
  simp only [World.readReg, UInt32.toNat_ofNat', UInt16.toNat_toUInt32]
  have := w.hw.tpdCons.toNat_lt
  have := w.hw.tpdProd.toNat_lt
  omega

/-- The producer field of the transmit index register. -/
theorem tpdProd_field (w : World) :
    w.readReg .tpdIdxQ &&& edmaTpdProdIdxMask = w.hw.tpdProd.toUInt32 := by
  rw [← UInt32.toNat_inj, edmaTpdProdIdxMask, and_mask16]
  simp only [World.readReg, UInt32.toNat_ofNat', UInt16.toNat_toUInt32]
  have := w.hw.tpdCons.toNat_lt
  have := w.hw.tpdProd.toNat_lt
  omega

theorem toUInt32_inj {a b : UInt16} : a.toUInt32 = b.toUInt32 ↔ a = b := by
  rw [← UInt32.toNat_inj, ← UInt16.toNat_inj, UInt16.toNat_toUInt32, UInt16.toNat_toUInt32]

/-- The consumer field of the receive index register. -/
theorem rfdCons_field (w : World) :
    ((w.readReg .rfdIdxQ >>> edmaRfdConsIdxShift) &&& edmaRfdConsIdxMask).toNat =
      w.hw.rfdCons.val := by
  have h12 : ∀ x : UInt32, (x &&& 0xFFF).toNat = x.toNat % 4096 := fun x => by
    rw [UInt32.toNat_and]
    exact Nat.and_two_pow_sub_one_eq_mod x.toNat 12
  rw [edmaRfdConsIdxMask, h12, edmaRfdConsIdxShift, shiftRight16]
  simp only [World.readReg, UInt32.toNat_ofNat']
  have := w.hw.rfdCons.isLt
  have := w.hw.rfdProd.isLt
  omega

/-! ### What the EDMA does by itself -/

/-- The EDMA consumes the transmit descriptor at its consumer index. -/
def World.consume (w : World) : World :=
  { w with
    hw := { w.hw with tpdCons := UInt16.ofNat ((w.hw.tpdCons.toNat + 1) % noOfTxDesc) }
    owned := w.owned.tail }

/-- **Transmission**: the EDMA goes on as long as its consumer index is not the producer index. -/
inductive TxStep : World → World → Prop
  | consume {w : World} (h : w.hw.tpdCons ≠ w.hw.tpdProd) : TxStep w w.consume

/-- The entry for the receive descriptor at the EDMA's consumer index. -/
def World.entry (w : World) (rrd : EdmaRrd) (data : List UInt8) : RxEntry :=
  ⟨w.hw.rfdCons.val, w.rfdRing w.hw.rfdCons.val, rrd, data⟩

/-- The EDMA's consumer index moves past a receive descriptor; the write is still under way. -/
def World.advance (w : World) (rrd : EdmaRrd) (data : List UInt8) : World :=
  { w with
    hw := { w.hw with
      rfdCons := ⟨(w.hw.rfdCons.val + 1) % noOfRxDesc,
        (Nat.mod_lt _ (by decide)).trans (by decide : noOfRxDesc < 4096)⟩
      pending := w.hw.pending ++ [w.stored.length] }
    stored := w.stored ++ [w.entry rrd data] }

/-- The write of the entry `i` arrives in memory. -/
def World.land (w : World) (i : ℕ) (e : RxEntry) : World :=
  { w with
    hw := { w.hw with pending := w.hw.pending.erase i }
    mem := write w.mem e.addr e.bytes }

/-- The EDMA completes a receive descriptor, memory first. -/
def World.complete (w : World) (rrd : EdmaRrd) (data : List UInt8) : World :=
  { w with
    hw := { w.hw with
      rfdCons := ⟨(w.hw.rfdCons.val + 1) % noOfRxDesc,
        (Nat.mod_lt _ (by decide)).trans (by decide : noOfRxDesc < 4096)⟩ }
    stored := w.stored ++ [w.entry rrd data]
    mem := write w.mem (w.entry rrd data).addr (w.entry rrd data).bytes }

/-- **Reception** of what `Frame` allows.  The EDMA completes a descriptor whenever its consumer
index is not the producer index; if `defer` holds, the index may also be ahead of the memory. -/
inductive RxStep (Frame : EdmaRrd → List UInt8 → Prop) (defer : Prop) : World → World → Prop
  | complete {w : World} {rrd : EdmaRrd} {data : List UInt8}
      (h : w.hw.rfdCons ≠ w.hw.rfdProd) (hf : Frame rrd data) :
      RxStep Frame defer w (w.complete rrd data)
  | advance {w : World} {rrd : EdmaRrd} {data : List UInt8} (hd : defer)
      (h : w.hw.rfdCons ≠ w.hw.rfdProd) (hf : Frame rrd data) :
      RxStep Frame defer w (w.advance rrd data)
  | land {w : World} {i : ℕ} {e : RxEntry} (h : i ∈ w.hw.pending) (he : w.stored[i]? = some e) :
      RxStep Frame defer w (w.land i e)

/-- The whole EDMA: both directions. -/
def EdmaStep (Frame : EdmaRrd → List UInt8 → Prop) (defer : Prop) (s s' : World) : Prop :=
  RxStep Frame defer s s' ∨ TxStep s s'

/-- The driver beside an EDMA that does what `env` says. -/
def edma (c : Platform) (env : World → World → Prop) : Machine edmaSig World where
  step := step c
  env := env

/-! ### Accesses that do not concern the EDMA -/

/-- The accesses to what only the driver uses. -/
def Local : EdmaOp → Prop
  | .getDev | .modDev _ | .storeTpd _ _ | .netRxPacket _ | .flushRange _ _ | .invalidateRange _ _
  | .dsb | .udelay _ | .txTimeout _ => True
  | _ => False

theorem quiet_tx (c : Platform) {o : EdmaOp} (h : Local o) : Quiet (edma c TxStep) o := by
  rintro s _ ⟨hc⟩
  cases o <;> first | exact h.elim | exact ⟨rfl, .consume hc⟩

theorem quiet_rx (c : Platform) {Frame : EdmaRrd → List UInt8 → Prop} {defer : Prop} {o : EdmaOp}
    (h : Local o) : Quiet (edma c (RxStep Frame defer)) o := by
  intro s s' hs
  cases hs with
  | complete hc hf => cases o <;> first | exact h.elim | exact ⟨rfl, .complete hc hf⟩
  | advance hd hc hf => cases o <;> first | exact h.elim | exact ⟨rfl, .advance hd hc hf⟩
  | land hi he => cases o <;> first | exact h.elim | exact ⟨rfl, .land hi he⟩

theorem quiet_edma (c : Platform) {Frame : EdmaRrd → List UInt8 → Prop} {defer : Prop}
    {o : EdmaOp} (h : Local o) : Quiet (edma c (EdmaStep Frame defer)) o := by
  rintro s s' (hs | hs)
  · exact (quiet_rx c h s s' hs).imp id Or.inl
  · exact (quiet_tx c h s s' hs).imp id Or.inr

end Ipq4019.Edma.Device
