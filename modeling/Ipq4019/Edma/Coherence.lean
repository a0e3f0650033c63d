import Ipq4019.Edma.RxCache

/-!
# Coherence of the receive buffers: the invariant

The states that the receive path goes through, beside a cache that evicts and fills lines, a payload
that stores elsewhere, and the EDMA:

* `Laid`: the ring and the buffers are blocks of whole lines, apart from each other;
* `Filling`, `Flushing`: the descriptors are stored and written back, while the EDMA has none;
* `Serving`: the descriptors are in memory, and so is what the EDMA wrote.

What the EDMA wrote stays in memory unless a dirty line is written back over it: either no eviction
does that (`careful`), or no line of a buffer is dirty (`CleanBufs`).
-/

namespace Ipq4019.Edma.Coherence

open Ipq4019.Lib Ipq4019.Lib.Interleave Ipq4019.Lib.Interleave.Prog Ipq4019.Lib.Memory
open Ipq4019.Lib.Ring Ipq4019.Lib.Cache
open Ipq4019.Edma.Driver Ipq4019.Edma.Alloc Ipq4019.Edma.RxCache

variable {c : Platform} {A : Allocator} {careful : Prop} {s s' : RxWorld}

/-! ### Blocks and lines -/

/-- A block of whole lines. -/
structure Lined (n : ℕ) (b : Block) : Prop where
  start : n ∣ b.addr.toNat
  whole : n ∣ b.size
  fits : b.addr.toNat + b.size < 2 ^ 32

section Blocks

variable {b b' : Block} {a x : UInt32} {i n : ℕ}

theorem toNat_add (h : Lined n b) (hi : i < b.size) :
    (b.addr + UInt32.ofNat i).toNat = b.addr.toNat + i := by
  have hf := h.fits
  rw [UInt32.toNat_add, UInt32.toNat_ofNat']
  omega

theorem has_add (h : Lined n b) (hi : i < b.size) : b.Has (b.addr + UInt32.ofNat i) := by
  have ha := toNat_add h hi
  constructor
  · omega
  · omega

theorem add_inj (h : Lined n b) {j : ℕ} (hi : i < b.size) (hj : j < b.size)
    (he : b.addr + UInt32.ofNat i = b.addr + UInt32.ofNat j) : i = j := by
  have ha := toNat_add h hi
  have hb := toNat_add h hj
  rw [he] at ha
  omega

theorem not_has_of_apart (h : b.Apart b') (ha : b.Has a) : ¬b'.Has a := by
  rintro ⟨h₁, h₂⟩
  obtain ⟨h₃, h₄⟩ := ha
  rcases h with h | h
  · omega
  · omega

/-- Outside a block of whole lines is outside its lines. -/
theorem line_ne (h : Lined c.dcacheLineBytes b) (ha : b.Has a) (hx : ¬b.Has x) :
    lineOf c a ≠ lineOf c x := by
  intro he
  unfold lineOf at he
  obtain ⟨u, hu⟩ := h.start
  obtain ⟨w, hw⟩ := h.whole
  obtain ⟨h₁, h₂⟩ := ha
  have hL : 0 < c.dcacheLineBytes := by
    by_contra h0
    have : c.dcacheLineBytes = 0 := by omega
    rw [this] at hw
    omega
  rw [hu, Nat.mul_comm] at h₁
  rw [hu, hw, ← Nat.mul_add, Nat.mul_comm] at h₂
  refine hx ⟨?_, ?_⟩
  · have hq := (Nat.le_div_iff_mul_le hL).mpr h₁
    rw [he, Nat.le_div_iff_mul_le hL] at hq
    rwa [hu, Nat.mul_comm]
  · have hq := (Nat.div_lt_iff_lt_mul hL).mpr h₂
    rw [he, Nat.div_lt_iff_lt_mul hL] at hq
    rwa [hu, hw, ← Nat.mul_add, Nat.mul_comm]

end Blocks

/-! ### What the allocation leaves -/

def ringBlock (s : RxWorld) : Block := ⟨s.dev.rfdRing, noOfRxDesc * sizeofEdmaRfd⟩

def buf (s : RxWorld) (j : ℕ) : Block := ⟨s.netRxPackets j, edmaRxBufSize⟩

/-- The ring and the first `n` buffers are blocks of whole lines, apart from each other. -/
structure Laid (c : Platform) (n : ℕ) (s : RxWorld) : Prop where
  ring : ringBlock s ∈ s.blocks
  ringLined : Lined c.dcacheLineBytes (ringBlock s)
  bufs : ∀ j < n, buf s j ∈ s.blocks
  bufLined : ∀ j < n, Lined c.dcacheLineBytes (buf s j)
  ringApart : ∀ j < n, (ringBlock s).Apart (buf s j)
  apart : ∀ i < n, ∀ j < n, i ≠ j → (buf s i).Apart (buf s j)

/-- The EDMA has no descriptor, and has written nothing. -/
structure Idle (s : RxWorld) : Prop where
  idle : s.rfdProd = s.rfdCons
  cons : s.rfdCons.val < noOfRxDesc
  wrote : ∀ a, s.wrote a = none

/-- No line of a buffer is dirty. -/
def CleanBufs (c : Platform) (s : RxWorld) : Prop :=
  ∀ j < noOfRxDesc, ∀ a, (buf s j).Has a → ¬Dirty s.cache (lineOf c a)

/-- What no step beside the driver concerns. -/
structure Frame (s s' : RxWorld) : Prop where
  dev : s'.dev = s.dev
  bufs : s'.netRxPackets = s.netRxPackets
  blocks : s'.blocks = s.blocks
  prod : s'.rfdProd = s.rfdProd

theorem frame_env (h : CacheStep c careful s s') : Frame s s' := by
  cases h with
  | evict k h => exact ⟨rfl, rfl, rfl, rfl⟩
  | fill k => exact ⟨rfl, rfl, rfl, rfl⟩
  | store a b h => exact ⟨rfl, rfl, rfl, rfl⟩
  | dma j i b hj hi => exact ⟨rfl, rfl, rfl, rfl⟩
  | advance h => exact ⟨rfl, rfl, rfl, rfl⟩

theorem Frame.buf (h : Frame s s') (j : ℕ) : buf s' j = buf s j := by
  unfold Coherence.buf
  rw [h.bufs]

theorem Frame.ringBlock (h : Frame s s') : ringBlock s' = ringBlock s := by
  unfold Coherence.ringBlock
  rw [h.dev]

theorem Laid.congr {n : ℕ} (h : Laid c n s) (hr : ringBlock s' = ringBlock s)
    (hb : ∀ j, buf s' j = buf s j) (hbl : s'.blocks = s.blocks) : Laid c n s' := by
  obtain ⟨h₁, h₂, h₃, h₄, h₅, h₆⟩ := h
  refine ⟨?_, ?_, ?_, ?_, ?_, ?_⟩
  · rwa [hr, hbl]
  · rwa [hr]
  · simpa only [hb, hbl] using h₃
  · simpa only [hb] using h₄
  · simpa only [hb, hr] using h₅
  · simpa only [hb] using h₆

theorem Laid.frame {n : ℕ} (h : Laid c n s) (hf : Frame s s') : Laid c n s' :=
  h.congr hf.ringBlock hf.buf hf.blocks

/-- An idle EDMA has nothing to do. -/
theorem Idle.not_owned (h : Idle s) (j : ℕ) : ¬Owned s j := by
  rintro ⟨d, hd, -⟩
  have hahead : ahead noOfRxDesc s.rfdCons.val s.rfdProd.val = 0 := by
    unfold ahead
    rw [h.idle, Nat.add_sub_cancel_left]
    exact Nat.mod_self _
  omega

/-- What the cache and the payload do beside an idle EDMA. -/
theorem idle_env (h : Idle s) (hs : CacheStep c careful s s') : Idle s' := by
  cases hs with
  | evict k _ => exact ⟨h.idle, h.cons, h.wrote⟩
  | fill k => exact ⟨h.idle, h.cons, h.wrote⟩
  | store a b _ => exact ⟨h.idle, h.cons, h.wrote⟩
  | dma j i b hj _ => exact absurd hj (h.not_owned j)
  | advance hne => exact absurd h.idle.symm hne

/-! ### What the processor stored stays -/

variable {b : Block} {a x : UInt32} {v : UInt8} {n : ℕ}

/-- A byte of a block that the EDMA does not write. -/
theorem holds_env (hidle : Idle s) (hb : b ∈ s.blocks) (ha : b.Has a)
    (h : Holds (lineOf c) s.cache a v) (hs : CacheStep c careful s s') :
    Holds (lineOf c) s'.cache a v := by
  cases hs with
  | evict k _ => exact h.evict k
  | fill k => exact h.fill k
  | store x w hx => exact h.store fun he => hx b hb (he ▸ ha)
  | dma j i w hj _ => exact absurd hj (hidle.not_owned j)
  | advance hne => exact h

/-- Outside the buffers the processor may store. -/
theorem cleanBufs_store (hl : Laid c noOfRxDesc s) (h : CleanBufs c s)
    (hx : ∀ j < noOfRxDesc, ¬(buf s j).Has x) (w : UInt8) :
    CleanBufs c { s with cache := store (lineOf c) x w s.cache } := fun j hj a ha hd =>
  h j hj a ha (dirty_store (line_ne (hl.bufLined j hj) ha (hx j hj)) hd)

theorem cleanBufs_env (hl : Laid c noOfRxDesc s) (h : CleanBufs c s)
    (hs : CacheStep c careful s s') : CleanBufs c s' := by
  cases hs with
  | evict k _ => exact fun j hj a ha hd => h j hj a ha (dirty_evict hd)
  | fill k => exact fun j hj a ha hd => h j hj a ha (dirty_fill hd)
  | store x w hx => exact cleanBufs_store hl h (fun j hj => hx _ (hl.bufs j hj)) w
  | dma j i w _ _ => exact h
  | advance _ => exact h

theorem safe_env (hl : Laid c noOfRxDesc s) (h : careful ∨ CleanBufs c s)
    (hs : CacheStep c careful s s') : careful ∨ CleanBufs c s' :=
  h.imp id fun hclean => cleanBufs_env hl hclean hs

/-! ### The ring is filled -/

/-- The byte of the ring that the descriptors of the buffers have. -/
def rfdByte (c : Platform) (s : RxWorld) (x : ℕ) : UInt8 :=
  UInt8.ofNat ((c.virtToPhys (s.netRxPackets (x / sizeofEdmaRfd))).toNat / 256 ^ (x % sizeofEdmaRfd))

theorem Frame.rfdByte (h : Frame s s') (x : ℕ) : rfdByte c s' x = rfdByte c s x := by
  unfold Coherence.rfdByte
  rw [h.bufs]

def ringByte (s : RxWorld) (x : ℕ) : UInt32 := s.dev.rfdRing + UInt32.ofNat x

theorem Frame.ringByte (h : Frame s s') (x : ℕ) : ringByte s' x = ringByte s x := by
  unfold Coherence.ringByte
  rw [h.dev]

theorem Laid.has_ringByte (h : Laid c n s) (hx : i < noOfRxDesc * sizeofEdmaRfd) :
    (ringBlock s).Has (ringByte s i) := has_add h.ringLined hx

theorem Laid.not_has_ringByte (h : Laid c n s) (hx : i < noOfRxDesc * sizeofEdmaRfd) {j : ℕ}
    (hj : j < n) : ¬(buf s j).Has (ringByte s i) := not_has_of_apart (h.ringApart j hj) (h.has_ringByte hx)

/-- The first `n` bytes of the ring are stored. -/
structure Filling (c : Platform) (careful : Prop) (n : ℕ) (s : RxWorld) : Prop where
  laid : Laid c noOfRxDesc s
  idle : Idle s
  safe : careful ∨ CleanBufs c s
  le : n ≤ noOfRxDesc * sizeofEdmaRfd
  filled : ∀ x < n, Holds (lineOf c) s.cache (ringByte s x) (rfdByte c s x)

theorem Filling.env (h : Filling c careful n s) (hs : CacheStep c careful s s') :
    Filling c careful n s' := by
  have hf := frame_env hs
  refine ⟨h.laid.frame hf, idle_env h.idle hs, safe_env h.laid h.safe hs, h.le, fun x hx => ?_⟩
  have hx' := lt_of_lt_of_le hx h.le
  rw [hf.ringByte, hf.rfdByte]
  exact holds_env h.idle h.laid.ring (h.laid.has_ringByte hx') (h.filled x hx) hs

/-- One more byte. -/
theorem Filling.store (h : Filling c careful n s) (hn : n < noOfRxDesc * sizeofEdmaRfd) :
    Filling c careful (n + 1)
      { s with cache := store (lineOf c) (ringByte s n) (rfdByte c s n) s.cache } := by
  refine ⟨h.laid.congr rfl (fun _ => rfl) rfl, ⟨h.idle.idle, h.idle.cons, h.idle.wrote⟩,
    h.safe.imp id fun hclean => ?_, hn, fun x hx => ?_⟩
  · exact cleanBufs_store h.laid hclean (fun j hj => h.laid.not_has_ringByte hn hj) _
  · rcases Nat.lt_succ_iff_lt_or_eq.mp hx with hx | rfl
    · refine (h.filled x hx).store fun he => ?_
      have := add_inj h.laid.ringLined (lt_trans hx hn) hn he
      omega
    · exact holds_store

/-! ### It is written back and handed over -/

theorem lineOf_mem (hL : 0 < c.dcacheLineBytes) (ha : b.Has a) :
    b.addr.toNat / c.dcacheLineBytes ≤ lineOf c a ∧ lineOf c a < b.addr.toNat / c.dcacheLineBytes +
      ((b.addr.toNat + b.size + c.dcacheLineBytes - 1) / c.dcacheLineBytes -
        b.addr.toNat / c.dcacheLineBytes) := by
  obtain ⟨h₁, h₂⟩ := ha
  unfold lineOf
  have hle : b.addr.toNat / c.dcacheLineBytes ≤ a.toNat / c.dcacheLineBytes := Nat.div_le_div_right h₁
  have hlt : a.toNat / c.dcacheLineBytes + 1 ≤
      (b.addr.toNat + b.size + c.dcacheLineBytes - 1) / c.dcacheLineBytes := by
    rw [← Nat.add_div_right _ hL]
    exact Nat.div_le_div_right (by omega)
  omega

/-- The first `t` lines of the ring are written back. -/
structure Flushing (c : Platform) (careful : Prop) (t : ℕ) (s : RxWorld) : Prop where
  filling : Filling c careful (noOfRxDesc * sizeofEdmaRfd) s
  clean : ∀ x < noOfRxDesc * sizeofEdmaRfd,
    lineOf c (ringByte s x) < s.dev.rfdRing.toNat / c.dcacheLineBytes + t →
      ¬Dirty s.cache (lineOf c (ringByte s x))

/-- A line of a block is not made dirty. -/
theorem not_dirty_env (hb : b ∈ s.blocks) (hl : Lined c.dcacheLineBytes b) (ha : b.Has a)
    (h : ¬Dirty s.cache (lineOf c a)) (hs : CacheStep c careful s s') :
    ¬Dirty s'.cache (lineOf c a) := by
  cases hs with
  | evict k _ => exact fun hd => h (dirty_evict hd)
  | fill k => exact fun hd => h (dirty_fill hd)
  | store x w hx => exact fun hd => h (dirty_store (line_ne hl ha (hx b hb)) hd)
  | dma j i w _ _ => exact h
  | advance _ => exact h

theorem Flushing.env {t : ℕ} (h : Flushing c careful t s) (hs : CacheStep c careful s s') :
    Flushing c careful t s' := by
  have hf := frame_env hs
  have hl := h.filling.laid
  refine ⟨h.filling.env hs, fun x hx hlt => ?_⟩
  rw [hf.ringByte] at hlt ⊢
  rw [hf.dev] at hlt
  exact not_dirty_env hl.ring hl.ringLined (hl.has_ringByte hx) (h.clean x hx hlt) hs

/-- One more line. -/
theorem Flushing.line {t k : ℕ} (h : Flushing c careful t s)
    (hk : k = s.dev.rfdRing.toNat / c.dcacheLineBytes + t) :
    Flushing c careful (t + 1) { s with cache := evict (lineOf c) k s.cache } := by
  obtain ⟨⟨hlaid, hidle, hsafe, hle, hfilled⟩, hclean⟩ := h
  refine ⟨⟨hlaid.congr rfl (fun _ => rfl) rfl, ⟨hidle.idle, hidle.cons, hidle.wrote⟩,
    hsafe.imp id fun hc j hj a ha hd => hc j hj a ha (dirty_evict hd), hle,
    fun x hx => (hfilled x hx).evict k⟩, fun x hx hlt => ?_⟩
  change lineOf c (ringByte s x) < _ at hlt
  change ¬Dirty (evict (lineOf c) k s.cache) (lineOf c (ringByte s x))
  by_cases hx' : lineOf c (ringByte s x) = k
  · rw [hx']
    exact not_dirty_of_none line_evict
  · refine fun hd => hclean x hx ?_ (dirty_evict hd)
    change _ < s.dev.rfdRing.toNat / c.dcacheLineBytes + (t + 1) at hlt
    omega

/-- The positions that the indices have passed: `t` frames are consumed, the EDMA has let go of `k`
descriptors, and it has those up to `p`. -/
structure Positions (t h k p : ℕ) (s : RxWorld) : Prop where
  tail : s.dev.rfdTail.toNat = t % noOfRxDesc
  head : s.dev.rfdHead.toNat = h % noOfRxDesc
  cons : s.rfdCons.val = k % noOfRxDesc
  prod : s.rfdProd.val = p % noOfRxDesc
  let_go : t ≤ k
  has : k ≤ p
  lap : p < t + noOfRxDesc

theorem Positions.congr {t h k p : ℕ} (hp : Positions t h k p s) (hd : s'.dev = s.dev)
    (hc : s'.rfdCons = s.rfdCons) (hr : s'.rfdProd = s.rfdProd) : Positions t h k p s' := by
  obtain ⟨h₁, h₂, h₃, h₄, h₅, h₆, h₇⟩ := hp
  exact ⟨hd ▸ h₁, hd ▸ h₂, hc ▸ h₃, hr ▸ h₄, h₅, h₆, h₇⟩

/-- **The invariant** while the ring is served.  The descriptors are in memory, where no write-back
may change them, and so is what the EDMA wrote. -/
structure Serving (c : Platform) (careful : Prop) (t h k p : ℕ) (s : RxWorld) : Prop where
  laid : Laid c noOfRxDesc s
  safe : careful ∨ CleanBufs c s
  pos : Positions t h k p s
  rfds : ∀ x < noOfRxDesc * sizeofEdmaRfd,
    Settled (lineOf c) s.cache (ringByte s x) (rfdByte c s x)
  wrote : ∀ a v, s.wrote a = some v → (∃ j < noOfRxDesc, (buf s j).Has a) ∧ s.cache.mem a = v

section Serving

variable {t h k p : ℕ}

/-- The descriptor of a slot says where its buffer is. -/
theorem Serving.rfd (hs : Serving c careful t h k p s) {j : ℕ} (hj : j < noOfRxDesc) :
    s.rfd j = c.virtToPhys (s.netRxPackets j) := by
  have hbyte : ∀ i < sizeofEdmaRfd, (s.cache.mem (s.dev.rfdRing +
      UInt32.ofNat (sizeofEdmaRfd * j + i))).toNat =
        (c.virtToPhys (s.netRxPackets j)).toNat / 256 ^ i % 256 := by
    intro i hi
    have hx : sizeofEdmaRfd * j + i < noOfRxDesc * sizeofEdmaRfd := by
      unfold sizeofEdmaRfd noOfRxDesc at *
      omega
    have hm := (hs.rfds _ hx).mem
    unfold ringByte rfdByte at hm
    have hdiv : (sizeofEdmaRfd * j + i) / sizeofEdmaRfd = j := by
      unfold sizeofEdmaRfd at *
      omega
    have hmod : (sizeofEdmaRfd * j + i) % sizeofEdmaRfd = i := by
      unfold sizeofEdmaRfd at *
      omega
    rw [hdiv, hmod] at hm
    rw [hm]
    exact UInt8.toNat_ofNat'
  unfold RxWorld.rfd
  refine UInt32.toNat_inj.mp ?_
  have hlt := (c.virtToPhys (s.netRxPackets j)).toNat_lt
  simp only [hbyte 0 (by decide), hbyte 1 (by decide), hbyte 2 (by decide), hbyte 3 (by decide),
    UInt32.toNat_ofNat']
  omega

/-- The EDMA writes the buffer of the slot. -/
theorem Serving.target (hs : Serving c careful t h k p s) {j : ℕ} (hj : j < noOfRxDesc) (i : ℕ) :
    s.target c j i = (buf s j).addr + UInt32.ofNat i := by
  unfold RxWorld.target
  rw [hs.rfd hj]
  unfold Driver.Platform.virtToPhys buf
  rw [UInt32.sub_add_cancel]

/-- The positions of the descriptors that the EDMA has. -/
theorem Positions.owned (hp : Positions t h k p s) {j : ℕ} (hj : Owned s j) :
    ∃ i, k ≤ i ∧ i < p ∧ j = i % noOfRxDesc := by
  obtain ⟨d, hd, rfl⟩ := hj
  have hlap := hp.lap
  have hlet := hp.let_go
  rw [hp.cons, hp.prod, ahead_mod hp.has (by omega)] at hd
  refine ⟨k + d, by omega, by omega, ?_⟩
  rw [hp.cons, Nat.mod_add_mod]

/-- The buffers of two slots have no byte in common with each other. -/
theorem Laid.ne_of_slot {i j x : ℕ} {a : UInt32} (h : Laid c noOfRxDesc s) (hi : i < noOfRxDesc)
    (hj : j < noOfRxDesc) (hij : i ≠ j) (ha : (buf s i).Has a) (hx : x < edmaRxBufSize) :
    a ≠ (buf s j).addr + UInt32.ofNat x := by
  rintro rfl
  exact not_has_of_apart (h.apart i hi j hj hij) ha (has_add (h.bufLined j hj) hx)

theorem Serving.ringByte_ne (hs : Serving c careful t h k p s) {x j i : ℕ}
    (hx : x < noOfRxDesc * sizeofEdmaRfd) (hj : j < noOfRxDesc) (hi : i < edmaRxBufSize) :
    ringByte s x ≠ s.target c j i := by
  rw [hs.target hj]
  intro he
  refine hs.laid.not_has_ringByte hx hj ?_
  rw [he]
  exact has_add (hs.laid.bufLined j hj) hi

/-- An eviction leaves what the EDMA wrote. -/
theorem Serving.mem_evict (hs : Serving c careful t h k p s) {l : ℕ} {a : UInt32} {v : UInt8}
    (hl : careful → Harmless c s l) (ha : s.wrote a = some v) :
    (evict (lineOf c) l s.cache).mem a = v := by
  obtain ⟨⟨j, hj, hb⟩, hm⟩ := hs.wrote a v ha
  by_cases hk : lineOf c a = l
  · by_cases hd : Dirty s.cache (lineOf c a)
    · rcases hs.safe with hc | hclean
      · subst hk
        rw [mem_evict_dirty hd]
        exact hl hc hd a v rfl ha
      · exact absurd hd (hclean j hj a hb)
    · rw [mem_evict_clean hd, hm]
  · rw [mem_evict_ne hk, hm]

/-- The EDMA writes a byte of a buffer that it has. -/
theorem Serving.dma (hs : Serving c careful t h k p s) {j i : ℕ} (b : UInt8) (hj : Owned s j)
    (hi : i < edmaRxBufSize) : Serving c careful t h k p (s.dma (s.target c j i) b) := by
  obtain ⟨q, -, -, hq⟩ := hs.pos.owned hj
  have hj' : j < noOfRxDesc := hq ▸ Nat.mod_lt _ (by decide)
  refine ⟨hs.laid.congr rfl (fun _ => rfl) rfl, hs.safe, hs.pos.congr rfl rfl rfl, fun x hx => ?_,
    fun a v ha => ?_⟩
  · exact (hs.rfds x hx).dma (hs.ringByte_ne hx hj' hi)
  · change Function.update s.wrote _ _ a = some v at ha
    by_cases he : a = s.target c j i
    · rw [he, Function.update_self] at ha
      cases ha
      refine ⟨⟨j, hj', ?_⟩, he ▸ mem_dma⟩
      change (buf s j).Has a
      rw [he, hs.target hj']
      exact has_add (hs.laid.bufLined j hj') hi
    · rw [Function.update_of_ne he] at ha
      exact ⟨(hs.wrote a v ha).1, (mem_dma_ne he).trans (hs.wrote a v ha).2⟩

/-- It steps past a descriptor. -/
theorem Serving.advance (hs : Serving c careful t h k p s) (hne : s.rfdCons ≠ s.rfdProd) :
    Serving c careful t h (k + 1) p s.advance := by
  obtain ⟨h₁, h₂, h₃, h₄, h₅, h₆, h₇⟩ := hs.pos
  have hkp : k ≠ p := fun he => hne (Fin.ext (by rw [h₃, h₄, he]))
  refine ⟨hs.laid.congr rfl (fun _ => rfl) rfl, hs.safe, ⟨h₁, h₂, ?_, h₄, ?_, ?_, h₇⟩, hs.rfds,
    hs.wrote⟩
  · change (s.rfdCons.val + 1) % noOfRxDesc = (k + 1) % noOfRxDesc
    rw [h₃, Nat.mod_add_mod]
  · omega
  · omega

/-- **What goes on beside the driver keeps the invariant**; the EDMA may let go of descriptors. -/
theorem Serving.env (hs : Serving c careful t h k p s) (henv : CacheStep c careful s s') :
    ∃ k' ≥ k, Serving c careful t h k' p s' := by
  have hl := hs.laid.frame (frame_env henv)
  have hsafe := safe_env hs.laid hs.safe henv
  cases henv with
  | evict l hev =>
    refine ⟨k, le_rfl, hl, hsafe, hs.pos.congr rfl rfl rfl,
      fun x hx => (hs.rfds x hx).evict l, fun a v ha => ⟨(hs.wrote a v ha).1, ?_⟩⟩
    exact hs.mem_evict hev ha
  | fill l =>
    refine ⟨k, le_rfl, hl, hsafe, hs.pos.congr rfl rfl rfl,
      fun x hx => (hs.rfds x hx).fill l, fun a v ha => ⟨(hs.wrote a v ha).1, ?_⟩⟩
    change (Cache.fill l s.cache).mem a = v
    rw [mem_fill]
    exact (hs.wrote a v ha).2
  | store a b hx =>
    refine ⟨k, le_rfl, hl, hsafe, hs.pos.congr rfl rfl rfl,
      fun x hx' => (hs.rfds x hx').store ?_, hs.wrote⟩
    exact line_ne hs.laid.ringLined (hs.laid.has_ringByte hx') (hx _ hs.laid.ring)
  | dma j i b hj hi => exact ⟨k, le_rfl, hs.dma b hj hi⟩
  | advance hne => exact ⟨k + 1, by omega, hs.advance hne⟩

/-! ### A buffer is invalidated -/

/-- The processor reads what is in memory. -/
def Fresh (c : Platform) (s : RxWorld) (a : UInt32) : Prop :=
  Settled (lineOf c) s.cache a (s.cache.mem a)

theorem fresh_of_settled {v : UInt8} (h : Settled (lineOf c) s.cache a v) : Fresh c s a := by
  unfold Fresh
  rwa [h.mem]

/-- The EDMA has let go of the buffer of slot `t`. -/
theorem Serving.fresh_env (hs : Serving c careful t h k p s) (htk : t < k) {a : UInt32}
    (ha : (buf s (t % noOfRxDesc)).Has a) (hf : Fresh c s a) (henv : CacheStep c careful s s') :
    Fresh c s' a := by
  have ht : t % noOfRxDesc < noOfRxDesc := Nat.mod_lt _ (by decide)
  cases henv with
  | evict l hev => exact fresh_of_settled (Settled.evict hf l)
  | fill l => exact fresh_of_settled (Settled.fill hf l)
  | store x b hx =>
    exact Settled.store hf (line_ne (hs.laid.bufLined _ ht) ha (hx _ (hs.laid.bufs _ ht)))
  | dma j i b hj hi =>
    obtain ⟨q, hkq, hqp, rfl⟩ := hs.pos.owned hj
    have hlap := hs.pos.lap
    have hne : a ≠ s.target c (q % noOfRxDesc) i := by
      rw [hs.target (Nat.mod_lt _ (by decide))]
      exact hs.laid.ne_of_slot ht (Nat.mod_lt _ (by decide)) (mod_ne (by omega) (by omega)) ha hi
    exact fresh_of_settled (Settled.dma hf hne)
  | advance hne => exact hf

theorem Serving.invalidate (hs : Serving c careful t h k p s) (l : ℕ) :
    Serving c careful t h k p { s with cache := invalidate l s.cache } := by
  refine ⟨hs.laid.congr rfl (fun _ => rfl) rfl, hs.safe.imp id fun hc j hj a ha hd => ?_,
    hs.pos.congr rfl rfl rfl, fun x hx => (hs.rfds x hx).invalidate l, hs.wrote⟩
  exact hc j hj a ha (dirty_invalidate hd)

theorem fresh_invalidate {l : ℕ} (h : lineOf c a = l ∨ Fresh c s a) :
    Fresh c { s with cache := invalidate l s.cache } a := by
  rcases h with rfl | hf
  · exact settled_invalidate
  · exact Settled.invalidate hf l

/-- **A fresh byte that the EDMA wrote is read as it wrote it.** -/
theorem Serving.view_eq (hs : Serving c careful t h k p s) {a : UInt32} {v : UInt8}
    (hf : Fresh c s a) (ha : s.wrote a = some v) : view (lineOf c) s.cache a = v :=
  hf.view.trans (hs.wrote a v ha).2

end Serving

end Ipq4019.Edma.Coherence
