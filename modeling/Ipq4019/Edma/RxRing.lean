import Ipq4019.Edma.Init

/-!
# The receive ring: the invariant

We count the receive descriptors by position: position `i` is in slot `i % 512`.  With `r` frames
consumed and `n` descriptors completed,

* the tail of the driver follows `r`, the consumer index of the EDMA follows `n`, and the producer
  index follows `lim r`, so the EDMA fills the positions below `lim r` (`Inv`);
* `r ≤ n ≤ lim r < r + 512`, so the two index tests, `n % 512 = r % 512` by the driver and
  `n % 512 = lim r % 512` by the EDMA, mean `n = r` and `n = lim r`;
* the buffers of the last 512 positions hold what the EDMA stored there, except where the write is
  still under way.

No step of the EDMA breaks it (`Inv.stable`).
-/

namespace Ipq4019.Edma.RxRing

open Ipq4019.Lib.Interleave Ipq4019.Lib.Memory Ipq4019.Lib.Ring
open Ipq4019.Edma.Driver Ipq4019.Edma.Device

/-! ### Frames -/

/-- What is assumed of the frames: they fit the buffer; a valid descriptor has the length of its
frame; and the index runs ahead of the memory only with valid descriptors. -/
structure FrameLaw (Frame : EdmaRrd → List UInt8 → Prop) (defer : Prop) : Prop where
  size : ∀ rrd data, Frame rrd data → data.length ≤ edmaRxBufSize - edmaRrdSize
  len : ∀ rrd data, Frame rrd data → Valid rrd → rrd.rrd6.toNat = data.length ∧ 1 ≤ data.length
  valid : ∀ rrd data, defer → Frame rrd data → Valid rrd

/-- A frame in good order. -/
def FrameOk (rrd : EdmaRrd) (data : List UInt8) : Prop :=
  Valid rrd ∧ rrd.rrd6.toNat = data.length ∧ 1 ≤ data.length ∧
    data.length ≤ edmaRxBufSize - edmaRrdSize

theorem FrameOk.law (defer : Prop) : FrameLaw FrameOk defer where
  size _ _ h := h.2.2.2
  len _ _ h _ := ⟨h.2.1, h.2.2.1⟩
  valid _ _ _ h := h.1

/-- A receive return descriptor of a frame of one byte, with the word `rrd7`. -/
def rrdOf (rrd7 : UInt16) : EdmaRrd := ⟨0, 0, 0, 0, 0, 0, 1, rrd7⟩

variable {c : Platform} {Frame : EdmaRrd → List UInt8 → Prop} {defer : Prop}

theorem Platform.virtToPhys_inj {a b : UInt32} (h : c.virtToPhys a = c.virtToPhys b) : a = b := by
  unfold Driver.Platform.virtToPhys at h
  grind

/-- What is recorded of position `i`. -/
structure Entry (c : Platform) (Frame : EdmaRrd → List UInt8 → Prop) (b : RxBuffers) (i : ℕ)
    (e : RxEntry) : Prop where
  slot : e.slot = i % noOfRxDesc
  addr : e.addr = c.virtToPhys (b.ptr (i % noOfRxDesc))
  frame : Frame e.rrd e.data

theorem RxEntry.length_bytes (e : RxEntry) : e.bytes.length = edmaRrdSize + e.data.length := by
  rw [RxEntry.bytes, List.length_append, length_rrdBytes]

/-- Blocks without a common byte. -/
def Apart (a b : UInt32) : Prop :=
  ∀ x < edmaRxBufSize, ∀ y < edmaRxBufSize, a + UInt32.ofNat x ≠ b + UInt32.ofNat y

/-- Buffers of different slots are apart, for the EDMA too. -/
theorem apart_slot (b : RxBuffers) {i j : ℕ} (h : i % noOfRxDesc ≠ j % noOfRxDesc) :
    Apart (c.virtToPhys (b.ptr (i % noOfRxDesc))) (c.virtToPhys (b.ptr (j % noOfRxDesc))) := by
  intro x hx y hy he
  rw [← c.virtToPhys_add, ← c.virtToPhys_add] at he
  exact b.disjoint _ (Nat.mod_lt _ (by decide)) _ (Nat.mod_lt _ (by decide)) h x hx y hy
    (Platform.virtToPhys_inj he)

/-- The write of one entry leaves the block of another slot as it was. -/
theorem read_write_apart (hF : FrameLaw Frame defer) {b : RxBuffers} {i j : ℕ} {e f : RxEntry}
    (he : Entry c Frame b i e) (hf : Entry c Frame b j f) (hij : i % noOfRxDesc ≠ j % noOfRxDesc)
    (m : Mem) :
    read (write m f.addr f.bytes) e.addr e.bytes.length = read m e.addr e.bytes.length := by
  have h₁ := hF.size _ _ he.frame
  have h₂ := hF.size _ _ hf.frame
  have hap := apart_slot (c := c) b hij
  rw [← he.addr, ← hf.addr] at hap
  refine read_write_of_disjoint m fun x hx y hy => hap x ?_ y ?_
  · rw [RxEntry.length_bytes] at hx
    simp only [edmaRxBufSize, edmaRrdSize] at *
    omega
  · rw [RxEntry.length_bytes] at hy
    simp only [edmaRxBufSize, edmaRrdSize] at *
    omega

theorem read_write_entry (hF : FrameLaw Frame defer) {e : RxEntry} (he : Frame e.rrd e.data)
    (m : Mem) : read (write m e.addr e.bytes) e.addr e.bytes.length = e.bytes := by
  refine read_write_self m e.addr ?_
  have h := hF.size _ _ he
  rw [RxEntry.length_bytes]
  simp only [edmaRxBufSize, edmaRrdSize] at *
  omega

/-! ### The invariant -/

/-- **The position the EDMA may fill up to** after `r` frames were consumed.  The first recycling
writes the index that the initialisation wrote already. -/
def lim (r : ℕ) : ℕ := 511 + (r - 1)

/-- **The invariant**, with `r` descriptors handed back. -/
structure Inv (c : Platform) (Frame : EdmaRrd → List UInt8 → Prop) (defer : Prop) (r : ℕ)
    (s : World) : Prop where
  ring : ∀ i < noOfRxDesc, s.rfdRing i = c.virtToPhys (s.netRxPackets.ptr i)
  cons : s.hw.rfdCons.val = s.stored.length % noOfRxDesc
  prod : s.hw.rfdProd.val = lim r % noOfRxDesc
  le : r ≤ s.stored.length
  le_lim : s.stored.length ≤ lim r
  entry : ∀ i e, s.stored[i]? = some e → Entry c Frame s.netRxPackets i e
  held : ∀ i e, s.stored[i]? = some e → s.stored.length ≤ i + noOfRxDesc → i ∉ s.hw.pending →
    read s.mem e.addr e.bytes.length = e.bytes
  pend : ∀ i ∈ s.hw.pending, r ≤ i ∧ i < s.stored.length
  nodup : s.hw.pending.Nodup
  now : ¬ defer → s.hw.pending = []

variable {r : ℕ} {s s' : World}

/-- **The driver's test** tells whether something was completed that is not consumed. -/
theorem Inv.cons_eq_iff (h : Inv c Frame defer r s) :
    s.hw.rfdCons.val = r % noOfRxDesc ↔ s.stored.length = r := by
  have h₁ := h.le
  have h₂ := h.le_lim
  rw [h.cons]
  exact mod_inj (by unfold lim noOfRxDesc at *; omega) (by unfold noOfRxDesc; omega)

/-- **The EDMA's test** tells whether it may go on. -/
theorem Inv.lt_lim (h : Inv c Frame defer r s) (hne : s.hw.rfdCons ≠ s.hw.rfdProd) :
    s.stored.length < lim r := by
  rcases Nat.lt_or_eq_of_le h.le_lim with hlt | heq
  · exact hlt
  · exact absurd (Fin.ext (by rw [h.cons, h.prod, heq])) hne

/-- What the EDMA is about to store. -/
theorem Inv.entry_next (h : Inv c Frame defer r s) {rrd : EdmaRrd} {data : List UInt8}
    (hf : Frame rrd data) :
    Entry c Frame s.netRxPackets s.stored.length (s.entry rrd data) := by
  refine ⟨h.cons, ?_, hf⟩
  rw [← h.ring _ (Nat.mod_lt _ (by decide)), ← h.cons]
  rfl

theorem getElem?_concat {α : Type} {l : List α} {a b : α} {i : ℕ} (h : (l ++ [a])[i]? = some b) :
    l[i]? = some b ∨ i = l.length ∧ b = a := by
  rcases Nat.lt_trichotomy i l.length with hlt | rfl | hgt
  · rw [List.getElem?_append_left hlt] at h
    exact Or.inl h
  · simp at h
    exact Or.inr ⟨rfl, h.symm⟩
  · obtain ⟨hlt, -⟩ := List.getElem?_eq_some_iff.mp h
    rw [List.length_append, List.length_singleton] at hlt
    omega

/-- The EDMA's consumer index moves on, memory apart. -/
theorem Inv.next (h : Inv c Frame defer r s) : (s.hw.rfdCons.val + 1) % noOfRxDesc =
    (s.stored.length + 1) % noOfRxDesc := by
  rw [h.cons, Nat.mod_add_mod]

theorem Inv.complete (hF : FrameLaw Frame defer) (h : Inv c Frame defer r s) {rrd : EdmaRrd}
    {data : List UInt8} (hne : s.hw.rfdCons ≠ s.hw.rfdProd) (hf : Frame rrd data) :
    Inv c Frame defer r (s.complete rrd data) := by
  have hlen : (s.complete rrd data).stored.length = s.stored.length + 1 := by simp [World.complete]
  have hlt := h.lt_lim hne
  have hnew := h.entry_next hf
  refine ⟨h.ring, ?_, h.prod, ?_, ?_, ?_, ?_, ?_, h.nodup, h.now⟩
  · rw [hlen]
    exact h.next
  · have := h.le
    omega
  · omega
  · intro i e he
    rcases getElem?_concat he with he | ⟨rfl, rfl⟩
    · exact h.entry i e he
    · exact hnew
  · intro i e he hi hp
    rw [hlen] at hi
    rcases getElem?_concat he with he | ⟨rfl, rfl⟩
    · -- another slot than the one just written
      have hin := (List.getElem?_eq_some_iff.mp he).1
      refine (read_write_apart hF (h.entry i e he) hnew (mod_ne hin (by omega)) s.mem).trans ?_
      exact h.held i e he (by omega) hp
    · exact read_write_entry hF hf s.mem
  · intro i hi
    have := h.pend i hi
    omega

theorem Inv.advance (h : Inv c Frame defer r s) {rrd : EdmaRrd} {data : List UInt8} (hd : defer)
    (hne : s.hw.rfdCons ≠ s.hw.rfdProd) (hf : Frame rrd data) :
    Inv c Frame defer r (s.advance rrd data) := by
  have hlen : (s.advance rrd data).stored.length = s.stored.length + 1 := by simp [World.advance]
  have hlt := h.lt_lim hne
  have hnew := h.entry_next hf
  refine ⟨h.ring, ?_, h.prod, ?_, ?_, ?_, ?_, ?_, ?_, fun hn => absurd hd hn⟩
  · rw [hlen]
    exact h.next
  · have := h.le
    omega
  · omega
  · intro i e he
    rcases getElem?_concat he with he | ⟨rfl, rfl⟩
    · exact h.entry i e he
    · exact hnew
  · intro i e he hi hp
    rw [hlen] at hi
    rcases getElem?_concat he with he | ⟨rfl, rfl⟩
    · exact h.held i e he (by omega) fun hp' => hp (List.mem_append_left _ hp')
    · exact absurd (List.mem_append_right _ (List.mem_singleton.mpr rfl)) hp
  · intro i hi
    have hle := h.le
    rcases List.mem_append.mp hi with hi | hi
    · have := h.pend i hi
      omega
    · rw [List.mem_singleton.mp hi]
      omega
  · refine List.nodup_append.mpr ⟨h.nodup, by simp, ?_⟩
    intro i hi j hj hij
    have := (h.pend i hi).2
    rw [hij, List.mem_singleton.mp hj] at this
    exact Nat.lt_irrefl _ this

theorem Inv.land (hF : FrameLaw Frame defer) (h : Inv c Frame defer r s) {i : ℕ} {e : RxEntry}
    (hi : i ∈ s.hw.pending) (he : s.stored[i]? = some e) : Inv c Frame defer r (s.land i e) := by
  refine ⟨h.ring, h.cons, h.prod, h.le, h.le_lim, h.entry, fun j f hj hwin hp => ?_,
    fun j hj => h.pend j (List.mem_of_mem_erase hj), h.nodup.erase i, fun hn => ?_⟩
  · by_cases hji : j = i
    · subst hji
      obtain rfl : f = e := Option.some.inj (hj.symm.trans he)
      exact read_write_entry hF (h.entry j f hj).frame s.mem
    · -- a pending write is among the last 511 positions, so it is to another slot
      have hpi := h.pend i hi
      have hjn : j < s.stored.length := (List.getElem?_eq_some_iff.mp hj).1
      have hlim := h.le_lim
      have hle := h.le
      have hwin' : s.stored.length ≤ j + noOfRxDesc := hwin
      unfold lim at hlim
      have hne : j % noOfRxDesc ≠ i % noOfRxDesc := by
        rw [Ne, mod_inj (by unfold noOfRxDesc at *; omega) (by omega)]
        exact hji
      refine (read_write_apart hF (h.entry j f hj) (h.entry i e he) hne s.mem).trans ?_
      exact h.held j f hj hwin fun hp' => hp ((List.mem_erase_of_ne hji).mpr hp')
  · change s.hw.pending.erase i = []
    rw [h.now hn]
    rfl

/-- **No step of the EDMA breaks the invariant.** -/
theorem Inv.stable (hF : FrameLaw Frame defer) {env : World → World → Prop}
    (henv : ∀ s s', env s s' → EdmaStep Frame defer s s') :
    Stable (edma c env) (Inv c Frame defer r) := by
  intro s s' hs h
  rcases henv s s' hs with hs | hs
  · cases hs with
    | complete hne hf => exact h.complete hF hne hf
    | advance hd hne hf => exact h.advance hd hne hf
    | land hi he => exact h.land hF hi he
  · obtain ⟨_⟩ := hs
    exact ⟨h.ring, h.cons, h.prod, h.le, h.le_lim, h.entry, h.held, h.pend, h.nodup, h.now⟩

/-- The invariant is about the receive side only. -/
theorem Inv.of_eq {t : World} (h : Inv c Frame defer r s) (h₁ : t.rfdRing = s.rfdRing)
    (h₂ : t.netRxPackets = s.netRxPackets) (h₃ : t.hw.rfdCons = s.hw.rfdCons)
    (h₄ : t.hw.rfdProd = s.hw.rfdProd) (h₅ : t.hw.pending = s.hw.pending)
    (h₆ : t.stored = s.stored) (h₇ : t.mem = s.mem) : Inv c Frame defer r t := by
  constructor <;> simp only [h₁, h₂, h₃, h₄, h₅, h₆, h₇]
  · exact h.ring
  · exact h.cons
  · exact h.prod
  · exact h.le
  · exact h.le_lim
  · exact h.entry
  · exact h.held
  · exact h.pend
  · exact h.nodup
  · exact h.now

/-- **A descriptor is handed back**: the producer index moves to position `511 + r`. -/
theorem Inv.recycle (h : Inv c Frame defer r s) (hr : r < s.stored.length)
    (hp : r ∉ s.hw.pending) {v : UInt32} (hv : v.toNat = (r + 511) % noOfRxDesc) :
    Inv c Frame defer (r + 1) (s.writeReg v .rfdIdxQ) := by
  refine ⟨h.ring, h.cons, ?_, hr, ?_, h.entry, h.held, fun i hi => ?_, h.nodup, h.now⟩
  · have hlt : v.toNat < noOfRxDesc := hv ▸ Nat.mod_lt _ (by decide)
    change v.toNat % 4096 = lim (r + 1) % noOfRxDesc
    rw [Nat.mod_eq_of_lt (hlt.trans (by decide)), hv, lim, Nat.add_sub_cancel, Nat.add_comm]
  · have hle := h.le_lim
    change s.stored.length ≤ lim (r + 1)
    unfold lim at *
    omega
  · obtain ⟨hle, hlt⟩ := h.pend i hi
    have hne : i ≠ r := fun he => hp (he ▸ hi)
    exact ⟨by omega, hlt⟩

/-- After bring-up, with the EDMA's index at 0, nothing is completed and nothing consumed. -/
theorem Inv.start (h₁ : ∀ i < noOfRxDesc, s.rfdRing i = c.virtToPhys (s.netRxPackets.ptr i))
    (h₂ : s.hw.rfdCons = 0) (h₃ : s.hw.rfdProd = 511) (h₄ : s.stored = []) (h₅ : s.hw.pending = []) :
    Inv c Frame defer 0 s := by
  refine ⟨h₁, ?_, ?_, Nat.zero_le _, ?_, ?_, ?_, ?_, ?_, fun _ => h₅⟩
  · rw [h₂, h₄]
    rfl
  · rw [h₃]
    rfl
  all_goals simp [h₄, h₅]

end Ipq4019.Edma.RxRing
