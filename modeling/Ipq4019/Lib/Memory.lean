import Mathlib.Data.List.GetD
import Mathlib.Tactic.Common
import Mathlib.Tactic.NormNum

/-!
# A byte memory with 32-bit addresses

`read m a n` lists the `n` bytes at `a`, `write m a bs` stores `bs` there; addresses wrap at
`2 ^ 32`.  What was written is read back (`read_write_self`), a write outside a block leaves the
block as it was (`read_write_of_disjoint`), and a part of a block is read as that part of its bytes
(`read_part`).  `read16` is the little-endian half-word, with `bytes16` its two bytes.
-/

namespace Ipq4019.Lib.Memory

/-- A byte memory. -/
abbrev Mem := UInt32 → UInt8

/-- The `n` bytes at `a`. -/
def read (m : Mem) (a : UInt32) (n : ℕ) : List UInt8 :=
  (List.range n).map fun i => m (a + UInt32.ofNat i)

/-- The memory with `bs` stored at `a`. -/
def write (m : Mem) (a : UInt32) (bs : List UInt8) : Mem := fun x => bs.getD (x - a).toNat (m x)

/-- The little-endian half-word at `a`. -/
def read16 (m : Mem) (a : UInt32) : UInt16 := (m a).toUInt16 ||| ((m (a + 1)).toUInt16 <<< 8)

/-- The two bytes of a half-word, the low one first. -/
def bytes16 (v : UInt16) : List UInt8 := [v.toUInt8, (v >>> 8).toUInt8]

@[simp] theorem length_read (m : Mem) (a : UInt32) (n : ℕ) : (read m a n).length = n := by
  simp [read]

@[simp] theorem length_bytes16 (v : UInt16) : (bytes16 v).length = 2 := rfl

theorem offset_sub (a : UInt32) {i : ℕ} (hi : i < 2 ^ 32) :
    (a + UInt32.ofNat i - a).toNat = i := by
  rw [UInt32.add_comm, UInt32.add_sub_cancel, UInt32.toNat_ofNat']
  exact Nat.mod_eq_of_lt hi

/-- Adding the distance from `a` to `x` to `a` gives `x`. -/
theorem add_ofNat_sub (a x : UInt32) : a + UInt32.ofNat (x - a).toNat = x := by
  rw [UInt32.ofNat_toNat, UInt32.add_comm, UInt32.sub_add_cancel]

/-- **What was written is read back.** -/
theorem read_write_self (m : Mem) (a : UInt32) {bs : List UInt8} (hl : bs.length ≤ 2 ^ 32) :
    read (write m a bs) a bs.length = bs := by
  refine List.ext_getElem (by simp) fun i h₁ h₂ => ?_
  have hi : i < 2 ^ 32 := by omega
  simp only [read, write, List.getElem_map, List.getElem_range]
  rw [offset_sub a hi, List.getD_eq_getElem _ _ h₂]

/-- **A write outside a block leaves the block as it was.** -/
theorem read_write_of_disjoint (m : Mem) {a b : UInt32} {n : ℕ} {bs : List UInt8}
    (h : ∀ i < n, ∀ j < bs.length, a + UInt32.ofNat i ≠ b + UInt32.ofNat j) :
    read (write m b bs) a n = read m a n := by
  refine List.map_congr_left fun i hi => ?_
  have hi := List.mem_range.mp hi
  refine List.getD_eq_default _ _ ?_
  by_contra hlt
  exact h i hi _ (not_le.mp hlt) (add_ofNat_sub b _).symm

/-- Two adjacent blocks. -/
theorem read_add (m : Mem) (a : UInt32) (k n : ℕ) :
    read m a (k + n) = read m a k ++ read m (a + UInt32.ofNat k) n := by
  simp only [read, List.range_add, List.map_append, List.map_map]
  congr 1
  refine List.map_congr_left fun i _ => ?_
  simp only [Function.comp_apply, UInt32.ofNat_add, UInt32.add_assoc]

/-- **A part of a block is that part of its bytes.** -/
theorem read_part {m : Mem} {a : UInt32} {bs : List UInt8} (h : read m a bs.length = bs)
    {k n : ℕ} (hk : k + n ≤ bs.length) :
    read m (a + UInt32.ofNat k) n = (bs.drop k).take n := by
  obtain ⟨r, hr⟩ := Nat.exists_eq_add_of_le hk
  rw [hr, read_add, read_add] at h
  conv_rhs => rw [← h]
  rw [List.append_assoc, List.drop_left' (length_read _ _ _), List.take_left' (length_read _ _ _)]

theorem read_two (m : Mem) (a : UInt32) : read m a 2 = [m a, m (a + 1)] := by
  have h : a + UInt32.ofNat 0 = a := by simp
  simp only [read, show List.range 2 = [0, 1] from rfl, List.map_cons, List.map_nil, h]
  rfl

/-- A half-word is put together from its two bytes. -/
theorem half_of_bytes (v : UInt16) :
    v.toUInt8.toUInt16 ||| ((v >>> 8).toUInt8.toUInt16 <<< 8) = v := by
  rw [← UInt16.toNat_inj]
  simp only [UInt16.toNat_or, UInt8.toNat_toUInt16, UInt16.toNat_toUInt8, UInt16.toNat_shiftLeft,
    UInt16.toNat_shiftRight]
  have hv := UInt16.toNat_lt v
  have h8 : (8 : UInt16).toNat % 16 = 8 := rfl
  rw [h8, Nat.shiftRight_eq_div_pow, Nat.shiftLeft_eq, Nat.or_comm]
  have hd : v.toNat / 2 ^ 8 % 2 ^ 8 * 2 ^ 8 % 2 ^ 16 = 2 ^ 8 * (v.toNat / 2 ^ 8) := by omega
  have hm : v.toNat % 2 ^ 8 < 2 ^ 8 := Nat.mod_lt _ (by norm_num)
  rw [hd, ← Nat.two_pow_add_eq_or_of_lt hm, Nat.div_add_mod]

/-- **A half-word stored as its two bytes is read back.** -/
theorem read16_of_read {m : Mem} {a : UInt32} {v : UInt16} (h : read m a 2 = bytes16 v) :
    read16 m a = v := by
  rw [read_two, bytes16] at h
  obtain ⟨h₀, h₁⟩ : m a = v.toUInt8 ∧ m (a + 1) = (v >>> 8).toUInt8 := by simpa using h
  rw [read16, h₀, h₁]
  exact half_of_bytes v

end Ipq4019.Lib.Memory
