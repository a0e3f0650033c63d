import Mathlib.Data.List.Induction
import Mathlib.Tactic.Common

/-!
# Fields of a word

A field of a 32-bit word is given by its mask.  `setField m x v` is the word `v` with the field `m`
taken from `x`: the field itself is that of `x`, a disjoint one that of `v`.

`foldl_last`: what a sequence of operations leaves in a field is what the last of them put there that
concerned it.
-/

namespace Ipq4019.Lib.Fields

/-- The word `v` with the field `m` taken from `x`. -/
def setField (m x v : UInt32) : UInt32 := v &&& ~~~m ||| x &&& m

variable {m m' x v : UInt32}

theorem ext_bits {a b : UInt32} (h : ∀ i < 32, a.toBitVec.getLsbD i = b.toBitVec.getLsbD i) :
    a = b :=
  UInt32.toBitVec_inj.mp (BitVec.eq_of_getLsbD_eq h)

theorem bit_of_disjoint (h : m &&& m' = 0) (i : ℕ) :
    (m.toBitVec.getLsbD i && m'.toBitVec.getLsbD i) = false := by
  have hi := congrArg (fun w => w.toBitVec.getLsbD i) h
  simpa using hi

/-- A bit of the word. -/
theorem getLsbD_setField {i : ℕ} (hi : i < 32) : (setField m x v).toBitVec.getLsbD i =
    if m.toBitVec.getLsbD i then x.toBitVec.getLsbD i else v.toBitVec.getLsbD i := by
  simp only [setField, UInt32.toBitVec_and, UInt32.toBitVec_or, UInt32.toBitVec_not,
    BitVec.getLsbD_and, BitVec.getLsbD_or, BitVec.getLsbD_not, hi, decide_true, Bool.true_and]
  cases m.toBitVec.getLsbD i <;> simp

/-- **The field is set.** -/
theorem setField_self : setField m x v &&& m = x &&& m := by
  refine ext_bits fun i hi => ?_
  rw [UInt32.toBitVec_and, UInt32.toBitVec_and, BitVec.getLsbD_and, BitVec.getLsbD_and,
    getLsbD_setField hi]
  cases m.toBitVec.getLsbD i <;> simp

/-- **The others are not.** -/
theorem setField_of_disjoint (h : m &&& m' = 0) : setField m x v &&& m' = v &&& m' := by
  refine ext_bits fun i hi => ?_
  have hbit := bit_of_disjoint h i
  rw [UInt32.toBitVec_and, UInt32.toBitVec_and, BitVec.getLsbD_and, BitVec.getLsbD_and,
    getLsbD_setField hi]
  cases hm : m.toBitVec.getLsbD i
  · simp
  · rw [hm, Bool.true_and] at hbit
    simp [hbit]

/-- Clearing a field. -/
theorem clear_eq : v &&& ~~~m = setField m 0 v := by simp [setField]

/-- Setting all bits of a field. -/
theorem fill_eq : v ||| m = setField m m v := by
  refine ext_bits fun i hi => ?_
  rw [UInt32.toBitVec_or, BitVec.getLsbD_or, getLsbD_setField hi]
  cases m.toBitVec.getLsbD i <;> simp

/-- **The last word**: `g` reads a field, `h` says what an operation puts there if it does. -/
theorem foldl_last {α β γ : Type} {f : β → α → β} {g : β → γ} {h : α → Option γ}
    (hf : ∀ v a, g (f v a) = (h a).getD (g v)) (v : β) (l : List α) :
    g (l.foldl f v) = (l.filterMap h).getLast?.getD (g v) := by
  induction l using List.reverseRecOn with
  | nil => rfl
  | append_singleton l a ih =>
    rw [List.foldl_append, List.filterMap_append, List.foldl_cons, List.foldl_nil, hf, ih]
    cases ha : h a with
    | none => simp [ha]
    | some c => simp [ha]

end Ipq4019.Lib.Fields
