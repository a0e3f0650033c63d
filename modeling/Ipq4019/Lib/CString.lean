import Mathlib.Data.List.DropRight
import Mathlib.Data.List.TakeWhile
import Mathlib.Tactic.Common

/-!
# C strings in a buffer

A buffer is the list of its bytes.  `peek` and `poke` fail outside of it, and so does `put`, which
stores bytes one after the other; `strlen` counts up to the first 0, and fails if there is none.
`text` is the string that begins a buffer, and `behindLast` what follows the last place of a key in
a string.
-/

namespace Ipq4019.Lib.CString

/-- `b[i]` -/
def peek (b : List UInt8) (i : ℕ) : Option UInt8 := b[i]?

/-- `b[i] = v` -/
def poke (b : List UInt8) (i : ℕ) (v : UInt8) : Option (List UInt8) :=
  if i < b.length then some (b.set i v) else none

/-- The bytes are stored from `b[i]` on. -/
def put (b : List UInt8) (i : ℕ) : List UInt8 → Option (List UInt8)
  | [] => some b
  | v :: vs => do
    let b ← poke b i v
    put b (i + 1) vs

/-- The string that begins the buffer. -/
def text (b : List UInt8) : List UInt8 := b.takeWhile (· ≠ 0)

def strlen : List UInt8 → Option ℕ
  | [] => none
  | c :: b => if c = 0 then some 0 else (strlen b).map (· + 1)

/-- `strncpy(b, t, n)`, where `t` is the string without its 0. -/
def strncpy (b t : List UInt8) (n : ℕ) : List UInt8 :=
  (t ++ List.replicate n 0).take n ++ b.drop n

/-- The first bytes of the buffer are replaced. -/
def overwrite (b d : List UInt8) : List UInt8 := d ++ b.drop d.length

/-- What is behind the last place of `key`. -/
def behindLast (key : List UInt8) : List UInt8 → Option (List UInt8)
  | [] => none
  | c :: t => (behindLast key t).or ((c :: t).dropPrefix? key)

variable {b d t key : List UInt8} {i n : ℕ} {c v : UInt8}

theorem text_append_zero (h : (0 : UInt8) ∉ t) (r : List UInt8) : text (t ++ 0 :: r) = t := by
  unfold text
  have ht : ∀ x ∈ t, decide (x ≠ 0) = true := by
    intro x hx
    have : x ≠ 0 := fun he => h (he ▸ hx)
    simp [this]
  rw [List.takeWhile_append_of_pos ht]
  simp

theorem zero_notMem_text : (0 : UInt8) ∉ text b := by
  intro h
  have := List.mem_takeWhile_imp h
  simp at this

theorem strlen_eq (h : (0 : UInt8) ∈ b) : strlen b = some (text b).length := by
  induction b with
  | nil => simp at h
  | cons x b ih =>
    unfold strlen
    by_cases hx : x = 0
    · simp [hx, text]
    · have hmem : (0 : UInt8) ∈ b := by
        rcases List.mem_cons.mp h with h | h
        · exact absurd h.symm hx
        · exact h
      have htext : text (x :: b) = x :: text b := by simp [text, hx]
      rw [if_neg hx, ih hmem, htext]
      rfl

theorem length_overwrite (h : d.length ≤ b.length) : (overwrite b d).length = b.length := by
  unfold overwrite
  rw [List.length_append, List.length_drop]
  omega

theorem take_overwrite : (overwrite b d).take d.length = d := List.take_left

theorem length_strncpy (h : n ≤ b.length) : (strncpy b t n).length = b.length := by
  unfold strncpy
  rw [List.length_append, List.length_take, List.length_append, List.length_replicate,
    List.length_drop]
  omega

theorem getElem?_overwrite (h : d.length ≤ i) : (overwrite b d)[i]? = b[i]? := by
  unfold overwrite
  rw [List.getElem?_append_right h, List.getElem?_drop]
  congr 1
  omega

theorem getElem?_strncpy (h : n ≤ i) : (strncpy b t n)[i]? = b[i]? := by
  unfold strncpy
  have hlen : ((t ++ List.replicate n 0).take n).length = n := by
    rw [List.length_take, List.length_append, List.length_replicate]
    omega
  rw [List.getElem?_append_right (by omega), hlen, List.getElem?_drop]
  congr 1
  omega

/-- Storing within the buffer puts the bytes there. -/
theorem put_eq : ∀ (vs : List UInt8) {b : List UInt8} {i : ℕ}, i + vs.length ≤ b.length →
    put b i vs = some (b.take i ++ vs ++ b.drop (i + vs.length))
  | [], b, i, _ => by
    unfold put
    simp
  | v :: vs, b, i, h => by
    rw [List.length_cons] at h
    have hi : i < b.length := by omega
    have hpoke : poke b i v = some (b.set i v) := if_pos hi
    have hrest : i + 1 + vs.length ≤ (b.set i v).length := by
      rw [List.length_set]
      omega
    have htake : (b.set i v).take (i + 1) = b.take i ++ [v] := by
      rw [List.take_succ_eq_append_getElem (by rwa [List.length_set]), List.getElem_set_self,
        List.take_set_of_le le_rfl]
    have hdrop : (b.set i v).drop (i + 1 + vs.length) = b.drop (i + (v :: vs).length) := by
      rw [List.drop_set_of_lt (by omega), List.length_cons]
      congr 1
      omega
    unfold put
    rw [hpoke, Option.bind_eq_bind, Option.bind_some, put_eq vs hrest, htake, hdrop]
    simp

/-- A string stored over the 0 of another one continues it. -/
theorem put_text (h : (text b).length + d.length < b.length) (hd : (0 : UInt8) ∉ d) :
    ∃ b', put b (text b).length (d ++ [0]) = some b' ∧ b'.length = b.length ∧ (0 : UInt8) ∈ b' ∧
      text b' = text b ++ d := by
  have hlen : (text b).length + (d ++ [0]).length ≤ b.length := by
    rw [List.length_append, List.length_singleton]
    omega
  have htake : b.take (text b).length = text b :=
    (List.prefix_iff_eq_take.mp (List.takeWhile_prefix _)).symm
  refine ⟨_, put_eq _ hlen, ?_, by simp, ?_⟩
  · rw [List.length_append, List.length_append, List.length_take, List.length_drop]
    omega
  · rw [htake, ← List.append_assoc, List.append_assoc _ [0], List.singleton_append]
    refine text_append_zero (fun hm => ?_) _
    rcases List.mem_append.mp hm with hm | hm
    · exact zero_notMem_text hm
    · exact hd hm

/-! ### The last place of a key -/

/-- A string before it changes nothing. -/
theorem behindLast_append (h : behindLast key t = some d) (s : List UInt8) :
    behindLast key (s ++ t) = some d := by
  induction s with
  | nil => exact h
  | cons x s ih =>
    rw [List.cons_append]
    unfold behindLast
    rw [ih, Option.some_or]

theorem behindLast_eq_none (h : c ∉ t) : behindLast (c :: key) t = none := by
  induction t with
  | nil => rfl
  | cons x t ih =>
    obtain ⟨hx, ht⟩ := not_or.mp (mt List.mem_cons.mpr h)
    have hfirst : (x :: t).dropPrefix? (c :: key) = none := by
      simp [List.dropPrefix?, Ne.symm hx]
    unfold behindLast
    rw [ih ht, hfirst, Option.or_none]

/-- A key that begins with a character that is not in the rest of it, nor behind it. -/
theorem behindLast_key (h : c ∉ key ++ d) (s : List UInt8) :
    behindLast (c :: key) (s ++ (c :: key ++ d)) = some d := by
  refine behindLast_append ?_ s
  have hkey : (c :: key ++ d).dropPrefix? (c :: key) = some d :=
    List.dropPrefix?_append_of_beq _ (beq_self_eq_true _)
  rw [List.cons_append] at hkey ⊢
  unfold behindLast
  rw [behindLast_eq_none h, Option.none_or, hkey]

end Ipq4019.Lib.CString
