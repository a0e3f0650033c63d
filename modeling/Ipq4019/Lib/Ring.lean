import Mathlib.Data.Nat.ModEq
import Mathlib.Tactic.Common

/-!
# Indices of a ring

The ends of a ring of `N` slots only ever move forward.  We count the positions an end has passed;
position `i` is in slot `i % N`.  Two positions of one window of `N` are in different slots
(`mod_ne`), so the index alone tells how far one end is ahead of another (`ahead_mod`), as long as
it is less than a whole lap.

`bump n h` is the step of a 16-bit index that is reset on reaching the ring's size.
-/

namespace Ipq4019.Lib.Ring

/-- Different positions of one window are in different slots. -/
theorem mod_ne {N a b : ℕ} (h : a < b) (h' : b < a + N) : a % N ≠ b % N := by
  intro he
  have hd : N ∣ b - a := (Nat.modEq_iff_dvd' h.le).mp he
  have := Nat.le_of_dvd (by omega) hd
  omega

theorem mod_inj {N a b : ℕ} (h : a < b + N) (h' : b < a + N) : a % N = b % N ↔ a = b := by
  refine ⟨fun he => ?_, fun he => by rw [he]⟩
  rcases Nat.lt_trichotomy a b with hab | hab | hab
  · exact absurd he (mod_ne hab h')
  · exact hab
  · exact absurd he.symm (mod_ne hab h)

/-- How far the index `b` is ahead of the index `a`. -/
def ahead (N a b : ℕ) : ℕ := (b + N - a) % N

/-- **The indices tell the distance**, if it is less than a lap. -/
theorem ahead_mod {N a b : ℕ} (h : a ≤ b) (h' : b < a + N) : ahead N (a % N) (b % N) = b - a := by
  have hN : 0 < N := by omega
  have ha := Nat.mod_lt a hN
  have he : (b % N + N - a % N) % N = (b - a) % N := by
    refine Nat.ModEq.add_right_cancel' (a % N) ?_
    rw [Nat.sub_add_cancel (by omega)]
    calc b % N + N ≡ b [MOD N] := by
          simpa using (Nat.mod_modEq b N).add_right N |>.trans (by simp [Nat.ModEq])
      _ = b - a + a := by omega
      _ ≡ b - a + a % N [MOD N] := (Nat.mod_modEq a N).symm.add_left _
  rw [ahead, he]
  exact Nat.mod_eq_of_lt (by omega)

/-- A 16-bit index steps, and is reset on reaching the size of the ring. -/
def bump (n : ℕ) (h : UInt16) : UInt16 := if (h + 1).toNat = n then 0 else h + 1

theorem toNat_bump {n : ℕ} {h : UInt16} (hh : h.toNat < n) (hn : n < 2 ^ 16) :
    (bump n h).toNat = (h.toNat + 1) % n := by
  have hs : (h + 1).toNat = h.toNat + 1 := by
    rw [UInt16.toNat_add]
    exact Nat.mod_eq_of_lt (by simp; omega)
  unfold bump
  by_cases he : h.toNat + 1 = n
  · rw [if_pos (by rw [hs, he]), he, Nat.mod_self]; rfl
  · rw [if_neg (by rw [hs]; exact he), hs]
    exact (Nat.mod_eq_of_lt (by omega)).symm

/-- **An index that follows a position keeps following it.** -/
theorem toNat_bump_of_mod {n i : ℕ} {h : UInt16} (hh : h.toNat = i % n) (hn : 0 < n)
    (hn' : n < 2 ^ 16) : (bump n h).toNat = (i + 1) % n := by
  rw [toNat_bump (by rw [hh]; exact Nat.mod_lt _ hn) hn', hh, Nat.mod_add_mod]

end Ipq4019.Lib.Ring
