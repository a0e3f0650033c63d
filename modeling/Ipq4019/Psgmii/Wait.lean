import Mathlib.Order.Nat
import Ipq4019.Lib.Fields
import Ipq4019.Psgmii.Driver

/-!
# The PSGMII self-test: waiting for the PHYs

`psgmii_st_phy_wait` goes over the PHYs of a mask round after round and drops those that pass.  The
check is any program, on any machine: its outcomes may vary as they like.

* `run_waitRound`, `run_waitRounds`: the checks that a run makes, in order, with their outcomes.
* `phy_wait`: which checks these are, and the result.
-/

namespace Ipq4019.Psgmii.Wait

open Ipq4019.Lib.Interleave Ipq4019.Lib.Interleave.Prog Ipq4019.Lib.Fields
open Ipq4019.Chip.Access Ipq4019.Psgmii.Driver

variable {σ : Type} {M : Machine socSig σ} {check : UInt8 → Soc Int} {delay : ℕ} {s s' : σ}
  {l : List (SocOp × σ)} {mask mask' : UInt32}

/-! ### Masks -/

/-- The mask has the bit `p`. -/
def Has (mask : UInt32) (p : ℕ) : Prop := mask.toBitVec.getLsbD p = true

instance (mask : UInt32) (p : ℕ) : Decidable (Has mask p) := by unfold Has; infer_instance

theorem bit_getLsbD : ∀ p < 32, ∀ q < 32,
    ((1 : UInt32) <<< UInt32.ofNat p).toBitVec.getLsbD q = decide (q = p) := by decide +kernel

theorem has_iff {p : ℕ} (hp : p < 32) : mask &&& (1 : UInt32) <<< UInt32.ofNat p ≠ 0 ↔ Has mask p := by
  constructor
  · intro h
    by_contra hn
    refine h (ext_bits fun q hq => ?_)
    rw [UInt32.toBitVec_and, BitVec.getLsbD_and, bit_getLsbD p hp q hq]
    by_cases hqp : q = p
    · rw [hqp]
      unfold Has at hn
      simp [hn]
    · simp [hqp]
  · intro h he
    have hbit := congrArg (fun w => w.toBitVec.getLsbD p) he
    simp only [UInt32.toBitVec_and, BitVec.getLsbD_and, bit_getLsbD p hp p hp] at hbit
    unfold Has at h
    simp [h] at hbit

theorem has_clear {p q : ℕ} (hp : p < 32) (hq : q < 32) :
    Has (mask &&& ~~~((1 : UInt32) <<< UInt32.ofNat p)) q ↔ Has mask q ∧ q ≠ p := by
  unfold Has
  rw [UInt32.toBitVec_and, UInt32.toBitVec_not, BitVec.getLsbD_and, BitVec.getLsbD_not,
    bit_getLsbD p hp q hq]
  simp [hq]

theorem eq_zero_iff : mask = 0 ↔ ∀ q < 32, ¬ Has mask q := by
  refine ⟨fun h q _ => ?_, fun h => ext_bits fun q hq => ?_⟩
  · rw [h]
    simp [Has]
  · have hn := h q hq
    unfold Has at hn
    simp [hn]

/-- No bit above the port PHYs'. -/
theorem lt_iff : mask.toNat < 32 ↔ ∀ q, ipq4019NumPortPhy ≤ q → q < 32 → ¬ Has mask q := by
  have htest : ∀ q, mask.toBitVec.getLsbD q = mask.toNat.testBit q := fun q => rfl
  constructor
  · intro h q hq _ hh
    unfold Has at hh
    have hpow : 2 ^ ipq4019NumPortPhy ≤ 2 ^ q := Nat.pow_le_pow_right (by decide) hq
    rw [htest, Nat.testBit_lt_two_pow (Nat.lt_of_lt_of_le h hpow)] at hh
    cases hh
  · intro h
    refine Nat.lt_pow_two_of_testBit (n := 5) _ fun q hq => ?_
    by_cases h32 : q < 32
    · have hn := h q hq h32
      unfold Has at hn
      rw [htest] at hn
      simpa using hn
    · have hlt : mask.toNat < 2 ^ q :=
        Nat.lt_of_lt_of_le mask.toNat_lt (Nat.pow_le_pow_right (by decide) (by omega))
      exact Nat.testBit_lt_two_pow hlt

/-! ### Checks -/

/-- What a run is made of: checks with their outcomes, and pauses. -/
inductive Event
  | poll (phy : ℕ) (r : Int)
  | pause

/-- A run that is made of these. -/
inductive Segs (M : Machine socSig σ) (check : UInt8 → Soc Int) (delay : ℕ) :
    σ → List Event → List (SocOp × σ) → σ → Prop
  | nil {s s' : σ} (h : M.Env s s') : Segs M check delay s [] [] s'
  | poll {s s₁ s' : σ} {p : ℕ} {r : Int} {es : List Event} {l₁ l₂ : List (SocOp × σ)}
      (hr : Run M s (check (UInt8.ofNat p)) l₁ s₁ (.ret r)) (h : Segs M check delay s₁ es l₂ s') :
      Segs M check delay s (.poll p r :: es) (l₁ ++ l₂) s'
  | pause {s s₁ s' : σ} {u : Unit} {es : List Event} {l₁ l₂ : List (SocOp × σ)}
      (hr : Run M s (mdelay delay) l₁ s₁ (.ret u)) (h : Segs M check delay s₁ es l₂ s') :
      Segs M check delay s (.pause :: es) (l₁ ++ l₂) s'

theorem Segs.envs {s₁ : σ} {es : List Event} (h : Segs M check delay s es l s') (he : M.Env s₁ s) :
    Segs M check delay s₁ es l s' := by
  cases h with
  | nil h => exact .nil (he.trans h)
  | poll hr h => exact .poll ((Run.envs .refl he).trans hr) h
  | pause hr h => exact .pause ((Run.envs .refl he).trans hr) h

theorem Segs.append {s₁ : σ} {es es' : List Event} {l₁ l₂ : List (SocOp × σ)}
    (h : Segs M check delay s es l₁ s₁) (h' : Segs M check delay s₁ es' l₂ s') :
    Segs M check delay s (es ++ es') (l₁ ++ l₂) s' := by
  induction h with
  | nil he => exact h'.envs he
  | poll hr _ ih => rw [List.append_assoc]; exact .poll hr (ih h')
  | pause hr _ ih => rw [List.append_assoc]; exact .pause hr (ih h')

/-- What every check and every pause keeps to, the run does. -/
theorem Segs.forall {P : SocOp × σ → Prop} {es : List Event} (h : Segs M check delay s es l s')
    (hpoll : ∀ p r s l s', .poll p r ∈ es → Run M s (check (UInt8.ofNat p)) l s' (.ret r) →
      ∀ x ∈ l, P x) (hpause : ∀ t, P (.mdelay delay, t)) : ∀ x ∈ l, P x := by
  induction h with
  | nil _ => simp
  | poll hr _ ih =>
    intro x hx
    rcases List.mem_append.mp hx with hx | hx
    · exact hpoll _ _ _ _ _ List.mem_cons_self hr x hx
    · exact ih (fun p r s l s' hp => hpoll p r s l s' (List.mem_cons_of_mem _ hp)) x hx
  | pause hr _ ih =>
    intro x hx
    rcases List.mem_append.mp hx with hx | hx
    · rcases hr.op_inv with ⟨hq, -⟩ | ⟨t, l', -, rfl, hr'⟩
      · cases hq
      · obtain ⟨-, rfl, -⟩ := hr'.ret_inv
        rw [List.mem_singleton.mp hx]
        exact hpause t
    · exact ih (fun p r s l s' hp => hpoll p r s l s' (List.mem_cons_of_mem _ hp)) x hx

/-! ### One round -/

/-- **A round**: each PHY of the mask is checked once, and those that pass leave it. -/
theorem run_waitRound : ∀ {phys : List ℕ}, phys.Nodup → (∀ p ∈ phys, p < 32) → ∀ {mask : UInt32}
    {s : σ} {l : List (SocOp × σ)}, Run M s (waitRound check phys mask) l s' (.ret mask') →
    ∃ o : ℕ → Int, Segs M check delay s ((phys.filter (Has mask ·)).map fun p => .poll p (o p)) l s' ∧
      ∀ q < 32, Has mask' q ↔ Has mask q ∧ (q ∈ phys → o q = 0)
  | [], _, _, mask, s, l, h => by
    obtain ⟨hm, rfl, he⟩ := h.ret_inv
    cases hm
    exact ⟨fun _ => 0, .nil he, by simp⟩
  | p :: phys, hnd, hlt, mask, s, l, h => by
    obtain ⟨hp, hnd⟩ := List.nodup_cons.mp hnd
    obtain ⟨hp32, hlt⟩ := List.forall_mem_cons.mp hlt
    change Run M s (if mask &&& (1 : UInt32) <<< UInt32.ofNat p = 0 then waitRound check phys mask
      else check (UInt8.ofNat p) >>= fun r => waitRound check phys
        (if r ≠ 0 then mask &&& ~~~((1 : UInt32) <<< UInt32.ofNat p) else mask)) l s' _ at h
    by_cases hbit : Has mask p
    · rw [if_neg ((has_iff hp32).mpr hbit)] at h
      obtain ⟨l₁, l₂, s₁, r, h₁, h₂, rfl⟩ := Run.bind_inv h
      obtain ⟨o, hsegs, hmask⟩ := run_waitRound hnd hlt h₂
      generalize hnext : (if r ≠ 0 then mask &&& ~~~((1 : UInt32) <<< UInt32.ofNat p) else mask) =
        next at hsegs hmask
      have hhas : ∀ q < 32, Has next q ↔ Has mask q ∧ (q = p → r = 0) := by
        intro q hq
        rw [← hnext]
        by_cases hr : r = 0
        · simp [hr]
        · rw [if_pos hr, has_clear hp32 hq]
          simp [hr]
      have hne : ∀ q ∈ phys, q ≠ p := fun q hq he => hp (he ▸ hq)
      have hupd : ∀ q ∈ phys, Function.update o p r q = o q := fun q hq =>
        Function.update_of_ne (hne q hq) _ _
      have hfilter : phys.filter (Has next ·) = phys.filter (Has mask ·) := by
        refine List.filter_congr fun q hq => ?_
        have hiff := hhas q (hlt q hq)
        simp [hiff, hne q hq]
      refine ⟨Function.update o p r, ?_, fun q hq => ?_⟩
      · rw [List.filter_cons_of_pos (by simpa using hbit), List.map_cons, Function.update_self]
        refine .poll h₁ ?_
        rw [hfilter] at hsegs
        have hmap : ((phys.filter (Has mask ·)).map fun q => Event.poll q (Function.update o p r q)) =
            (phys.filter (Has mask ·)).map fun q => Event.poll q (o q) :=
          List.map_congr_left fun q hq => by rw [hupd q ((List.mem_filter.mp hq).1)]
        rwa [hmap]
      · rw [hmask q hq, hhas q hq]
        by_cases hqp : q = p
        · subst hqp
          simp [hp]
        · simp [hqp]
    · have hzero : mask &&& (1 : UInt32) <<< UInt32.ofNat p = 0 := by
        by_contra hz
        exact hbit ((has_iff hp32).mp hz)
      rw [if_pos hzero] at h
      obtain ⟨o, hsegs, hmask⟩ := run_waitRound hnd hlt h
      refine ⟨o, ?_, fun q hq => ?_⟩
      · rw [List.filter_cons_of_neg (by simpa using hbit)]
        exact hsegs
      · rw [hmask q hq]
        by_cases hqp : q = p
        · subst hqp
          simp [hbit]
        · simp [hqp]

/-! ### All rounds -/

/-- The PHY has not passed in the rounds from `j` up to `i`, or is none that is checked. -/
def Left (o : ℕ → ℕ → Int) (mask : UInt32) (j i p : ℕ) : Prop :=
  Has mask p ∧ (p < ipq4019NumPortPhy → ∀ k < i, j ≤ k → o k p = 0)

instance (o : ℕ → ℕ → Int) (mask : UInt32) (j i p : ℕ) : Decidable (Left o mask j i p) := by
  unfold Left; infer_instance

/-- All PHYs of the mask have passed. -/
def AllPassed (o : ℕ → ℕ → Int) (mask : UInt32) (j i : ℕ) : Prop := ∀ p < 32, ¬ Left o mask j i p

instance (o : ℕ → ℕ → Int) (mask : UInt32) (j i : ℕ) : Decidable (AllPassed o mask j i) := by
  unfold AllPassed; infer_instance

/-- What happens in the round `i`, of those from `j` on: those left are checked, and there is a pause
unless all have passed then. -/
def roundEvents (o : ℕ → ℕ → Int) (mask : UInt32) (j i : ℕ) : List Event :=
  (((List.range ipq4019NumPortPhy).filter (Left o mask j i ·)).map fun p => .poll p (o i p)) ++
    if AllPassed o mask j (i + 1) then [] else [.pause]

/-- `n` rounds from `j` on are right where there may be `m`. -/
structure Rounds (o : ℕ → ℕ → Int) (mask : UInt32) (j m n : ℕ) : Prop where
  le : n ≤ m
  goes_on : ∀ i, j < i → i < j + n → ¬ AllPassed o mask j i
  ends : n < m → 0 < n ∧ AllPassed o mask j (j + n)

theorem left_first {o : ℕ → ℕ → Int} {j p : ℕ} : Left o mask j j p ↔ Has mask p :=
  ⟨fun h => h.1, fun h => ⟨h, fun _ k hk hjk => by omega⟩⟩

section first

/- The round `j`, with its outcomes, and what it leaves of the mask. -/
variable {o : ℕ → ℕ → Int} {o₀ : ℕ → Int} {j : ℕ}
  (hmask : ∀ q < 32, Has mask' q ↔ Has mask q ∧ (q ∈ List.range ipq4019NumPortPhy → o₀ q = 0))
include hmask

/-- The rounds after it are the same from there. -/
theorem left_next {i p : ℕ} (hp : p < 32) (hi : j < i) :
    Left (Function.update o j o₀) mask j i p ↔ Left o mask' (j + 1) i p := by
  have hlater : ∀ k, j + 1 ≤ k → Function.update o j o₀ k p = o k p := by
    intro k hk
    rw [Function.update_of_ne (by omega)]
  unfold Left
  rw [hmask p hp, List.mem_range]
  constructor
  · rintro ⟨hm, h⟩
    refine ⟨⟨hm, fun h5 => ?_⟩, fun h5 k hk hjk => ?_⟩
    · have hj := h h5 j hi le_rfl
      rwa [Function.update_self] at hj
    · have hk' := h h5 k hk (by omega)
      rwa [hlater k hjk] at hk'
  · rintro ⟨⟨hm, hj⟩, h⟩
    refine ⟨hm, fun h5 k hk hjk => ?_⟩
    rcases Nat.eq_or_lt_of_le hjk with rfl | hlt
    · rw [Function.update_self]
      exact hj h5
    · rw [hlater k hlt]
      exact h h5 k hk hlt

theorem left_succ {p : ℕ} (hp : p < 32) :
    Left (Function.update o j o₀) mask j (j + 1) p ↔ Has mask' p :=
  (left_next hmask hp (by omega)).trans left_first

theorem allPassed_next {i : ℕ} (hi : j < i) :
    AllPassed (Function.update o j o₀) mask j i ↔ AllPassed o mask' (j + 1) i := by
  refine forall₂_congr fun p hp => ?_
  rw [left_next hmask hp hi]

theorem roundEvents_first : roundEvents (Function.update o j o₀) mask j j =
    (((List.range ipq4019NumPortPhy).filter (Has mask ·)).map fun p => Event.poll p (o₀ p)) ++
      if mask' = 0 then [] else [.pause] := by
  have hfilter : (List.range ipq4019NumPortPhy).filter
      (Left (Function.update o j o₀) mask j j ·) =
        (List.range ipq4019NumPortPhy).filter (Has mask ·) :=
    List.filter_congr fun p _ => decide_eq_decide.mpr left_first
  have hall : AllPassed (Function.update o j o₀) mask j (j + 1) ↔ mask' = 0 := by
    rw [eq_zero_iff]
    refine forall₂_congr fun p hp => ?_
    rw [left_succ hmask hp]
  unfold roundEvents
  rw [hfilter, Function.update_self]
  simp only [hall]

theorem roundEvents_next {i : ℕ} (hi : j < i) :
    roundEvents (Function.update o j o₀) mask j i = roundEvents o mask' (j + 1) i := by
  have hfilter : (List.range ipq4019NumPortPhy).filter
      (Left (Function.update o j o₀) mask j i ·) =
        (List.range ipq4019NumPortPhy).filter (Left o mask' (j + 1) i ·) := by
    refine List.filter_congr fun p hp => decide_eq_decide.mpr (left_next hmask ?_ hi)
    exact (List.mem_range.mp hp).trans (by decide)
  unfold roundEvents
  rw [hfilter, Function.update_of_ne (by omega)]
  simp only [allPassed_next hmask (show j < i + 1 by omega)]

end first

/-- **The rounds**, numbered from `j` on. -/
theorem run_waitRounds : ∀ {m j : ℕ} {mask : UInt32} {s : σ} {l : List (SocOp × σ)},
    Run M s (waitRounds delay check m mask) l s' (.ret mask') →
    ∃ o n, Rounds o mask j m n ∧
      Segs M check delay s ((List.range' j n).flatMap (roundEvents o mask j)) l s' ∧
      ∀ q < 32, Has mask' q ↔ Left o mask j (j + n) q
  | 0, j, mask, s, l, h => by
    obtain ⟨hm, rfl, he⟩ := h.ret_inv
    cases hm
    refine ⟨fun _ _ => 0, 0, ⟨le_rfl, ?_, ?_⟩, .nil he, ?_⟩
    · omega
    · omega
    · intro q _
      exact ⟨fun hq => ⟨hq, fun _ k hk hjk => by omega⟩, fun hq => hq.1⟩
  | m + 1, j, mask, s, l, h => by
    obtain ⟨l₁, l₂, s₁, mask₁, h₁, h₂, rfl⟩ := Run.bind_inv h
    obtain ⟨o₀, hsegs₀, hmask₀⟩ := run_waitRound List.nodup_range
      (fun p hp => (List.mem_range.mp hp).trans (by decide)) h₁
    by_cases hz : mask₁ = 0
    · change Run M s₁ (if mask₁ = 0 then .ret mask₁ else _) l₂ s' _ at h₂
      rw [if_pos hz] at h₂
      obtain ⟨hm, rfl, he⟩ := h₂.ret_inv
      cases hm
      refine ⟨Function.update (fun _ _ => 0) j o₀, 1, ⟨by omega, by omega, fun _ => ⟨Nat.one_pos, ?_⟩⟩,
        ?_, fun q hq => (left_succ hmask₀ hq).symm⟩
      · intro p hp hleft
        exact eq_zero_iff.mp hz p hp ((left_succ hmask₀ hp).mp hleft)
      · change Segs M check delay s ([j].flatMap _) _ _
        rw [List.flatMap_singleton, roundEvents_first hmask₀, if_pos hz]
        exact hsegs₀.append (.nil he)
    · change Run M s₁ (if mask₁ = 0 then .ret mask₁ else mdelay delay >>= fun _ =>
        waitRounds delay check m mask₁) l₂ s' _ at h₂
      rw [if_neg hz] at h₂
      obtain ⟨l₃, l₄, s₂, u, h₃, h₄, rfl⟩ := Run.bind_inv h₂
      obtain ⟨o, n, hrounds, hsegs, hmask⟩ := run_waitRounds (j := j + 1) h₄
      have hshift : j + (n + 1) = j + 1 + n := by omega
      refine ⟨Function.update o j o₀, n + 1, ⟨?_, fun i hji hi => ?_, fun hn => ⟨by omega, ?_⟩⟩,
        ?_, fun q hq => ?_⟩
      · have := hrounds.le
        omega
      · rw [allPassed_next hmask₀ hji]
        rcases Nat.eq_or_lt_of_le hji with rfl | hlt
        · intro hall
          refine hz (eq_zero_iff.mpr fun q hq hh => ?_)
          exact hall q hq (left_first.mpr hh)
        · exact hrounds.goes_on i hlt (by omega)
      · rw [hshift, allPassed_next hmask₀ (by omega)]
        exact (hrounds.ends (by omega)).2
      · have hlater : (List.range' (j + 1) n).flatMap (roundEvents (Function.update o j o₀) mask j) =
            (List.range' (j + 1) n).flatMap (roundEvents o mask₁ (j + 1)) := by
          rw [List.flatMap_def, List.flatMap_def]
          congr 1
          refine List.map_congr_left fun i hi => ?_
          have hji := (List.mem_range'_1.mp hi).1
          exact roundEvents_next hmask₀ (by omega)
        rw [List.range'_succ, List.flatMap_cons, roundEvents_first hmask₀, if_neg hz, hlater,
          List.append_assoc]
        exact hsegs₀.append (.pause h₃ hsegs)
      · rw [hmask q hq, hshift, left_next hmask₀ hq (by omega)]

/-! ### The result -/

/-- The PHYs of the mask have all passed in one of the first `n` rounds. -/
def Passes (o : ℕ → ℕ → Int) (mask : UInt32) (n : ℕ) : Prop :=
  mask.toNat < 32 ∧ ∀ p < ipq4019NumPortPhy, Has mask p → ∃ i < n, o i p ≠ 0

theorem Passes.mono {o : ℕ → ℕ → Int} {n m : ℕ} (h : Passes o mask n) (hle : n ≤ m) :
    Passes o mask m := by
  refine ⟨h.1, fun p h5 hh => ?_⟩
  obtain ⟨i, hi, hne⟩ := h.2 p h5 hh
  exact ⟨i, hi.trans_le hle, hne⟩

theorem allPassed_iff {o : ℕ → ℕ → Int} {n : ℕ} : AllPassed o mask 0 n ↔ Passes o mask n := by
  unfold Passes
  rw [lt_iff]
  constructor
  · intro h
    refine ⟨fun q h5 h32 hh => h q h32 ⟨hh, fun hlt => by omega⟩, fun p h5 hh => ?_⟩
    by_contra hno
    refine h p (h5.trans (by decide)) ⟨hh, fun _ k hk _ => ?_⟩
    by_contra hne
    exact hno ⟨k, hk, hne⟩
  · rintro ⟨hhigh, hpass⟩ p h32 ⟨hh, hleft⟩
    by_cases h5 : p < ipq4019NumPortPhy
    · obtain ⟨i, hi, hne⟩ := hpass p h5 hh
      exact hne (hleft h5 i hi (Nat.zero_le i))
    · exact hhigh p (by omega) h32 hh

/-- The checks of `n` rounds. -/
def events (o : ℕ → ℕ → Int) (mask : UInt32) (n : ℕ) : List Event :=
  (List.range n).flatMap (roundEvents o mask 0)

/-! ### Which checks are made -/

theorem mem_events {o : ℕ → ℕ → Int} {n p : ℕ} {r : Int} : .poll p r ∈ events o mask n ↔
    ∃ i < n, r = o i p ∧ p < ipq4019NumPortPhy ∧ Has mask p ∧ ∀ k < i, o k p = 0 := by
  have hpause : ∀ i, Event.poll p r ∉ (if AllPassed o mask 0 (i + 1) then [] else [.pause]) := by
    intro i
    split_ifs <;> simp
  unfold events roundEvents
  simp only [List.mem_flatMap, List.mem_range, List.mem_append, hpause, or_false, List.mem_map,
    List.mem_filter, decide_eq_true_eq, Event.poll.injEq]
  constructor
  · rintro ⟨i, hi, q, ⟨h5, hleft⟩, rfl, hr⟩
    exact ⟨i, hi, hr.symm, h5, hleft.1, fun k hk => hleft.2 h5 k hk (Nat.zero_le k)⟩
  · rintro ⟨i, hi, hr, h5, hh, hk⟩
    exact ⟨i, hi, p, ⟨h5, hh, fun _ k hlt _ => hk k hlt⟩, rfl, hr.symm⟩

/-- A PHY has passed a check exactly if it passes one at all. -/
theorem exists_poll {o : ℕ → ℕ → Int} {n p : ℕ} (h5 : p < ipq4019NumPortPhy) (hh : Has mask p) :
    (∃ r, .poll p r ∈ events o mask n ∧ r ≠ 0) ↔ ∃ i < n, o i p ≠ 0 := by
  constructor
  · rintro ⟨r, hr, hne⟩
    obtain ⟨i, hi, rfl, -⟩ := mem_events.mp hr
    exact ⟨i, hi, hne⟩
  · intro h
    -- the first time it passes
    obtain ⟨hi, hne⟩ := Nat.find_spec h
    refine ⟨o (Nat.find h) p, mem_events.mpr ⟨Nat.find h, hi, rfl, h5, hh, fun k hk => ?_⟩, hne⟩
    by_contra hk0
    exact Nat.find_min h hk ⟨hk.trans hi, hk0⟩

/-- The first of two checks of one PHY failed. -/
def Failed (e e' : Event) : Prop := ∀ p r r', e = .poll p r → e' = .poll p r' → r = 0

theorem mem_roundEvents {o : ℕ → ℕ → Int} {i p : ℕ} {r : Int}
    (h : .poll p r ∈ roundEvents o mask 0 i) :
    r = o i p ∧ p < ipq4019NumPortPhy ∧ Left o mask 0 i p := by
  unfold roundEvents at h
  rcases List.mem_append.mp h with h | h
  · obtain ⟨q, hq, he⟩ := List.mem_map.mp h
    obtain ⟨rfl, rfl⟩ := Event.poll.inj he
    rw [List.mem_filter, List.mem_range, decide_eq_true_eq] at hq
    exact ⟨rfl, hq⟩
  · split_ifs at h <;> simp at h

theorem failed_events (o : ℕ → ℕ → Int) (mask : UInt32) (n : ℕ) :
    (events o mask n).Pairwise Failed := by
  refine List.pairwise_flatMap.mpr ⟨fun i _ => ?_, ?_⟩
  · -- within a round no PHY is checked twice
    refine List.pairwise_append.mpr ⟨?_, ?_, fun e _ e' he' p r r' _ heq => ?_⟩
    · refine List.Pairwise.map _ (R := fun p q => p ≠ q) ?_ (List.nodup_range.filter _)
      rintro p q hpq x r r' hp hq
      obtain ⟨rfl, -⟩ := Event.poll.inj hp
      obtain ⟨rfl, -⟩ := Event.poll.inj hq
      exact absurd rfl hpq
    · split_ifs <;> simp
    · rw [heq] at he'
      split_ifs at he' <;> simp at he'
  · refine List.pairwise_lt_range.imp fun hij e he e' he' p r r' hep hep' => ?_
    rw [hep] at he
    rw [hep'] at he'
    obtain ⟨rfl, h5, -⟩ := mem_roundEvents he
    exact (mem_roundEvents he').2.2.2 h5 _ hij (Nat.zero_le _)

/-! ### The harness -/

/-- **What the harness should do** when there may be `m` rounds, with `o i p` the outcome of the
check of the PHY `p` in the round `i`: `n` rounds take place. -/
structure Waits (o : ℕ → ℕ → Int) (mask : UInt32) (m n : ℕ) (r : Int) : Prop where
  le : n ≤ m
  goes_on : ∀ i, 0 < i → i < n → ¬ Passes o mask i
  stops : n < m → 0 < n ∧ Passes o mask n
  only : ∀ p r, .poll p r ∈ events o mask n → p < ipq4019NumPortPhy ∧ Has mask p
  once : (events o mask n).Pairwise Failed
  bool : r = 0 ∨ r = 1
  result : r = 1 ↔ Passes o mask m

/-- The rounds that take place decide. -/
theorem Waits.passes_iff {o : ℕ → ℕ → Int} {m n : ℕ} {r : Int} (h : Waits o mask m n r) :
    Passes o mask m ↔ Passes o mask n := by
  rcases Nat.eq_or_lt_of_le h.le with heq | hlt
  · rw [heq]
  · exact iff_of_true ((h.stops hlt).2.mono h.le) (h.stops hlt).2

/-- **A run of the harness**, on any machine and with any check. -/
theorem phy_wait {retries r : Int}
    (h : Run M s (psgmiiStPhyWait mask retries delay check) l s' (.ret r)) :
    ∃ o n, Waits o mask retries.toNat n r ∧ Segs M check delay s (events o mask n) l s' := by
  obtain ⟨l₁, l₂, s₁, mask', h₁, h₂, rfl⟩ := Run.bind_inv h
  obtain ⟨hr, rfl, he⟩ := h₂.ret_inv
  obtain ⟨o, n, hrounds, hsegs, hmask⟩ := run_waitRounds (j := 0) h₁
  have hzero : mask' = 0 ↔ Passes o mask n := by
    rw [eq_zero_iff, ← allPassed_iff]
    refine forall₂_congr fun q hq => ?_
    rw [hmask q hq, Nat.zero_add]
  have hresult : r = if mask' = 0 then 1 else 0 := Prog.ret.inj hr
  have hone : r = 1 ↔ Passes o mask n := by
    rw [hresult, ← hzero]
    split_ifs with hz <;> simp [hz]
  have hends : n < retries.toNat → 0 < n ∧ Passes o mask n := by
    intro hn
    have hend := hrounds.ends hn
    rw [Nat.zero_add] at hend
    exact ⟨hend.1, allPassed_iff.mp hend.2⟩
  have hwaits : Waits o mask retries.toNat n r := by
    refine ⟨hrounds.le, fun i h0 hi hp => ?_, hends, fun p r hp => ?_, failed_events o mask n, ?_,
      hone.trans ?_⟩
    · exact hrounds.goes_on i h0 (by omega) (allPassed_iff.mpr hp)
    · obtain ⟨i, _, _, h5, hh, _⟩ := mem_events.mp hp
      exact ⟨h5, hh⟩
    · rw [hresult]
      split_ifs
      · exact Or.inr rfl
      · exact Or.inl rfl
    · rcases Nat.eq_or_lt_of_le hrounds.le with heq | hlt
      · rw [heq]
      · exact iff_of_true (hends hlt).2 ((hends hlt).2.mono hrounds.le)
  refine ⟨o, n, hwaits, ?_⟩
  have happ := hsegs.append (Segs.nil he : Segs M check delay s₁ [] [] s')
  rw [List.append_nil] at happ
  unfold events
  rwa [List.range_eq_range']

end Ipq4019.Psgmii.Wait
