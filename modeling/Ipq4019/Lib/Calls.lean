import Ipq4019.Lib.Interleave

/-!
# Runs, call by call

A driver is a family of programs, the entry points, that are called one after another while the
device goes on between the calls as within them.  A run is a list of the calls that were made, each
with the states before and after it, its operations, and its result.

* `CallRun.forall`: what each call establishes holds of every call of a run.
* `CallRun.rel`: what no step falsifies relates any two points of a run.
-/

namespace Ipq4019.Lib.Calls

open Ipq4019.Lib.Interleave

variable {S : Sig} {σ κ : Type} {ρ : κ → Type}

/-- A call that was made. -/
structure CallRec (S : Sig) (σ : Type) {κ : Type} (ρ : κ → Type) where
  call : κ
  before : σ
  hist : List (S.Op × σ)
  out : ρ call
  after : σ

/-- **A run of calls.** -/
inductive CallRun (M : Machine S σ) (prog : (c : κ) → Prog S (ρ c)) :
    σ → List (CallRec S σ ρ) → σ → Prop
  | nil (s : σ) : CallRun M prog s [] s
  | env {s s₁ s₂ : σ} {cs : List (CallRec S σ ρ)} (he : M.env s s₁)
      (h : CallRun M prog s₁ cs s₂) : CallRun M prog s cs s₂
  | call {s s₁ s₂ : σ} {c : κ} {l : List (S.Op × σ)} {out : ρ c} {cs : List (CallRec S σ ρ)}
      (hr : Run M s (prog c) l s₁ (.ret out)) (h : CallRun M prog s₁ cs s₂) :
      CallRun M prog s (⟨c, s, l, out, s₁⟩ :: cs) s₂

variable {M : Machine S σ} {prog : (c : κ) → Prog S (ρ c)} {s s₁ s' : σ}
  {cs cs' : List (CallRec S σ ρ)}

theorem CallRun.trans (h : CallRun M prog s cs s₁) (h' : CallRun M prog s₁ cs' s') :
    CallRun M prog s (cs ++ cs') s' := by
  induction h with
  | nil => exact h'
  | env he _ ih => exact .env he (ih h')
  | call hr _ ih => exact .call hr (ih h')

/-- What one call establishes, if it is as `H` says, holds of every call of a run: between the calls
some `A i` holds. -/
theorem CallRun.forall {ι : Type} {A : ι → σ → Prop} {H P : CallRec S σ ρ → Prop}
    (henv : ∀ i, Stable M (A i))
    (hcall : ∀ i s c l out s', A i s → Run M s (prog c) l s' (.ret out) →
      H ⟨c, s, l, out, s'⟩ → P ⟨c, s, l, out, s'⟩ ∧ ∃ i', A i' s')
    (h : CallRun M prog s cs s') (hH : ∀ x ∈ cs, H x) {i : ι} (hs : A i s) :
    (∀ x ∈ cs, P x) ∧ ∃ i', A i' s' := by
  induction h generalizing i with
  | nil s => exact ⟨by simp, i, hs⟩
  | env he _ ih => exact ih hH (henv i _ _ he hs)
  | call hr _ ih =>
    obtain ⟨hx, hH⟩ := List.forall_mem_cons.mp hH
    obtain ⟨hP, i', hi'⟩ := hcall i _ _ _ _ _ hs hr hx
    obtain ⟨hall, hend⟩ := ih hH hi'
    exact ⟨List.forall_mem_cons.mpr ⟨hP, hall⟩, hend⟩

/-- A relation that holds across every step, if it is reflexive and transitive, holds between the
points of a run. -/
theorem CallRun.rel {R : σ → σ → Prop} (hrefl : ∀ s, R s s)
    (htrans : ∀ s₁ s₂ s₃, R s₁ s₂ → R s₂ s₃ → R s₁ s₃) (henv : ∀ s s', M.env s s' → R s s')
    (hstep : ∀ o s, R s (M.step o s).2) (h : CallRun M prog s cs s') :
    R s s' ∧ (∀ x ∈ cs, R s x.before ∧ R x.after s') ∧
      cs.Pairwise fun x y => R x.after y.before := by
  induction h with
  | nil s => exact ⟨hrefl s, by simp, .nil⟩
  | env he _ ih =>
    obtain ⟨hend, hall, hpair⟩ := ih
    have hR := henv _ _ he
    exact ⟨htrans _ _ _ hR hend, fun x hx => ⟨htrans _ _ _ hR (hall x hx).1, (hall x hx).2⟩, hpair⟩
  | call hr _ ih =>
    obtain ⟨hend, hall, hpair⟩ := ih
    have hR := hr.rel hrefl htrans henv hstep
    refine ⟨htrans _ _ _ hR hend, List.forall_mem_cons.mpr ⟨⟨hrefl _, hend⟩, fun x hx => ?_⟩,
      List.pairwise_cons.mpr ⟨fun y hy => (hall y hy).1, hpair⟩⟩
    exact ⟨htrans _ _ _ hR (hall x hx).1, (hall x hx).2⟩

/-- A call beside a device that stands still. -/
def still (M : Machine S σ) (prog : (c : κ) → Prog S (ρ c)) (c : κ) (s : σ) :
    CallRec S σ ρ :=
  ⟨c, s, hist M (prog c) s, (exec M (prog c) s).1, (exec M (prog c) s).2⟩

theorem CallRun.still (c : κ) (s : σ) :
    CallRun M prog s [still M prog c s] (still M prog c s).after :=
  .call (run_exec _ _) (.nil _)

/-- What a growing list holds at a place, it keeps there. -/
theorem getElem?_of_isPrefix {α : Type} {l l' : List α} {i : ℕ} {a : α} (h : l <+: l')
    (hi : l[i]? = some a) : l'[i]? = some a := by
  obtain ⟨t, rfl⟩ := h
  rw [List.getElem?_append_left (List.getElem?_eq_some_iff.mp hi).1]
  exact hi

end Ipq4019.Lib.Calls
