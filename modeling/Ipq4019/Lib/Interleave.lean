import Mathlib.Logic.Relation
import Mathlib.Data.List.Forall2
import Mathlib.Data.List.Induction
import Mathlib.Tactic.Common

/-!
# Programs beside a device

A *program* over a signature is a tree: it ends with a value, or does one operation and goes on
with the operation's result.  A *machine* gives each operation its meaning on a state, and an
environment relation: what the device may do by itself between two operations of the program.

* `Run M s p l s' p'`: from state `s` with program `p` the machine can reach state `s'` with the
  program `p'` still to do; `l` is the history, each operation done with the state it was done in.
* `Run.simulate`: a run beside one device is matched by a run beside another.
* `wp M C p Q s`: the weakest precondition of `p` for the postcondition `Q`.  The contract `C` says
  which states may be visited (`inv`), what must hold where an operation is done (`ok`), and what
  may be assumed of it (`asm`).
* `wp_run`, `ok_run`, `run_ok_iff_asm`: what `wp` says about runs.
* `exec`, `hist`: the run in which the device stands still, and its history; `run_exec` makes it a
  run, `exec_subst` carries it through an implementation of the operations by programs.
-/

namespace Ipq4019.Lib.Interleave

/-- A signature: the operations, and the type of each operation's result. -/
structure Sig where
  Op : Type
  Res : Op → Type

/-- A program over the signature `S`. -/
inductive Prog (S : Sig) (α : Type) : Type
  | ret (a : α) : Prog S α
  | op (o : S.Op) (k : S.Res o → Prog S α) : Prog S α

variable {S T : Sig} {α β : Type} {σ τ : Type}

namespace Prog

/-- Sequencing. -/
protected def bind : Prog S α → (α → Prog S β) → Prog S β
  | .ret a, f => f a
  | .op o k, f => .op o fun r => (k r).bind f

instance : Monad (Prog S) where
  pure := .ret
  bind := .bind

/-- A single operation. -/
def call (o : S.Op) : Prog S (S.Res o) := .op o .ret

@[simp] theorem pure_eq (a : α) : (pure a : Prog S α) = .ret a := rfl

@[simp] theorem ret_bind (a : α) (f : α → Prog S β) : (Prog.ret a >>= f) = f a := rfl

@[simp] theorem op_bind (o : S.Op) (k : S.Res o → Prog S α) (f : α → Prog S β) :
    (Prog.op o k >>= f) = .op o fun r => k r >>= f := rfl

@[simp] theorem call_bind (o : S.Op) (f : S.Res o → Prog S β) : (call o >>= f) = .op o f := rfl

theorem bind_assoc {γ : Type} (f : α → Prog S β) (g : β → Prog S γ) :
    ∀ p : Prog S α, (p >>= f >>= g) = p >>= fun a => f a >>= g
  | .ret _ => rfl
  | .op o k => by
    simp only [op_bind]
    congr 1
    funext r
    exact bind_assoc f g (k r)

/-- Every operation of the program satisfies `P`, whatever the results of those before it. -/
def Uses (P : S.Op → Prop) : Prog S α → Prop
  | .ret _ => True
  | .op o k => P o ∧ ∀ r, (k r).Uses P

theorem uses_bind {P : S.Op → Prop} : ∀ {p : Prog S α} {f : α → Prog S β}, p.Uses P →
    (∀ a, (f a).Uses P) → (p >>= f).Uses P
  | .ret a, _, _, hf => hf a
  | .op _ _, _, hp, hf => ⟨hp.1, fun r => uses_bind (hp.2 r) hf⟩

theorem uses_forM {P : S.Op → Prop} {ι : Type} {f : ι → Prog S Unit} : ∀ {l : List ι},
    (∀ i ∈ l, (f i).Uses P) → (l.forM f).Uses P
  | [], _ => trivial
  | i :: _, h => uses_bind (h i List.mem_cons_self) fun _ =>
      uses_forM fun j hj => h j (List.mem_cons_of_mem i hj)

theorem uses_mono {P Q : S.Op → Prop} (h : ∀ o, P o → Q o) : ∀ {p : Prog S α}, p.Uses P → p.Uses Q
  | .ret _, _ => trivial
  | .op o _, hp => ⟨h o hp.1, fun r => uses_mono h (hp.2 r)⟩

theorem uses_true : ∀ p : Prog S α, p.Uses fun _ => True
  | .ret _ => trivial
  | .op _ k => ⟨trivial, fun r => uses_true (k r)⟩

/-- The program's value satisfies `P`, whatever the results of its operations. -/
def Ends (P : α → Prop) : Prog S α → Prop
  | .ret a => P a
  | .op _ k => ∀ r, (k r).Ends P

theorem ends_bind {P : β → Prop} {f : α → Prog S β} (hf : ∀ a, (f a).Ends P) :
    ∀ p : Prog S α, (p >>= f).Ends P
  | .ret a => hf a
  | .op _ k => fun r => ends_bind hf (k r)

/-- Each operation of `S` implemented by a program over `T`. -/
def subst (h : (o : S.Op) → Prog T (S.Res o)) : Prog S α → Prog T α
  | .ret a => .ret a
  | .op o k => h o >>= fun r => (k r).subst h

theorem subst_bind {h : (o : S.Op) → Prog T (S.Res o)} {f : α → Prog S β} :
    ∀ p : Prog S α, (p >>= f).subst h = p.subst h >>= fun a => (f a).subst h
  | .ret _ => rfl
  | .op o k => by
    refine Eq.trans ?_ (bind_assoc (fun r => (k r).subst h) _ (h o)).symm
    exact congrArg (h o >>= ·) (funext fun r => subst_bind (k r))

theorem uses_call {P : S.Op → Prop} {o : S.Op} (h : P o) : (call o).Uses P := ⟨h, fun _ => trivial⟩

theorem uses_subst {P : S.Op → Prop} {Q : T.Op → Prop} {h : (o : S.Op) → Prog T (S.Res o)}
    (hP : ∀ o, P o → (h o).Uses Q) : ∀ {p : Prog S α}, p.Uses P → (p.subst h).Uses Q
  | .ret _, _ => trivial
  | .op o _, hp => uses_bind (hP o hp.1) fun r => uses_subst hP (hp.2 r)

end Prog

open Prog

/-- A machine: the meaning of each operation, and what the device may do by itself. -/
structure Machine (S : Sig) (σ : Type) where
  step : (o : S.Op) → σ → S.Res o × σ
  env : σ → σ → Prop

/-- The device's steps between two operations: any number of them. -/
def Machine.Env (M : Machine S σ) : σ → σ → Prop := Relation.ReflTransGen M.env

/-- **Runs**, with the operations done and the states they were done in. -/
inductive Run (M : Machine S σ) (s : σ) (p : Prog S α) : List (S.Op × σ) → σ → Prog S α → Prop
  | refl : Run M s p [] s p
  | env {l : List (S.Op × σ)} {s₁ s₂ : σ} {q : Prog S α} (h : Run M s p l s₁ q)
      (he : M.env s₁ s₂) : Run M s p l s₂ q
  | op {l : List (S.Op × σ)} {s₁ : σ} {o : S.Op} {k : S.Res o → Prog S α}
      (h : Run M s p l s₁ (.op o k)) :
      Run M s p (l ++ [(o, s₁)]) (M.step o s₁).2 (k (M.step o s₁).1)

theorem Run.trans {M : Machine S σ} {s s₁ s₂ : σ} {p p₁ p₂ : Prog S α} {l l₂ : List (S.Op × σ)}
    (h : Run M s p l s₁ p₁) (h₂ : Run M s₁ p₁ l₂ s₂ p₂) : Run M s p (l ++ l₂) s₂ p₂ := by
  induction h₂ with
  | refl => rw [List.append_nil]; exact h
  | env _ he ih => exact ih.env he
  | op _ ih => rw [← List.append_assoc]; exact ih.op

/-- A run beside a device is one beside a device that may do more. -/
theorem Run.mono {M N : Machine S σ} (hstep : M.step = N.step)
    (henv : ∀ s s', M.env s s' → N.env s s') {s s' : σ} {p p' : Prog S α} {l : List (S.Op × σ)}
    (h : Run M s p l s' p') : Run N s p l s' p' := by
  induction h with
  | refl => exact .refl
  | env _ he ih => exact ih.env (henv _ _ he)
  | op _ ih => rw [hstep]; exact ih.op

/-- A run, from its first operation on. -/
theorem Run.cons {M : Machine S σ} {s s' : σ} {o : S.Op} {k : S.Res o → Prog S α} {p' : Prog S α}
    {l : List (S.Op × σ)} (h : Run M (M.step o s).2 (k (M.step o s).1) l s' p') :
    Run M s (.op o k) ((o, s) :: l) s' p' :=
  (Run.op .refl : Run M s (.op o k) ([] ++ [(o, s)]) _ _).trans h

theorem Run.envs {M : Machine S σ} {s s₁ s₂ : σ} {p q : Prog S α} {l : List (S.Op × σ)}
    (h : Run M s p l s₁ q) (he : M.Env s₁ s₂) : Run M s p l s₂ q := by
  induction he with
  | refl => exact h
  | tail _ he ih => exact ih.env he

/-- A run of `p` is a run of `p` followed by anything. -/
theorem Run.bind {M : Machine S σ} {s s₁ : σ} {p q : Prog S α} {l : List (S.Op × σ)}
    (h : Run M s p l s₁ q) (f : α → Prog S β) : Run M s (p >>= f) l s₁ (q >>= f) := by
  induction h with
  | refl => exact .refl
  | env _ he ih => exact ih.env he
  | op _ ih => exact Run.op ih

/-- A run that begins with an operation. -/
theorem Run.op_inv {M : Machine S σ} {s s' : σ} {o : S.Op} {k : S.Res o → Prog S α} {q : Prog S α}
    {l : List (S.Op × σ)} (h : Run M s (.op o k) l s' q) :
    (q = .op o k ∧ l = [] ∧ M.Env s s') ∨ ∃ s₁ l', M.Env s s₁ ∧ l = (o, s₁) :: l' ∧
      Run M (M.step o s₁).2 (k (M.step o s₁).1) l' s' q := by
  induction h with
  | refl => exact Or.inl ⟨rfl, rfl, .refl⟩
  | env _ he ih =>
    rcases ih with ⟨hq, hl, hs⟩ | ⟨s₁, l', hs, hl, hr⟩
    · exact Or.inl ⟨hq, hl, hs.tail he⟩
    · exact Or.inr ⟨s₁, l', hs, hl, hr.env he⟩
  | op _ ih =>
    rcases ih with ⟨hq, rfl, hs⟩ | ⟨s₁, l', hs, rfl, hr⟩
    · cases hq
      exact Or.inr ⟨_, [], hs, rfl, .refl⟩
    · exact Or.inr ⟨s₁, _, hs, rfl, hr.op⟩

/-- A run of a program that has ended. -/
theorem Run.ret_inv {M : Machine S σ} {s s' : σ} {a : α} {q : Prog S α} {l : List (S.Op × σ)}
    (h : Run M s (.ret a) l s' q) : q = .ret a ∧ l = [] ∧ M.Env s s' := by
  induction h with
  | refl => exact ⟨rfl, rfl, .refl⟩
  | env _ he ih => exact ⟨ih.1, ih.2.1, ih.2.2.tail he⟩
  | op _ ih => cases ih.1

/-- **A run of a sequence** has a first part and a second. -/
theorem Run.bind_inv {M : Machine S σ} {s s' : σ} {p : Prog S α} {f : α → Prog S β} {b : β}
    {l : List (S.Op × σ)} (h : Run M s (p >>= f) l s' (.ret b)) : ∃ l₁ l₂ s₁ a,
      Run M s p l₁ s₁ (.ret a) ∧ Run M s₁ (f a) l₂ s' (.ret b) ∧ l = l₁ ++ l₂ := by
  induction p generalizing s l with
  | ret a => exact ⟨[], l, s, a, .refl, h, rfl⟩
  | op o k ih =>
    rcases h.op_inv with ⟨hq, -⟩ | ⟨s₁, l', he, rfl, hr⟩
    · cases hq
    · obtain ⟨l₁, l₂, s₂, a, h₁, h₂, rfl⟩ := ih _ hr
      exact ⟨(o, s₁) :: l₁, l₂, s₂, a, (Run.envs .refl he).trans h₁.cons, h₂, rfl⟩

theorem Run.ends {M : Machine S σ} {P : α → Prop} {s s' : σ} {p q : Prog S α}
    {l : List (S.Op × σ)} (h : Run M s p l s' q) (hp : p.Ends P) : q.Ends P := by
  induction h with
  | refl => exact hp
  | env _ _ ih => exact ih
  | op _ ih => exact ih _

/-- A run does only operations that the program uses. -/
theorem Run.uses {M : Machine S σ} {P : S.Op → Prop} {s s' : σ} {p q : Prog S α}
    {l : List (S.Op × σ)} (h : Run M s p l s' q) (hp : p.Uses P) :
    q.Uses P ∧ ∀ x ∈ l, P x.1 := by
  induction h with
  | refl => exact ⟨hp, by simp⟩
  | env _ _ ih => exact ih
  | op _ ih =>
    obtain ⟨⟨ho, hk⟩, hl⟩ := ih
    refine ⟨hk _, fun x hx => ?_⟩
    rcases List.mem_append.mp hx with hx | hx
    · exact hl x hx
    · rw [List.mem_singleton.mp hx]
      exact ho

/-- In the course of the history the program was run in full. -/
def Ran (M : Machine S σ) (q : Prog S α) (l : List (S.Op × σ)) : Prop :=
  ∃ l₁ l₂ l₃ t t' a, l = l₁ ++ (l₂ ++ l₃) ∧ Run M t q l₂ t' (.ret a)

theorem Ran.of_run {M : Machine S σ} {s s' : σ} {q : Prog S α} {l : List (S.Op × σ)} {a : α}
    (h : Run M s q l s' (.ret a)) : Ran M q l := ⟨[], l, [], s, s', a, by simp, h⟩

theorem Ran.append_left {M : Machine S σ} {q : Prog S α} {l : List (S.Op × σ)}
    (h : Ran M q l) (l' : List (S.Op × σ)) : Ran M q (l' ++ l) := by
  obtain ⟨l₁, l₂, l₃, t, t', a, rfl, hr⟩ := h
  exact ⟨l' ++ l₁, l₂, l₃, t, t', a, by simp, hr⟩

theorem Ran.append_right {M : Machine S σ} {q : Prog S α} {l : List (S.Op × σ)}
    (h : Ran M q l) (l' : List (S.Op × σ)) : Ran M q (l ++ l') := by
  obtain ⟨l₁, l₂, l₃, t, t', a, rfl, hr⟩ := h
  exact ⟨l₁, l₂, l₃ ++ l', t, t', a, by simp, hr⟩

/-- A loop runs each of its rounds. -/
theorem Run.ran_forM {M : Machine S σ} {ι : Type} {f : ι → Prog S Unit} {is : List ι} {s s' : σ}
    {l : List (S.Op × σ)} {u : Unit} (h : Run M s (is.forM f) l s' (.ret u)) :
    ∀ i ∈ is, Ran M (f i) l := by
  induction is generalizing s l with
  | nil => simp
  | cons j is ih =>
    obtain ⟨l₁, l₂, s₁, a, h₁, h₂, rfl⟩ := Run.bind_inv (p := f j) h
    intro i hi
    rcases List.mem_cons.mp hi with rfl | hi
    · exact (Ran.of_run h₁).append_right l₂
    · exact (ih h₂ i hi).append_left l₁

/-- What holds of the history of each round, holds of that of a loop. -/
theorem Run.forall_forM {M : Machine S σ} {ι : Type} {P : S.Op × σ → Prop} {f : ι → Prog S Unit}
    {is : List ι} (hf : ∀ i ∈ is, ∀ s l s' u, Run M s (f i) l s' (.ret u) → ∀ x ∈ l, P x)
    {s s' : σ} {l : List (S.Op × σ)} {u : Unit} (h : Run M s (is.forM f) l s' (.ret u)) :
    ∀ x ∈ l, P x := by
  induction is generalizing s l with
  | nil =>
    obtain ⟨-, rfl, -⟩ := h.ret_inv
    simp
  | cons j is ih =>
    obtain ⟨l₁, l₂, s₁, a, h₁, h₂, rfl⟩ := Run.bind_inv (p := f j) h
    intro x hx
    rcases List.mem_append.mp hx with hx | hx
    · exact hf j List.mem_cons_self _ _ _ _ h₁ x hx
    · exact ih (fun i hi => hf i (List.mem_cons_of_mem j hi)) h₂ x hx

/-- The state of an operation of the history, with what is still to do there. -/
theorem Run.split {M : Machine S σ} {s s' : σ} {p p' : Prog S α} {l₁ l₂ : List (S.Op × σ)}
    {x : S.Op × σ} {l : List (S.Op × σ)} (h : Run M s p l s' p') (hl : l = l₁ ++ x :: l₂) :
    ∃ k, Run M s p l₁ x.2 (.op x.1 k) := by
  induction h generalizing l₂ with
  | refl => simp at hl
  | env _ _ ih => exact ih hl
  | @op l₀ s₁ o k h ih =>
    rcases List.eq_nil_or_concat l₂ with rfl | ⟨l₃, y, rfl⟩
    · obtain ⟨rfl, hx⟩ := List.append_inj' hl rfl
      obtain rfl : (o, s₁) = x := by simpa using hx
      exact ⟨k, h⟩
    · rw [List.concat_eq_append, ← List.cons_append, ← List.append_assoc] at hl
      exact ih (List.append_inj' hl rfl).1

/-- A relation between the states of two successive points of every run is a relation between
any two points of a run, if it is reflexive and transitive. -/
theorem Run.rel {M : Machine S σ} {R : σ → σ → Prop} (hrefl : ∀ s, R s s)
    (htrans : ∀ s₁ s₂ s₃, R s₁ s₂ → R s₂ s₃ → R s₁ s₃) (henv : ∀ s s', M.env s s' → R s s')
    (hstep : ∀ o s, R s (M.step o s).2) {s s' : σ} {p p' : Prog S α} {l : List (S.Op × σ)}
    (h : Run M s p l s' p') : R s s' := by
  induction h with
  | refl => exact hrefl _
  | env _ he ih => exact htrans _ _ _ ih (henv _ _ he)
  | op _ ih => exact htrans _ _ _ ih (hstep _ _)

/-- **Simulation.**  `R` relates the states of two devices.  If each step of the first is matched by
steps of the second, and each operation that the program uses has the same result in related states
and leads to related states, then a run beside the first is matched by a run beside the second. -/
theorem Run.simulate {M : Machine S σ} {N : Machine S τ} {R : σ → τ → Prop} {P : S.Op → Prop}
    (henv : ∀ s s' t, R s t → M.env s s' → ∃ t', N.Env t t' ∧ R s' t')
    (hstep : ∀ o s t, P o → R s t →
      (N.step o t).1 = (M.step o s).1 ∧ R (M.step o s).2 (N.step o t).2)
    {p p' : Prog S α} (hp : p.Uses P) {s s' : σ} {l : List (S.Op × σ)} (h : Run M s p l s' p')
    {t : τ} (ht : R s t) : ∃ l' t', Run N t p l' t' p' ∧ R s' t' ∧
      List.Forall₂ (fun x y => x.1 = y.1 ∧ R x.2 y.2) l l' := by
  induction h with
  | refl => exact ⟨[], t, .refl, ht, .nil⟩
  | env _ he ih =>
    obtain ⟨l', t₁, hr, ht₁, hl⟩ := ih
    obtain ⟨t₂, he₂, ht₂⟩ := henv _ _ _ ht₁ he
    exact ⟨l', t₂, hr.envs he₂, ht₂, hl⟩
  | @op l s₁ o k h ih =>
    obtain ⟨l', t₁, hr, ht₁, hl⟩ := ih
    have ho : P o := (h.uses hp).1.1
    obtain ⟨hres, ht₂⟩ := hstep o s₁ t₁ ho ht₁
    refine ⟨l' ++ [(o, t₁)], (N.step o t₁).2, ?_, ht₂, List.rel_append hl (.cons ⟨rfl, ht₁⟩ .nil)⟩
    rw [← hres]
    exact hr.op

/-! ## Weakest preconditions -/

/-- A contract: the states that may be visited, what is assumed of the operations done, and what
must hold where one is done. -/
structure Contract (S : Sig) (σ : Type) where
  inv : σ → Prop
  asm : S.Op → σ → Prop
  ok : S.Op → σ → Prop

/-- The contract that asks nothing. -/
def Contract.free : Contract S σ := ⟨fun _ => True, fun _ _ => True, fun _ _ => True⟩

/-- **The weakest precondition** of a program beside the device. -/
def wp (M : Machine S σ) (C : Contract S σ) : Prog S α → (α → σ → Prop) → σ → Prop
  | .ret a, Q, s => ∀ s', M.Env s s' → C.inv s' ∧ Q a s'
  | .op o k, Q, s => ∀ s', M.Env s s' → C.inv s' ∧ C.ok o s' ∧
      (C.asm o s' → wp M C (k (M.step o s').1) Q (M.step o s').2)

variable {M : Machine S σ} {C : Contract S σ}

theorem wp_env {p : Prog S α} {Q : α → σ → Prop} {s s' : σ} (h : wp M C p Q s)
    (he : M.Env s s') : wp M C p Q s' := by
  cases p with
  | ret a => exact fun t ht => h t (he.trans ht)
  | op o k => exact fun t ht => h t (he.trans ht)

theorem wp_inv {p : Prog S α} {Q : α → σ → Prop} {s : σ} (h : wp M C p Q s) : C.inv s := by
  cases p with
  | ret a => exact (h s .refl).1
  | op o k => exact (h s .refl).1

theorem wp_ret_post {a : α} {Q : α → σ → Prop} {s : σ} (h : wp M C (.ret a) Q s) : Q a s :=
  (h s .refl).2

theorem wp_mono {Q Q' : α → σ → Prop} (hQ : ∀ a s, Q a s → Q' a s) :
    ∀ {p : Prog S α} {s : σ}, wp M C p Q s → wp M C p Q' s
  | .ret a, _, h => fun s' he => ⟨(h s' he).1, hQ a s' (h s' he).2⟩
  | .op _ _, _, h => fun s' he => ⟨(h s' he).1, (h s' he).2.1, fun ha =>
      wp_mono hQ ((h s' he).2.2 ha)⟩

/-- **The sequencing rule.** -/
theorem wp_bind {Q : β → σ → Prop} {f : α → Prog S β} :
    ∀ {p : Prog S α} {s : σ}, wp M C p (fun a => wp M C (f a) Q) s → wp M C (p >>= f) Q s
  | .ret _, s, h => (h s .refl).2
  | .op _ _, _, h => fun s' he => ⟨(h s' he).1, (h s' he).2.1, fun ha =>
      wp_bind ((h s' he).2.2 ha)⟩

/-- **The conjunction rule**, beside a contract that asks for nothing. -/
theorem wp_and_free {Q Q' : α → σ → Prop} : ∀ {p : Prog S α} {s : σ},
    wp M C p Q s → wp M .free p Q' s → wp M C p (fun a s => Q a s ∧ Q' a s) s
  | .ret _, _, h, h' => fun s' he => ⟨(h s' he).1, (h s' he).2, (h' s' he).2⟩
  | .op _ _, _, h, h' => fun s' he => ⟨(h s' he).1, (h s' he).2.1, fun ha =>
      wp_and_free ((h s' he).2.2 ha) ((h' s' he).2.2 trivial)⟩

/-- An assertion the device cannot falsify. -/
def Stable (M : Machine S σ) (A : σ → Prop) : Prop := ∀ s s', M.env s s' → A s → A s'

theorem Stable.and {A B : σ → Prop} (hA : Stable M A) (hB : Stable M B) :
    Stable M fun s => A s ∧ B s := fun s s' hs h => ⟨hA s s' hs h.1, hB s s' hs h.2⟩

theorem Stable.env {A : σ → Prop} (hA : Stable M A) {s s' : σ} (he : M.Env s s') (h : A s) :
    A s' := by
  induction he with
  | refl => exact h
  | tail _ he ih => exact hA _ _ he ih

/-- **The rule of an operation**, from a stable assertion that holds before it. -/
theorem wp_op {A : σ → Prop} (hA : Stable M A) {o : S.Op} {k : S.Res o → Prog S α}
    {Q : α → σ → Prop} (hinv : ∀ s, A s → C.inv s) (hok : ∀ s, A s → C.ok o s)
    (hk : ∀ s, A s → C.asm o s → wp M C (k (M.step o s).1) Q (M.step o s).2) {s : σ} (h : A s) :
    wp M C (.op o k) Q s := fun s' he =>
  have h' := hA.env he h
  ⟨hinv s' h', hok s' h', hk s' h'⟩

/-- **The rule of the end of a program.** -/
theorem wp_ret {A : σ → Prop} (hA : Stable M A) {a : α} {Q : α → σ → Prop}
    (hinv : ∀ s, A s → C.inv s) (hQ : ∀ s, A s → Q a s) {s : σ} (h : A s) :
    wp M C (.ret a) Q s := fun s' he =>
  have h' := hA.env he h
  ⟨hinv s' h', hQ s' h'⟩

/-- **The rule of a program that keeps to itself**: if no step of the device and no operation that
the program uses falsifies `A`, then `A` holds at its end. -/
theorem wp_of_uses {A : σ → Prop} {P : S.Op → Prop} (hA : Stable M A) (hinv : ∀ s, A s → C.inv s)
    (hok : ∀ o s, P o → A s → C.ok o s) (hstep : ∀ o s, P o → A s → A (M.step o s).2) :
    ∀ {p : Prog S α}, p.Uses P → ∀ {s : σ}, A s → wp M C p (fun _ => A) s
  | .ret _, _, _, h => wp_ret hA hinv (fun _ h => h) h
  | .op _ _, hp, _, h => wp_op hA hinv (fun s hs => hok _ s hp.1 hs)
      (fun s hs _ => wp_of_uses hA hinv hok hstep (hp.2 _) (hstep _ s hp.1 hs)) h

/-- **The rule of a loop**: `I x` are the states that stand for `x`, and a round of the loop takes one
for `x` to one for `g x i`. -/
theorem wp_forM {ι : Type} {I : τ → σ → Prop} {f : ι → Prog S Unit} {g : τ → ι → τ}
    (hI : ∀ x, Stable M (I x)) (hinv : ∀ x s, I x s → C.inv s) : ∀ {l : List ι},
    (∀ i ∈ l, ∀ x s, I x s → wp M C (f i) (fun _ => I (g x i)) s) → ∀ {x : τ} {s : σ}, I x s →
      wp M C (l.forM f) (fun _ => I (l.foldl g x)) s
  | [], _, x, _, h => wp_ret (hI x) (hinv x) (fun _ h => h) h
  | i :: _, hf, x, _, h => wp_bind (wp_mono
      (fun _ _ h' => wp_forM hI hinv (fun j hj => hf j (List.mem_cons_of_mem i hj)) h')
      (hf i List.mem_cons_self x _ h))

/-- **The rule of a counted loop**: `I t` holds after `t` rounds. -/
theorem wp_range' {I : ℕ → σ → Prop} {p : ℕ → Prog S Unit} (hI : ∀ t, Stable M (I t))
    (hinv : ∀ t s, I t s → C.inv s) {n k : ℕ}
    (hp : ∀ t < n, ∀ s, I t s → wp M C (p (k + t)) (fun _ => I (t + 1)) s) {s : σ} (h : I 0 s) :
    wp M C ((List.range' k n).forM p) (fun _ => I n) s := by
  induction n generalizing I k s with
  | zero => exact wp_ret (hI 0) (hinv 0) (fun _ h => h) h
  | succ n ih =>
    refine wp_bind (wp_mono (fun _ s' h' => ?_) (hp 0 (Nat.succ_pos n) s h))
    refine ih (fun t => hI (t + 1)) (fun t => hinv (t + 1)) (fun t ht s hs => ?_) h'
    have hround := hp (t + 1) (Nat.succ_lt_succ ht) s hs
    rwa [show k + 1 + t = k + (t + 1) by omega]

/-- A quiet operation: it does not matter whether the device takes a step before or after it. -/
def Quiet (M : Machine S σ) (o : S.Op) : Prop :=
  ∀ s s', M.env s s' → (M.step o s').1 = (M.step o s).1 ∧ M.env (M.step o s).2 (M.step o s').2

theorem Quiet.env {o : S.Op} (ho : Quiet M o) {s s' : σ} (he : M.Env s s') :
    (M.step o s').1 = (M.step o s).1 ∧ M.Env (M.step o s).2 (M.step o s').2 := by
  induction he with
  | refl => exact ⟨rfl, .refl⟩
  | tail _ he ih =>
    obtain ⟨h₁, h₂⟩ := ho _ _ he
    exact ⟨h₁.trans ih.1, ih.2.tail h₂⟩

/-- **The rule of a quiet operation**: it may be done before the device takes any step. -/
theorem wp_quiet {o : S.Op} (ho : Quiet M o) {k : S.Res o → Prog S α} {Q : α → σ → Prop} {s : σ}
    (h : ∀ s', M.Env s s' → C.inv s' ∧ C.ok o s')
    (hk : wp M C (k (M.step o s).1) Q (M.step o s).2) : wp M C (.op o k) Q s := by
  intro s' he
  obtain ⟨h₁, h₂⟩ := ho.env he
  refine ⟨(h s' he).1, (h s' he).2, fun _ => ?_⟩
  rw [h₁]
  exact wp_env hk h₂

/-! ## What a weakest precondition says about runs -/

theorem wp_run {p p' : Prog S α} {Q : α → σ → Prop} {s s' : σ} {l : List (S.Op × σ)}
    (h : wp M C p Q s) (hr : Run M s p l s' p') (ha : ∀ x ∈ l, C.asm x.1 x.2) :
    wp M C p' Q s' := by
  induction hr with
  | refl => exact h
  | env _ he ih => exact wp_env (ih ha) (.single he)
  | @op l s₁ o k _ ih =>
    have h₁ := ih fun x hx => ha x (List.mem_append_left _ hx)
    exact (h₁ s₁ .refl).2.2 (ha (o, s₁) (by simp))

/-- What holds where a program has ended. -/
theorem wp_run_ret {p : Prog S α} {Q : α → σ → Prop} {a : α} {s s' : σ} {l : List (S.Op × σ)}
    (h : wp M C p Q s) (hr : Run M s p l s' (.ret a)) (ha : ∀ x ∈ l, C.asm x.1 x.2) : Q a s' :=
  wp_ret_post (wp_run h hr ha)

theorem wp_run_free {p : Prog S α} {Q : α → σ → Prop} {a : α} {s s' : σ} {l : List (S.Op × σ)}
    (h : wp M .free p Q s) (hr : Run M s p l s' (.ret a)) : Q a s' :=
  wp_run_ret h hr fun _ _ => trivial

/-- The states in which operations are done are states that may be visited. -/
theorem inv_run {p p' : Prog S α} {Q : α → σ → Prop} {s s' : σ} {l : List (S.Op × σ)}
    (h : wp M C p Q s) (hr : Run M s p l s' p') (ha : ∀ x ∈ l, C.asm x.1 x.2) :
    ∀ x ∈ l, C.inv x.2 := by
  intro x hx
  obtain ⟨l₁, l₂, rfl⟩ := List.append_of_mem hx
  obtain ⟨k, hk⟩ := hr.split rfl
  exact wp_inv (wp_run h hk fun y hy => ha y (List.mem_append_left _ hy))

/-- Every operation is done where it may be, if those before it were done as assumed. -/
theorem ok_split {p p' : Prog S α} {Q : α → σ → Prop} {s s' : σ} {l₁ l₂ : List (S.Op × σ)}
    {x : S.Op × σ} (h : wp M C p Q s) (hr : Run M s p (l₁ ++ x :: l₂) s' p')
    (ha : ∀ y ∈ l₁, C.asm y.1 y.2) : C.ok x.1 x.2 := by
  obtain ⟨k, hk⟩ := hr.split rfl
  exact (wp_run h hk ha x.2 .refl).2.1

theorem ok_run {p p' : Prog S α} {Q : α → σ → Prop} {s s' : σ} {l : List (S.Op × σ)}
    (h : wp M C p Q s) (hr : Run M s p l s' p') (ha : ∀ x ∈ l, C.asm x.1 x.2) :
    ∀ x ∈ l, C.ok x.1 x.2 := by
  intro x hx
  obtain ⟨l₁, l₂, rfl⟩ := List.append_of_mem hx
  exact ok_split h hr fun y hy => ha y (List.mem_append_left _ hy)

/-- **The exact condition.**  If wherever an operation is done, it is done well exactly when it is
done as assumed, then a run does all its operations well exactly when it does them all as
assumed. -/
theorem run_ok_iff_asm {good : S.Op → σ → Prop} {p p' : Prog S α} {Q : α → σ → Prop} {s s' : σ}
    {l : List (S.Op × σ)} (h : wp M C p Q s) (hr : Run M s p l s' p')
    (hC : ∀ o t, C.ok o t → (good o t ↔ C.asm o t)) :
    (∀ x ∈ l, good x.1 x.2) ↔ ∀ x ∈ l, C.asm x.1 x.2 := by
  constructor
  · intro hg
    -- by induction on the prefix: the operations before one are done as assumed
    suffices ∀ l₁ l₂, l = l₁ ++ l₂ → ∀ x ∈ l₁, C.asm x.1 x.2 from this l [] (by simp)
    intro l₁
    induction l₁ using List.reverseRecOn with
    | nil => simp
    | append_singleton l₁ x ih =>
      intro l₂ hl y hy
      have hpre := ih (x :: l₂) (by simpa using hl)
      rcases List.mem_append.mp hy with hy | hy
      · exact hpre y hy
      · obtain rfl : y = x := by simpa using hy
        have hl' : l = l₁ ++ y :: l₂ := by simpa using hl
        rw [hl'] at hr
        exact (hC _ _ (ok_split h hr hpre)).mp (hg y (by simp [hl']))
  · intro ha x hx
    exact (hC _ _ (ok_run h hr ha x hx)).mpr (ha x hx)

/-! ## The device standing still -/

/-- **The run in which the device stands still.** -/
def exec (M : Machine S σ) : Prog S α → σ → α × σ
  | .ret a, s => (a, s)
  | .op o k, s => exec M (k (M.step o s).1) (M.step o s).2

@[simp] theorem exec_ret (a : α) (s : σ) : exec M (.ret a : Prog S α) s = (a, s) := rfl

@[simp] theorem exec_op (o : S.Op) (k : S.Res o → Prog S α) (s : σ) :
    exec M (.op o k) s = exec M (k (M.step o s).1) (M.step o s).2 := rfl

@[simp] theorem exec_call (o : S.Op) (s : σ) : exec M (call o) s = M.step o s := rfl

theorem exec_bind (f : α → Prog S β) : ∀ (p : Prog S α) (s : σ),
    exec M (p >>= f) s = exec M (f (exec M p s).1) (exec M p s).2
  | .ret _, _ => rfl
  | .op o k, s => exec_bind f (k (M.step o s).1) (M.step o s).2

/-- **The rule of a quiet program**: a program that uses only quiet operations, none of which
falsifies `I`, may be done as if the device stood still. -/
theorem wp_exec {I : σ → Prop} {P : S.Op → Prop} (hI : Stable M I)
    (hC : ∀ o s, P o → I s → C.inv s ∧ C.ok o s) (hstep : ∀ o s, P o → I s → I (M.step o s).2)
    (hq : ∀ o, P o → Quiet M o) {f : α → Prog S β} {Q : β → σ → Prop} :
    ∀ {p : Prog S α}, p.Uses P → ∀ {s : σ}, I s →
      wp M C (f (exec M p s).1) Q (exec M p s).2 → wp M C (p >>= f) Q s
  | .ret _, _, _, _, h => h
  | .op o _, hp, s, hs, h =>
    wp_quiet (hq o hp.1) (fun s' he => hC o s' hp.1 (hI.env he hs))
      (wp_exec hI hC hstep hq (hp.2 _) (hstep o s hp.1 hs) h)

/-- The device's own steps do not matter to it. -/
theorem exec_congr {N : Machine S σ} (h : M.step = N.step) : ∀ (p : Prog S α) (s : σ),
    exec M p s = exec N p s
  | .ret _, _ => rfl
  | .op o k, s => by
    rw [exec_op, exec_op, h]
    exact exec_congr h _ _

theorem exec_of_uses {A : σ → Prop} {P : S.Op → Prop}
    (hstep : ∀ o s, P o → A s → A (M.step o s).2) :
    ∀ {p : Prog S α}, p.Uses P → ∀ {s : σ}, A s → A (exec M p s).2
  | .ret _, _, _, h => h
  | .op o _, hp, s, h => exec_of_uses hstep (hp.2 _) (hstep o s hp.1 h)

/-- The history of the run in which the device stands still. -/
def hist (M : Machine S σ) : Prog S α → σ → List (S.Op × σ)
  | .ret _, _ => []
  | .op o k, s => (o, s) :: hist M (k (M.step o s).1) (M.step o s).2

@[simp] theorem hist_ret (a : α) (s : σ) : hist M (.ret a : Prog S α) s = [] := rfl

@[simp] theorem hist_op (o : S.Op) (k : S.Res o → Prog S α) (s : σ) :
    hist M (.op o k) s = (o, s) :: hist M (k (M.step o s).1) (M.step o s).2 := rfl

theorem hist_bind (f : α → Prog S β) : ∀ (p : Prog S α) (s : σ),
    hist M (p >>= f) s = hist M p s ++ hist M (f (exec M p s).1) (exec M p s).2
  | .ret _, _ => rfl
  | .op o k, s => by
    rw [op_bind, hist_op, hist_bind f (k (M.step o s).1)]
    rfl

theorem mem_hist_left {f : α → Prog S β} {p : Prog S α} {s : σ} {x : S.Op × σ}
    (h : x ∈ hist M p s) : x ∈ hist M (p >>= f) s := by
  rw [hist_bind]
  exact List.mem_append_left _ h

theorem mem_hist_right {f : α → Prog S β} {p : Prog S α} {s : σ} {x : S.Op × σ}
    (h : x ∈ hist M (f (exec M p s).1) (exec M p s).2) : x ∈ hist M (p >>= f) s := by
  rw [hist_bind]
  exact List.mem_append_right _ h

theorem hist_of_uses {A : σ → Prop} {P : S.Op → Prop}
    (hstep : ∀ o s, P o → A s → A (M.step o s).2) :
    ∀ {p : Prog S α}, p.Uses P → ∀ {s : σ}, A s → ∀ x ∈ hist M p s, A x.2
  | .ret _, _, _, _ => by simp
  | .op o _, hp, s, h => List.forall_mem_cons.mpr
      ⟨h, hist_of_uses hstep (hp.2 _) (hstep o s hp.1 h)⟩

/-- `exec` is a run, with the history `hist`. -/
theorem run_exec : ∀ (p : Prog S α) (s : σ),
    Run M s p (hist M p s) (exec M p s).2 (.ret (exec M p s).1)
  | .ret _, _ => .refl
  | .op o k, s => (run_exec (k (M.step o s).1) (M.step o s).2).cons

/-- What a weakest precondition says about it. -/
theorem exec_of_wp {p : Prog S α} {Q : α → σ → Prop} {s : σ} (h : wp M C p Q s)
    (ha : ∀ o s, C.asm o s) : Q (exec M p s).1 (exec M p s).2 :=
  wp_run_ret h (run_exec p s) fun x _ => ha x.1 x.2

/-! ## Implementations -/

/-- What a program over `S` does when each operation does what `spec` says. -/
def Prog.Does (spec : (o : S.Op) → τ → S.Res o → τ → Prop) : Prog S α → τ → α → τ → Prop
  | .ret a, x, a', x' => a' = a ∧ x' = x
  | .op o k, x, a, x' => ∃ r x₁, spec o x r x₁ ∧ (k r).Does spec x₁ a x'

/-- **The implementation rule.**  If the program that implements an operation of `S` does beside the
device what `spec` says of the operation, then the implementation of a program over `S` does what the
program does.  `I x` are the states that stand for `x`. -/
theorem wp_subst {N : Machine T σ} {C : Contract T σ} {h : (o : S.Op) → Prog T (S.Res o)}
    {spec : (o : S.Op) → τ → S.Res o → τ → Prop} {I : τ → σ → Prop} (hI : ∀ x, Stable N (I x))
    (hinv : ∀ x s, I x s → C.inv s)
    (hop : ∀ o x s, I x s → wp N C (h o) (fun r s' => ∃ x', spec o x r x' ∧ I x' s') s) :
    ∀ (p : Prog S α) (x : τ) (s : σ), I x s →
      wp N C (p.subst h) (fun a s' => ∃ x', p.Does spec x a x' ∧ I x' s') s
  | .ret a, x, _, hx => wp_ret (hI x) (hinv x) (fun _ h => ⟨x, ⟨rfl, rfl⟩, h⟩) hx
  | .op o k, x, s, hx => by
    refine wp_bind (wp_mono ?_ (hop o x s hx))
    rintro r s₁ ⟨x₁, hspec, hx₁⟩
    refine wp_mono ?_ (wp_subst hI hinv hop (k r) x₁ s₁ hx₁)
    rintro a s' ⟨x', hdoes, hx'⟩
    exact ⟨x', ⟨r, x₁, hspec, hdoes⟩, hx'⟩

/-- Operations with one outcome: the program has one run. -/
theorem exec_of_does {M : Machine S τ} : ∀ {p : Prog S α} {x x' : τ} {a : α},
    p.Does (fun o x r x' => (r, x') = M.step o x) x a x' → (a, x') = exec M p x
  | .ret _, _, _, _, h => Prod.ext h.1 h.2
  | .op o k, x, _, _, ⟨r, x₁, hs, h⟩ => by
    rw [exec_op, ← hs]
    exact exec_of_does h

end Ipq4019.Lib.Interleave
