import Ipq4019.Lib.Interleave

/-!
# Protocols, whatever the answers

A *protocol* says which operations are allowed in a state, and how each answer takes it on.  The
answers are anybody's: in `machine P` the environment may change them between any two operations.

* `Follows P p Q s`: from the state `s` on, whatever the answers, the program `p` does what is allowed,
  and ends as `Q` says.
* `Follows.run`: so does every run.
-/

namespace Ipq4019.Lib.Answers

open Ipq4019.Lib.Interleave Ipq4019.Lib.Interleave.Prog

variable {S : Sig} {τ α β : Type}

structure Protocol (S : Sig) (τ : Type) where
  next : (o : S.Op) → S.Res o → τ → τ
  allowed : S.Op → τ → Prop

/-- The state of the protocol, and what the next operations would answer. -/
structure World (S : Sig) (τ : Type) where
  state : τ
  answer : (o : S.Op) → S.Res o

def machine (P : Protocol S τ) : Machine S (World S τ) where
  step o w := (w.answer o, { w with state := P.next o (w.answer o) w.state })
  env w w' := w'.state = w.state

def Follows (P : Protocol S τ) : Prog S α → (α → τ → Prop) → τ → Prop
  | .ret a, Q, s => Q a s
  | .op o k, Q, s => P.allowed o s ∧ ∀ r, Follows P (k r) Q (P.next o r s)

variable {P : Protocol S τ} {Q : α → τ → Prop}

theorem Follows.bind {Q' : β → τ → Prop} {f : α → Prog S β} : ∀ {p : Prog S α} {s : τ},
    Follows P p Q s → (∀ a s, Q a s → Follows P (f a) Q' s) → Follows P (p >>= f) Q' s
  | .ret a, s, h, hf => hf a s h
  | .op _ _, _, h, hf => ⟨h.1, fun r => (h.2 r).bind hf⟩

/-- **Every run follows the protocol**, as far as it goes. -/
theorem Follows.run {p p' : Prog S α} {w w' : World S τ} {l : List (S.Op × World S τ)}
    (h : Follows P p Q w.state) (hr : Run (machine P) w p l w' p') :
    (∀ x ∈ l, P.allowed x.1 x.2.state) ∧ Follows P p' Q w'.state := by
  induction hr with
  | refl => exact ⟨by simp, h⟩
  | env _ he ih =>
    have hsame : _ = _ := he
    exact ⟨ih.1, hsame ▸ ih.2⟩
  | op _ ih =>
    obtain ⟨hall, hok, hk⟩ := ih
    refine ⟨fun x hx => ?_, hk _⟩
    rcases List.mem_append.mp hx with hx | hx
    · exact hall x hx
    · obtain rfl := List.mem_singleton.mp hx
      exact hok

theorem Follows.run_ret {p : Prog S α} {a : α} {w w' : World S τ} {l : List (S.Op × World S τ)}
    (h : Follows P p Q w.state) (hr : Run (machine P) w p l w' (.ret a)) : Q a w'.state :=
  (h.run hr).2

end Ipq4019.Lib.Answers
