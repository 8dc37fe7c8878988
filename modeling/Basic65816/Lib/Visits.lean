import Mathlib.Tactic.Common

/-!
# The positions that a loop passes

A loop that goes from state to state stands at a position in each of them. In some rounds it works
without moving. What it has left behind when it comes to a state are the positions it has passed.

## Main results

* `Visits.trans`: one stretch after the other
* `Visits.reflects`: what holds at the end of a stretch holds at its beginning
-/

/-- From `s` on the loop passes the positions `ps` and comes to the last state. -/
inductive Visits {σ π : Type} (next : σ → σ → Prop) (position : σ → π) : σ → List π → σ → Prop
  | here {s : σ} : Visits next position s [] s
  | stay {s s₁ s₂ : σ} {ps : List π} (h : next s s₁) (heq : position s₁ = position s)
      (hs : Visits next position s₁ ps s₂) : Visits next position s ps s₂
  | move {s s₁ s₂ : σ} {ps : List π} (h : next s s₁) (hne : position s₁ ≠ position s)
      (hs : Visits next position s₁ ps s₂) : Visits next position s (position s :: ps) s₂

/-- From `s` on the loop passes the positions `ps` and stops at `q`. -/
def StopsBehind {σ π : Type} (next : σ → σ → Prop) (position : σ → π) (s : σ) (ps : List π) (q : π) :
    Prop :=
  ∃ s', Visits next position s ps s' ∧ position s' = q ∧ ∀ s'', ¬next s' s''

namespace Visits

variable {σ π : Type} {next : σ → σ → Prop} {position : σ → π} {s s₁ s₂ : σ} {ps qs : List π}

/-- One stretch after the other. -/
theorem trans (h : Visits next position s ps s₁) (h' : Visits next position s₁ qs s₂) :
    Visits next position s (ps ++ qs) s₂ := by
  induction h with
  | here => exact h'
  | stay h heq _ ih => exact .stay h heq (ih h')
  | move h hne _ ih => exact .move h hne (ih h')

/-- What each round takes back from its end to its beginning, a stretch does. -/
theorem reflects {P : σ → Prop} (hnext : ∀ s s', next s s' → P s' → P s)
    (h : Visits next position s ps s₁) (hP : P s₁) : P s := by
  induction h with
  | here => exact hP
  | stay h _ _ ih => exact hnext _ _ h (ih hP)
  | move h _ _ ih => exact hnext _ _ h (ih hP)

end Visits
