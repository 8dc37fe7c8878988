import Mathlib

/-!
# Outcomes of fallible computations

A fallible computation is described by what holds of its result and of its error. The description is
of two computations at once: the second delivers whatever the first one delivers, so that one proof
shows a property of a computation and that the computation may stand for another. A computation
described on its own is described with itself.

## Main definitions

* `Outcome Q S r r'`: a result of `r` satisfies `Q` and is the result of `r'`, an error satisfies `S`

## Main results

* `Outcome.bind`, `Outcome.ite`: the rules for sequences and tests
* `Outcome.post`, `Outcome.agree`: what is known of a result
-/

/-- Every result of `r` satisfies `Q` and is the result of `r'`; every error of `r` satisfies `S`. -/
def Outcome {α ε : Type*} (Q : α → Prop) (S : ε → Prop) (r r' : Except ε α) : Prop :=
  match r with
  | .ok a => r' = .ok a ∧ Q a
  | .error e => S e

universe u v

namespace Outcome

variable {α β : Type u} {ε : Type v} {P Q : α → Prop} {S : ε → Prop} {r r' s s' : Except ε α} {a : α}

theorem ok (h : Q a) : Outcome Q S (.ok a) (.ok a) := ⟨rfl, h⟩

theorem error {e : ε} (h : S e) : Outcome Q S (.error e) r' := h

theorem mono (h : Outcome P S r r') (hQ : ∀ a, P a → Q a) : Outcome Q S r r' := by
  cases r with
  | ok a => exact ⟨h.1, hQ a h.2⟩
  | error e => exact h

/-- Other errors may be allowed. -/
theorem imp {T : ε → Prop} (h : Outcome P S r r') (hQ : ∀ a, P a → Q a) (hS : ∀ e, S e → T e) :
    Outcome Q T r r' := by
  cases r with
  | ok a => exact ⟨h.1, hQ a h.2⟩
  | error e => exact hS e h

/-- **Sequential composition.** -/
theorem bind {Q : β → Prop} {f f' : α → Except ε β} (h : Outcome P S r r')
    (hf : ∀ a, P a → Outcome Q S (f a) (f' a)) : Outcome Q S (r >>= f) (r' >>= f') := by
  cases r with
  | ok a =>
    rw [h.1]
    exact hf a h.2
  | error e => exact h

/-- Sequential composition, when the second part depends on how the result came about. -/
theorem bind_eq {Q : β → Prop} {f f' : α → Except ε β} (h : Outcome P S r r')
    (hf : ∀ a, r = .ok a → P a → Outcome Q S (f a) (f' a)) : Outcome Q S (r >>= f) (r' >>= f') := by
  cases r with
  | ok a =>
    rw [h.1]
    exact hf a rfl h.2
  | error e => exact h

theorem ite {c : Prop} [Decidable c] (h : c → Outcome Q S r r')
    (h' : ¬c → Outcome Q S s s') :
    Outcome Q S (if c then r else s) (if c then r' else s') := by
  split
  · exact h ‹c›
  · exact h' ‹¬c›

theorem post (h : Outcome Q S (.ok a) r') : Q a := h.2

theorem stop {e : ε} (h : Outcome Q S (.error e) r') : S e := h

theorem agree (h : Outcome Q S (.ok a) r') : r' = .ok a := h.1

/-- A computation described on its own. -/
theorem self (hQ : ∀ a, r = .ok a → Q a) (hS : ∀ e, r = .error e → S e) : Outcome Q S r r := by
  cases r with
  | ok a => exact ⟨rfl, hQ a rfl⟩
  | error e => exact hS e rfl

end Outcome

/-- A result can be inspected by running the computation. -/
theorem Except.exists_of_check {α ε : Type*} {r : Except ε α} {P : α → Prop} [DecidablePred P]
    (h : (match r with | .ok a => decide (P a) | .error _ => false) = true) :
    ∃ a, r = .ok a ∧ P a := by
  cases r with
  | ok a => exact ⟨a, rfl, of_decide_eq_true h⟩
  | error e => cases h

/-- The parts of a sequence that succeeds. -/
theorem Except.bind_eq_ok {ε : Type v} {α β : Type u} {r : Except ε α} {f : α → Except ε β} {b : β} :
    r >>= f = .ok b ↔ ∃ a, r = .ok a ∧ f a = .ok b := by
  cases r with
  | ok a => exact ⟨fun h => ⟨a, rfl, h⟩, fun ⟨_, ha, h⟩ => Except.ok.inj ha ▸ h⟩
  | error e => exact ⟨fun h => (nomatch h), fun ⟨_, ha, _⟩ => (nomatch ha)⟩
