import Mathlib

/-!
# Structured programs as relations

A program is a relation between the states before and after it. Loops are the least relations that
are closed under one more round; the rule of total correctness has an invariant and a variant.

## Main definitions

* `Structured.While`, `Structured.Loop`: loops that are tested in front of and behind their body
* `Structured.Total`: total correctness

## Main results

* `Structured.While.functional`, `Structured.Loop.functional`: loops of functional parts
* `Structured.Total.while`: the rule for a loop
-/

namespace Structured

variable {σ : Type*} {s s' s₁ s₂ : σ}

/-- A relation with at most one final state for each initial one. -/
def Functional {τ : Type*} (r : σ → τ → Prop) : Prop := ∀ s t t', r s t → r s t' → t = t'

/-- One program behind the other. -/
def Comp (r r' : σ → σ → Prop) (s s' : σ) : Prop := ∃ s₁, r s s₁ ∧ r' s₁ s'

/-- The body is run again and again as long as the test in front of it succeeds. -/
inductive While (test : σ → Bool → Prop) (body : σ → σ → Prop) : σ → σ → Prop
  | done {s : σ} (ht : test s false) : While test body s s
  | again {s s₁ s' : σ} (ht : test s true) (hb : body s s₁) (h : While test body s₁ s') :
      While test body s s'

/-- The body is run, and again as long as the statement behind it goes back; that may change the
state. -/
inductive Loop (body : σ → σ → Prop) (next : σ → Bool × σ → Prop) : σ → σ → Prop
  | done {s s₁ s' : σ} (hb : body s s₁) (hn : next s₁ (false, s')) : Loop body next s s'
  | again {s s₁ s₂ s' : σ} (hb : body s s₁) (hn : next s₁ (true, s₂))
      (h : Loop body next s₂ s') : Loop body next s s'

section

variable {r r' body : σ → σ → Prop} {test : σ → Bool → Prop} {next : σ → Bool × σ → Prop}

theorem Functional.comp (h : Functional r) (h' : Functional r') : Functional (Comp r r') := by
  rintro s t t' ⟨s₁, h₁, h₂⟩ ⟨s₂, h₃, h₄⟩
  obtain rfl := h _ _ _ h₁ h₃
  exact h' _ _ _ h₂ h₄

theorem While.functional (ht : Functional test) (hb : Functional body) :
    Functional (While test body) := by
  intro s t t' h h'
  induction h with
  | done h =>
    cases h' with
    | done => rfl
    | again h₁ => cases ht _ _ _ h h₁
  | again h h₁ _ ih =>
    cases h' with
    | done h₂ => cases ht _ _ _ h h₂
    | again _ h₂ h₃ =>
      obtain rfl := hb _ _ _ h₁ h₂
      exact ih h₃

theorem Loop.functional (hn : Functional next) (hb : Functional body) :
    Functional (Loop body next) := by
  intro s t t' h h'
  induction h with
  | done h₁ h₂ =>
    cases h' with
    | done h₃ h₄ =>
      obtain rfl := hb _ _ _ h₁ h₃
      exact (Prod.mk.inj (hn _ _ _ h₂ h₄)).2
    | again h₃ h₄ =>
      obtain rfl := hb _ _ _ h₁ h₃
      cases (Prod.mk.inj (hn _ _ _ h₂ h₄)).1
  | again h₁ h₂ _ ih =>
    cases h' with
    | done h₃ h₄ =>
      obtain rfl := hb _ _ _ h₁ h₃
      cases (Prod.mk.inj (hn _ _ _ h₂ h₄)).1
    | again h₃ h₄ h₅ =>
      obtain rfl := hb _ _ _ h₁ h₃
      obtain rfl := (Prod.mk.inj (hn _ _ _ h₂ h₄)).2
      exact ih h₅

end

/-! ## Total correctness -/

/-- From every state of `P` the program comes to a state of `Q`. -/
def Total (P : σ → Prop) (r : σ → σ → Prop) (Q : σ → Prop) : Prop := ∀ s, P s → ∃ s', r s s' ∧ Q s'

section

variable {P Q I : σ → Prop} {r r' body : σ → σ → Prop} {test : σ → Bool → Prop}

theorem Total.comp (h : Total P r I) (h' : Total I r' Q) : Total P (Comp r r') Q := by
  intro s hs
  obtain ⟨s₁, hr, hs₁⟩ := h s hs
  obtain ⟨s', hr', hs'⟩ := h' s₁ hs₁
  exact ⟨s', ⟨s₁, hr, hr'⟩, hs'⟩

/-- **The rule for a loop with its test in front**: the body keeps the invariant and makes the variant
smaller. -/
theorem Total.while (V : σ → ℕ) (htest : ∀ s, I s → test s true ∨ test s false ∧ Q s)
    (hbody : ∀ n, Total (fun s => I s ∧ test s true ∧ V s = n) body fun s => I s ∧ V s < n) :
    Total I (While test body) Q := by
  intro s hs
  induction hv : V s using Nat.strong_induction_on generalizing s with
  | _ n ih =>
    rcases htest s hs with ht | ⟨ht, hq⟩
    · obtain ⟨s₁, hb, hs₁, hlt⟩ := hbody n s ⟨hs, ht, hv⟩
      obtain ⟨s', h, hq⟩ := ih _ hlt s₁ hs₁ rfl
      exact ⟨s', .again ht hb h, hq⟩
    · exact ⟨s, .done ht, hq⟩

end

end Structured
