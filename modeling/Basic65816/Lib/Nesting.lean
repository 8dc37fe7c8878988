import Mathlib

/-!
# Nesting

A search along a list whose elements open and close levels. It looks for an element with a property
on the level it starts from, and gives up when more levels have been closed than opened.

## Main definitions

* `Nesting.level`: the level behind a list
* `Nesting.First`: an element is the first one with the property on level 0
* `Nesting.search`: the search, element by element

## Main results

* `Nesting.search_eq_found`: the search finds the first such element
* `Nesting.search_append`: the search in parts
-/

namespace Nesting

variable {α : Type*} (step : α → ℤ) (p : α → Prop)

/-- The level behind the elements `ts`, from level 0. -/
def level (ts : List α) : ℤ := (ts.map step).sum

/-- The element `t` has the property and is on level `-x`, seen from the front of `us`, which holds no
such element and goes to no lower level. -/
structure FirstFrom (x : ℤ) (us : List α) (t : α) : Prop where
  found : p t
  level_eq : x + level step us = 0
  nonneg : ∀ ws, ws <+: us → 0 ≤ x + level step ws
  before : ∀ ws s, ws ++ [s] <+: us → p s → x + level step ws ≠ 0

/-- The element `t` behind `us` is the first one on level 0 with the property, and no level below 0
comes before it. -/
def First (us : List α) (t : α) : Prop := FirstFrom step p 0 us t

variable {step p} {x : ℤ} {s t : α} {ts us vs : List α}

@[simp] theorem level_nil : level step [] = 0 := rfl

@[simp] theorem level_cons : level step (t :: ts) = step t + level step ts := List.sum_cons

theorem firstFrom_nil : FirstFrom step p x [] t ↔ p t ∧ x = 0 := by
  constructor
  · intro h
    exact ⟨h.found, by simpa using h.level_eq⟩
  · rintro ⟨hp, rfl⟩
    refine ⟨hp, by simp, fun ws hws => ?_, fun ws s hws _ => ?_⟩
    · rw [List.prefix_nil] at hws
      simp [hws]
    · simp at hws

theorem firstFrom_cons : FirstFrom step p x (s :: us) t ↔
    0 ≤ x ∧ ¬(x = 0 ∧ p s) ∧ FirstFrom step p (x + step s) us t := by
  constructor
  · intro h
    refine ⟨?_, ?_, h.found, ?_, fun ws hws => ?_, fun ws r hws hr => ?_⟩
    · simpa using h.nonneg [] (List.nil_prefix)
    · rintro ⟨rfl, hs⟩
      exact h.before [] s (by simp) hs (by simp)
    · simpa [add_assoc] using h.level_eq
    · simpa [add_assoc] using h.nonneg (s :: ws) (by simpa using hws)
    · simpa [add_assoc] using h.before (s :: ws) r (by simpa using hws) hr
  · rintro ⟨hx, hs, h⟩
    refine ⟨h.found, ?_, fun ws hws => ?_, fun ws r hws hr => ?_⟩
    · simpa [add_assoc] using h.level_eq
    · cases ws with
      | nil => simpa using hx
      | cons w ws =>
        obtain ⟨rfl, hws'⟩ := List.cons_prefix_cons.mp hws
        simpa [add_assoc] using h.nonneg ws hws'
    · cases ws with
      | nil =>
        obtain ⟨rfl, -⟩ := List.cons_prefix_cons.mp hws
        simpa using fun hx => hs ⟨hx, hr⟩
      | cons w ws =>
        obtain ⟨rfl, hws'⟩ := List.cons_prefix_cons.mp hws
        simpa [add_assoc] using h.before ws r hws' hr

/-! ## The search -/

/-- What a search ends with. -/
inductive Verdict (α : Type*)
  | found (t : α)
  | below
  | unmatched
  deriving DecidableEq

/-- The search from level `x`. -/
def search (step : α → ℤ) (p : α → Prop) [DecidablePred p] (x : ℤ) : List α → Verdict α
  | [] => .unmatched
  | t :: ts =>
    if x = 0 ∧ p t then .found t
    else if x + step t < 0 then .below
    else search step p (x + step t) ts

variable [DecidablePred p]

theorem search_cons : search step p x (t :: ts) =
    if x = 0 ∧ p t then .found t
    else if x + step t < 0 then .below
    else search step p (x + step t) ts := rfl

/-- The search finds an element if and only if it is the first one. -/
theorem search_eq_found_from (hx : 0 ≤ x) : search step p x ts = .found t ↔
    ∃ us vs, ts = us ++ t :: vs ∧ FirstFrom step p x us t := by
  induction ts generalizing x with
  | nil => simp [search]
  | cons s ts ih =>
    have hsplit : (∃ us vs, s :: ts = us ++ t :: vs ∧ FirstFrom step p x us t) ↔
        (s = t ∧ p t ∧ x = 0) ∨ ¬(x = 0 ∧ p s) ∧
          ∃ us vs, ts = us ++ t :: vs ∧ FirstFrom step p (x + step s) us t := by
      constructor
      · rintro ⟨us, vs, heq, h⟩
        cases us with
        | nil =>
          obtain ⟨rfl, -⟩ := List.cons.inj heq
          exact .inl ⟨rfl, firstFrom_nil.mp h⟩
        | cons u us =>
          obtain ⟨rfl, htail⟩ := List.cons.inj heq
          obtain ⟨-, hs, h⟩ := firstFrom_cons.mp h
          exact .inr ⟨hs, us, vs, htail, h⟩
      · rintro (⟨rfl, hp, hx⟩ | ⟨hs, us, vs, rfl, h⟩)
        · exact ⟨[], ts, rfl, firstFrom_nil.mpr ⟨hp, hx⟩⟩
        · exact ⟨s :: us, vs, rfl, firstFrom_cons.mpr ⟨hx, hs, h⟩⟩
    rw [hsplit, search_cons]
    split_ifs with hfound hbelow
    · constructor
      · intro h
        cases h
        exact .inl ⟨rfl, hfound.2, hfound.1⟩
      · rintro (⟨rfl, -, -⟩ | ⟨hs, -⟩)
        · rfl
        · exact absurd hfound hs
    · refine iff_of_false (by simp) ?_
      rintro (⟨rfl, hp, hx⟩ | ⟨-, us, vs, rfl, h⟩)
      · exact hfound ⟨hx, hp⟩
      · have := h.nonneg [] (List.nil_prefix)
        rw [level_nil, add_zero] at this
        exact absurd hbelow (not_lt.mpr this)
    · rw [ih (not_lt.mp hbelow)]
      constructor
      · exact fun h => .inr ⟨hfound, h⟩
      · rintro (⟨rfl, hp, hx⟩ | ⟨-, h⟩)
        · exact absurd ⟨hx, hp⟩ hfound
        · exact h

theorem search_eq_found : search step p 0 ts = .found t ↔
    ∃ us vs, ts = us ++ t :: vs ∧ First step p us t :=
  search_eq_found_from (le_refl 0)

/-- A search that has come to the end goes on from the level it has reached. -/
theorem search_append : search step p x (ts ++ us) =
    match search step p x ts with
    | .unmatched => search step p (x + level step ts) us
    | v => v := by
  induction ts generalizing x with
  | nil => simp [search]
  | cons t ts ih =>
    rw [List.cons_append]
    rw [search_cons, search_cons]
    split_ifs with hfound hbelow
    · rfl
    · rfl
    · rw [ih, level_cons, add_assoc]

end Nesting
