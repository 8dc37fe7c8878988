import Basic65816.Lib.Outcome

/-!
# Fuel

A loop without an evident bound is a function of a fuel argument. It `Settles` on a result when
every sufficiently large amount of fuel gives that result; this is eventual equality along
`Filter.atTop`, so that Mathlib's rules for eventual properties compose such facts.

## Main results

* `Settles.unique`: the result does not depend on the fuel
* `Settles.bind`: sequential composition of fallible computations
* `Settles.succ`: one unfolding of the loop
-/

open Filter

/-- Every sufficiently large amount of fuel gives `r`. -/
def Settles {α : Type*} (f : ℕ → α) (r : α) : Prop := ∀ᶠ k in atTop, f k = r

namespace Settles

variable {α β ε : Type} {f : ℕ → α} {r r' : α}

theorem of_forall (h : ∀ k, f k = r) : Settles f r := Eventually.of_forall h

theorem of_le {n : ℕ} (h : ∀ k, n ≤ k → f k = r) : Settles f r :=
  eventually_atTop.mpr ⟨n, h⟩

/-- A computation whose result no further fuel changes settles on it. -/
theorem of_outcome {f : ℕ → Except ε α} {Q : α → Prop} {S : ε → Prop} {n : ℕ} {a : α}
    (h : ∀ k, Outcome Q S (f n) (f (n + k))) (hok : f n = .ok a) : Settles f (.ok a) := by
  refine of_le (n := n) fun k hk => ?_
  obtain ⟨j, rfl⟩ := Nat.exists_eq_add_of_le hk
  have ho := h j
  rw [hok] at ho
  exact ho.agree

theorem exists_le (h : Settles f r) : ∃ n, ∀ k, n ≤ k → f k = r := eventually_atTop.mp h

theorem exists_fuel (h : Settles f r) : ∃ k, f k = r := by
  obtain ⟨n, hn⟩ := h.exists_le
  exact ⟨n, hn n (Nat.le_refl n)⟩

/-- **The result is determined**: two results of the same computation are equal. -/
theorem unique (h : Settles f r) (h' : Settles f r') : r = r' := by
  obtain ⟨k, hk, hk'⟩ := (Eventually.and h h').exists
  exact hk.symm.trans hk'

theorem congr {g : ℕ → α} (h : Settles f r) (hg : ∀ k, g k = f k) : Settles g r :=
  Eventually.mono h fun k hk => (hg k).trans hk

/-- One more unit of fuel does not matter. -/
theorem succ (h : Settles (fun k => f (k + 1)) r) : Settles f r := by
  obtain ⟨n, hn⟩ := h.exists_le
  refine of_le (n := n + 1) fun k hk => ?_
  obtain ⟨j, rfl⟩ : ∃ j, k = j + 1 := ⟨k - 1, by omega⟩
  exact hn j (by omega)

/-- A loop that unfolds to another computation settles where that one does. -/
theorem unfold {g : ℕ → α} (h : Settles g r) (hf : ∀ k, f (k + 1) = g k) : Settles f r :=
  succ (h.congr hf)

/-- Sequential composition of fallible computations. -/
theorem bind {f : ℕ → Except ε α} {g : ℕ → α → Except ε β} {a : α} {s : Except ε β}
    (h : Settles f (.ok a)) (h' : Settles (fun k => g k a) s) :
    Settles (fun k => f k >>= g k) s := by
  refine Eventually.mono (Eventually.and h h') ?_
  rintro k ⟨hf, hg⟩
  simp only [hf, ← hg]
  rfl

/-- An error of the first computation is the error of the composition. -/
theorem bind_error {f : ℕ → Except ε α} {g : ℕ → α → Except ε β} {e : ε}
    (h : Settles f (.error e)) : Settles (fun k => f k >>= g k) (.error e) := by
  refine Eventually.mono h fun k hf => ?_
  simp only [hf]
  rfl

end Settles
