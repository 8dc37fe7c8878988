import Mathlib

/-!
# Regions that are divided into blocks

The blocks of a region lie one behind the other. A block is known by its start; how many bytes it
takes is a function of the start.

## Main definitions

* `Tiling.Tiled`: a region divided into blocks

## Main results

* `Tiling.Tiled.apart`: two blocks do not overlap
* `Tiling.Tiled.sum`: the blocks take all of the region
* `Tiling.Tiled.congr`: the division depends on nothing but the sizes of its blocks
-/

namespace Tiling

/-- From `a` to `hi` one block lies behind the other; the list has their starts. -/
inductive Tiled (size : ℕ → ℕ) (hi : ℕ) : ℕ → List ℕ → Prop
  | nil : Tiled size hi hi []
  | cons {a : ℕ} {bs : List ℕ} (h : Tiled size hi (a + size a) bs) : Tiled size hi a (a :: bs)

section

variable {size size' : ℕ → ℕ} {hi a b c : ℕ} {bs : List ℕ}

theorem Tiled.le (h : Tiled size hi a bs) : a ≤ hi := by
  induction h with
  | nil => exact Nat.le_refl _
  | cons _ ih => omega

theorem Tiled.bounds (h : Tiled size hi a bs) (hb : b ∈ bs) : a ≤ b ∧ b + size b ≤ hi := by
  induction h with
  | nil => cases hb
  | cons h ih =>
    rcases List.mem_cons.mp hb with rfl | hb
    · exact ⟨Nat.le_refl _, h.le⟩
    · have := ih hb
      omega

/-- Two blocks do not overlap. -/
theorem Tiled.apart (h : Tiled size hi a bs) (hb : b ∈ bs) (hc : c ∈ bs) (hne : b ≠ c) :
    b + size b ≤ c ∨ c + size c ≤ b := by
  induction h with
  | nil => cases hb
  | cons h ih =>
    rcases List.mem_cons.mp hb with rfl | hb'
    · rcases List.mem_cons.mp hc with rfl | hc'
      · exact absurd rfl hne
      · exact .inl (h.bounds hc').1
    · rcases List.mem_cons.mp hc with rfl | hc'
      · exact .inr (h.bounds hb').1
      · exact ih hb' hc'

theorem Tiled.congr (h : Tiled size hi a bs) (hs : ∀ b ∈ bs, size' b = size b) :
    Tiled size' hi a bs := by
  induction h with
  | nil => exact .nil
  | cons h ih =>
    refine .cons ?_
    rw [hs _ (List.mem_cons_self ..)]
    exact ih fun b hb => hs b (List.mem_cons_of_mem _ hb)

/-- The blocks take all of the region. -/
theorem Tiled.sum (h : Tiled size hi a bs) : a + (bs.map size).sum = hi := by
  induction h with
  | nil => rfl
  | cons _ ih =>
    rw [List.map_cons, List.sum_cons, ← Nat.add_assoc]
    exact ih

/-- There are no more blocks than bytes. -/
theorem Tiled.length_le (h : Tiled size hi a bs) (hs : ∀ b ∈ bs, 0 < size b) :
    a + bs.length ≤ hi := by
  induction h with
  | nil => exact Nat.le_refl _
  | cons h ih =>
    have := ih fun b hb => hs b (List.mem_cons_of_mem _ hb)
    have := hs _ (List.mem_cons_self ..)
    rw [List.length_cons]
    omega

/-- The first block of a region, if it begins there. -/
theorem Tiled.head (h : Tiled size hi a bs) (ha : a ∈ bs) :
    ∃ cs, bs = a :: cs ∧ Tiled size hi (a + size a) cs := by
  cases h with
  | nil => cases ha
  | cons h => exact ⟨_, rfl, h⟩

end

end Tiling
