import Basic65816.Lib.Bytes

/-!
# Linked lists in memory

A chain begins at a head cell, a word with the address of the first record. Each record begins with
the address of the next one; zero ends the chain.

## Main definitions

* `Memory.ChainAt`: the records that are linked from a head cell

## Main results

* `Memory.ChainAt.unique`: the memory determines the records
* `Memory.ChainAt.nodup`: a chain that ends has no cycle
* `Memory.ChainAt.push`: a record in front of a chain
-/

namespace Memory

variable {m m' : Memory} {p q r : ℕ} {rs us vs : List ℕ}

/-- The records `rs` are linked from the head cell at `p`. -/
def ChainAt (m : Memory) : ℕ → List ℕ → Prop
  | p, [] => m.word p = 0
  | p, r :: rs => r ≠ 0 ∧ m.word p = r ∧ ChainAt m r rs

/-- A chain depends on its links only; the head cell can be elsewhere. -/
theorem ChainAt.move (h : m.ChainAt p rs) (hp : m'.word q = m.word p)
    (hrs : ∀ r ∈ rs, m'.word r = m.word r) : m'.ChainAt q rs := by
  induction rs generalizing p q with
  | nil => exact hp.trans h
  | cons r rs ih =>
    obtain ⟨hr, hword, h⟩ := h
    refine ⟨hr, hp.trans hword, ih h (hrs r (by simp)) fun s hs => ?_⟩
    exact hrs s (List.mem_cons_of_mem r hs)

theorem ChainAt.congr (h : m.ChainAt p rs) (hp : m'.word p = m.word p)
    (hrs : ∀ r ∈ rs, m'.word r = m.word r) : m'.ChainAt p rs :=
  h.move hp hrs

/-- **A record in front of a chain**: it gets the old head as its link and becomes the head. -/
theorem ChainAt.push (h : m.ChainAt p rs) (hr : r ≠ 0) (hlink : m'.word r = m.word p)
    (hhead : m'.word p = r) (hrs : ∀ s ∈ rs, m'.word s = m.word s) : m'.ChainAt p (r :: rs) :=
  ⟨hr, hhead, h.move hlink hrs⟩

theorem ChainAt.tail (h : m.ChainAt p (us ++ r :: vs)) : m.ChainAt r vs := by
  induction us generalizing p with
  | nil => exact h.2.2
  | cons u us ih => exact ih h.2.2

/-- **The memory determines the records.** -/
theorem ChainAt.unique (h : m.ChainAt p us) (h' : m.ChainAt p vs) : us = vs := by
  induction us generalizing p vs with
  | nil =>
    cases vs with
    | nil => rfl
    | cons v vs => exact (h'.1 (h'.2.1.symm.trans h)).elim
  | cons u us ih =>
    cases vs with
    | nil => exact (h.1 (h.2.1.symm.trans h')).elim
    | cons v vs =>
      obtain ⟨-, hu, hus⟩ := h
      obtain ⟨-, hv, hvs⟩ := h'
      obtain rfl := hu.symm.trans hv
      rw [ih hus hvs]

/-- **A chain that ends has no cycle**: from a record that comes twice, the chain would go on in two
ways. -/
theorem ChainAt.nodup (h : m.ChainAt p rs) : rs.Nodup := by
  induction rs generalizing p with
  | nil => exact List.nodup_nil
  | cons r rs ih =>
    obtain ⟨-, -, h⟩ := h
    refine List.nodup_cons.mpr ⟨fun hr => ?_, ih h⟩
    obtain ⟨us, vs, rfl⟩ := List.append_of_mem hr
    have hlen := congrArg List.length (h.unique h.tail)
    simp only [List.length_append, List.length_cons] at hlen
    omega

end Memory
