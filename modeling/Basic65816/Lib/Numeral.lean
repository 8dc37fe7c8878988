import Mathlib

/-!
# Positional numerals

Numerals over an arbitrary alphabet: `digit` says which digit a character stands for, `char` which
character a digit is written as. The first digit is the most significant.

## Main definitions

* `Numeral.value`, `Numeral.signed`: what a numeral stands for, without and with a sign
* `Numeral.canonical`, `Numeral.canonicalSigned`: the numeral without leading zeros
* `Numeral.places`: the digits at given places

## Main results

* `Numeral.canonical_eq_places`: the places of a canonical numeral
* `Numeral.signed_canonicalSigned`: a canonical numeral stands for its number
-/

namespace Numeral

variable {α : Type*} {digit digit' : α → Option ℕ} {b n : ℕ} {s : List α}

/-- The number that a nonempty list of digits stands for. -/
def value (digit : α → Option ℕ) (b : ℕ) (s : List α) : Option ℕ :=
  if s.isEmpty then none else (s.mapM digit).map fun ds => Nat.ofDigits b ds.reverse

/-- What follows an optional minus sign. -/
def body [DecidableEq α] (minus : α) (s : List α) : List α :=
  if s.head? = some minus then s.tail else s

/-- The number that digits behind an optional minus sign stand for. -/
def signed [DecidableEq α] (minus : α) (digit : α → Option ℕ) (b : ℕ) (s : List α) : Option ℤ :=
  (value digit b (body minus s)).map fun n : ℕ => if s.head? = some minus then -(n : ℤ) else n

/-- The numeral without leading zeros. -/
def canonical (char : ℕ → α) (b n : ℕ) : List α :=
  if n = 0 then [char 0] else (Nat.digits b n).reverse.map char

/-- The numeral without leading zeros, behind a minus sign for a negative number. -/
def canonicalSigned (minus : α) (char : ℕ → α) (b : ℕ) (z : ℤ) : List α :=
  if z < 0 then minus :: canonical char b z.natAbs else canonical char b z.natAbs

/-- The digits at the places from `k` down to 0. The first one takes all that is left. -/
def places (b : ℕ) : ℕ → ℕ → List ℕ
  | 0, n => [n]
  | k + 1, n => n / b ^ (k + 1) :: places b k (n % b ^ (k + 1))

/-! ## Reading -/

theorem mapM_eq_some {ds : List ℕ} :
    s.mapM digit = some ds ↔ List.Forall₂ (fun c d => digit c = some d) s ds := by
  induction s generalizing ds with
  | nil => simp [eq_comm]
  | cons c s ih =>
    rw [List.mapM_cons, List.forall₂_cons_left_iff]
    simp only [Option.bind_eq_bind, Option.bind_eq_some_iff, ih]
    constructor
    · rintro ⟨d, hd, ds', hds, h⟩
      exact ⟨d, ds', hd, hds, (Option.some.inj h).symm⟩
    · rintro ⟨d, ds', hd, hds, rfl⟩
      exact ⟨d, hd, ds', hds, rfl⟩

theorem mapM_eq_none : s.mapM digit = none ↔ ∃ c ∈ s, digit c = none := by
  induction s with
  | nil => simp
  | cons c s ih =>
    rw [List.mapM_cons]
    cases hc : digit c with
    | none => simp [hc]
    | some d =>
      cases hs : s.mapM digit with
      | none =>
        obtain ⟨c', hmem, hnone⟩ := ih.mp hs
        exact ⟨fun _ => ⟨c', List.mem_cons_of_mem c hmem, hnone⟩, fun _ => rfl⟩
      | some ds =>
        refine ⟨fun h => (nomatch h), ?_⟩
        rintro ⟨c', hmem, hnone⟩
        rcases List.mem_cons.mp hmem with rfl | hmem
        · rw [hc] at hnone
          cases hnone
        · rw [ih.mpr ⟨c', hmem, hnone⟩] at hs
          cases hs

theorem mapM_congr (h : ∀ c ∈ s, digit' c = digit c) : s.mapM digit' = s.mapM digit := by
  induction s with
  | nil => rfl
  | cons c s ih =>
    rw [List.mapM_cons, List.mapM_cons, h c List.mem_cons_self,
      ih fun c' hc => h c' (List.mem_cons_of_mem c hc)]

/-- What is not a numeral. -/
theorem value_eq_none : value digit b s = none ↔ s = [] ∨ ∃ c ∈ s, digit c = none := by
  cases s with
  | nil => simp [value]
  | cons c s =>
    rw [value, if_neg (by simp), Option.map_eq_none_iff, mapM_eq_none]
    simp

/-- An alphabet that agrees on the characters of a numeral reads the same number. -/
theorem value_congr (h : ∀ c ∈ s, digit' c = digit c) : value digit' b s = value digit b s := by
  unfold value
  rw [mapM_congr h]

section

variable [DecidableEq α] {minus : α}

theorem signed_eq_none :
    signed minus digit b s = none ↔ body minus s = [] ∨ ∃ c ∈ body minus s, digit c = none := by
  rw [signed, Option.map_eq_none_iff, value_eq_none]

theorem signed_congr (h : ∀ c ∈ body minus s, digit' c = digit c) :
    signed minus digit' b s = signed minus digit b s := by
  rw [signed, signed, value_congr h]

theorem signed_cons_minus :
    signed minus digit b (minus :: s) = (value digit b s).map fun n : ℕ => -(n : ℤ) := by
  simp [signed, body]

theorem signed_of_head (h : s.head? ≠ some minus) :
    signed minus digit b s = (value digit b s).map fun n : ℕ => (n : ℤ) := by
  simp [signed, body, h]

end

/-! ## Canonical numerals -/

variable {char : ℕ → α} {minus : α} {k : ℕ}

@[simp] theorem length_places : (places b k n).length = k + 1 := by
  induction k generalizing n with
  | zero => rfl
  | succ k ih => rw [places, List.length_cons, ih]

theorem ofDigits_places : Nat.ofDigits b (places b k n).reverse = n := by
  induction k generalizing n with
  | zero => simp [places]
  | succ k ih =>
    rw [places, List.reverse_cons, Nat.ofDigits_append, ih, List.length_reverse, length_places,
      Nat.ofDigits_singleton]
    exact Nat.mod_add_div n (b ^ (k + 1))

theorem places_lt (hb : 0 < b) (h : n < b ^ (k + 1)) : ∀ d ∈ places b k n, d < b := by
  induction k generalizing n with
  | zero =>
    intro d hd
    obtain rfl := List.mem_singleton.mp hd
    simpa using h
  | succ k ih =>
    intro d hd
    rcases List.mem_cons.mp hd with rfl | hd
    · rw [Nat.pow_succ] at h
      exact Nat.div_lt_of_lt_mul h
    · exact ih (Nat.mod_lt n (Nat.pow_pos hb)) d hd

/-- A canonical numeral has its first digit at the highest place that is needed. -/
theorem canonical_eq_places (hb : 2 ≤ b) (h : n < b ^ (k + 1)) (h' : k = 0 ∨ b ^ k ≤ n) :
    canonical char b n = (places b k n).map char := by
  unfold canonical
  split_ifs with hn
  · obtain rfl : k = 0 := by
      rcases h' with h' | h'
      · exact h'
      · exact absurd h' (by rw [hn, Nat.not_le]; exact Nat.pow_pos (by omega))
    rw [hn]
    rfl
  · have hdigits : Nat.digits b n = (places b k n).reverse := by
      conv_lhs => rw [← ofDigits_places (b := b) (k := k) (n := n)]
      refine Nat.digits_ofDigits b (by omega) _ ?_ ?_
      · intro d hd
        exact places_lt (by omega) h d (List.mem_reverse.mp hd)
      · intro _
        rw [List.getLast_reverse]
        cases k with
        | zero => simpa [places] using hn
        | succ k =>
          have hle : b ^ (k + 1) ≤ n := h'.resolve_left (Nat.succ_ne_zero k)
          exact (Nat.div_pos hle (Nat.pow_pos (by omega))).ne'
    rw [hdigits, List.reverse_reverse]

theorem value_map (ds : List ℕ) (hne : ds ≠ []) (h : ∀ d ∈ ds, digit (char d) = some d) :
    value digit b (ds.map char) = some (Nat.ofDigits b ds.reverse) := by
  have hall : List.Forall₂ (fun c d => digit c = some d) (ds.map char) ds := by
    rw [List.forall₂_map_left_iff, List.forall₂_same]
    exact h
  rw [value, if_neg (by simpa using hne), mapM_eq_some.mpr hall]
  rfl

theorem value_canonical (hb : 2 ≤ b) (hdigit : ∀ d < b, digit (char d) = some d) :
    value digit b (canonical char b n) = some n := by
  unfold canonical
  split_ifs with hn
  · rw [hn]
    have h := value_map (b := b) [0] (by simp) (by simpa using hdigit 0 (by omega))
    simpa using h
  · have hne : (Nat.digits b n).reverse ≠ [] := by simpa [Nat.digits_eq_nil_iff_eq_zero] using hn
    rw [value_map _ hne fun d hd => hdigit d (Nat.digits_lt_base hb (List.mem_reverse.mp hd)),
      List.reverse_reverse, Nat.ofDigits_digits]

/-- A canonical numeral starts with a digit. -/
theorem head_canonical (hb : 2 ≤ b) (hminus : ∀ d < b, char d ≠ minus) :
    (canonical char b n).head? ≠ some minus := by
  unfold canonical
  split_ifs with hn
  · simpa using hminus 0 (by omega)
  · rw [List.head?_map]
    intro h
    obtain ⟨d, hd, hc⟩ := Option.map_eq_some_iff.mp h
    exact hminus d (Nat.digits_lt_base hb (List.mem_reverse.mp (List.mem_of_mem_head? hd))) hc

/-- **A canonical numeral stands for its number.** -/
theorem signed_canonicalSigned [DecidableEq α] {z : ℤ} (hb : 2 ≤ b) (hdigit : ∀ d < b, digit (char d) = some d)
    (hminus : ∀ d < b, char d ≠ minus) :
    signed minus digit b (canonicalSigned minus char b z) = some z := by
  unfold canonicalSigned
  split_ifs with hz
  · rw [signed_cons_minus, value_canonical hb hdigit, Option.map_some]
    congr 1
    omega
  · rw [signed_of_head (head_canonical hb hminus), value_canonical hb hdigit, Option.map_some]
    congr 1
    omega

end Numeral
