import Basic65816.Arithmetic.Long
import Basic65816.Lib.Numeral
import Basic65816.Storage.StringAssign

/-!
# The value of a string

`StringToInteger` takes the low four bits of the value of a letter, so a letter from `G` on counts as
its value modulo 16.

## Main definitions

* `digitValue`, `numeralDigit`: the digits of the notation
* `ReadsNumber`: how a conversion ends for a numeral and for anything else

## Main results

* `toNat_mtLoop`: multiplication modulo `2 ^ 32`
* `stringToInteger_reads`: what the conversion accepts, and its value
* `val_grammar`: when that is the notation
-/

namespace Basic65816

/-- The digit a character stands for: letters of either case are the digits from ten on. -/
def digitValue (c : ℕ) : Option ℕ :=
  if 48 ≤ c ∧ c ≤ 57 then some (c - 48)
  else if 65 ≤ c ∧ c ≤ 90 then some (c - 55)
  else if 97 ≤ c ∧ c ≤ 122 then some (c - 87)
  else none

/-- The digits of the notation with base `b`. -/
def numeralDigit (b c : ℕ) : Option ℕ := (digitValue c).filter fun d => decide (d < b)

/-- A conversion delivers the number, modulo `2 ^ 32`, or ends in `Bad constant`. -/
def ReadsNumber (r : Result (Long × Machine)) : Option ℤ → Prop
  | some z => ∃ v m, r = .ok (v, m) ∧ v.Valid ∧ (v.toNat : ℤ) = z % 2 ^ 32
  | none => ∃ m, r = fail m .badConstant

/-! ## Multiplication -/

theorem toNat_mtSum {x : ℕ} {t d : Long} (ht : t.Valid) :
    (mtSum x t d).Valid ∧ (mtSum x t d).toNat = (t.toNat + x % 2 * d.toNat) % 2 ^ 32 := by
  have hlt := ht.toNat_lt
  unfold mtSum
  rcases Nat.mod_two_eq_zero_or_one x with hx | hx
  · rw [if_pos hx, hx]
    exact ⟨ht, by omega⟩
  · rw [if_neg (by omega), hx, toNat_addLong]
    exact ⟨valid_addLong t d, by omega⟩

/-- The product modulo `2 ^ 32`, whatever is carried out. By induction on the multiplier. -/
theorem toNat_mtLoop {x y : ℕ} {t d : Long} (ht : t.Valid) :
    (mtLoop x t d y).1.Valid ∧ (mtLoop x t d y).1.toNat = (t.toNat + x * d.toNat) % 2 ^ 32 := by
  induction x using Nat.strong_induction_on generalizing t d y with
  | _ x ih =>
    obtain ⟨hv, hs⟩ := toNat_mtSum (x := x) (d := d) ht
    rw [mtLoop_eq]
    split_ifs with hx
    · rw [show x % 2 = x by omega] at hs
      exact ⟨hv, hs⟩
    · obtain ⟨hv', hs'⟩ := ih (x / 2) (by omega) (d := aslLong d) (y := mtCarries x t d y) hv
      refine ⟨hv', hs'.trans ?_⟩
      rw [hs, toNat_aslLong]
      have hsplit : x * d.toNat = x % 2 * d.toNat + x / 2 * (2 * d.toNat) := by
        conv_lhs => rw [← Nat.mod_add_div x 2]
        ring
      rw [hsplit, ← Nat.add_assoc, Nat.mod_add_mod]
      exact (Nat.ModEq.rfl.add (Nat.ModEq.mul_left _ (Nat.mod_modEq _ _)))

theorem toNat_multiplyTemp1ByA (m : Machine) (a : ℕ) :
    let m' := (multiplyTemp1ByA m a).2
    Long.Valid (m'.dTemp1, m'.dTemp1H) ∧
      Long.toNat (m'.dTemp1, m'.dTemp1H) = a * Long.toNat (m.dTemp1, m.dTemp1H) % 2 ^ 32 := by
  obtain ⟨hv, hs⟩ := toNat_mtLoop (x := a) (y := 0) (d := (m.dTemp1, m.dTemp1H)) valid_zero
  rw [show Long.toNat (0, 0) = 0 from rfl, Nat.zero_add] at hs
  exact ⟨hv, hs⟩

/-! ## Digits -/

/-- The validation of a character masks the digit. -/
theorem stiDigit_eq (b c : ℕ) :
    stiDigit b c = ((digitValue c).map (· % 16)).filter fun d => decide (d < b) := by
  have hmask : (if convertUpperCase c < 48 then none
      else if convertUpperCase c < 58 then some (convertUpperCase c % 16)
      else if convertUpperCase c < 65 ∨ 91 ≤ convertUpperCase c then none
      else some ((convertUpperCase c + 9) % 16)) = (digitValue c).map (· % 16) := by
    unfold convertUpperCase digitValue
    split_ifs <;> simp only [Option.map_some, Option.map_none, Option.some.injEq] <;> omega
  unfold stiDigit
  dsimp only
  rw [hmask]
  cases (digitValue c).map (· % 16) with
  | none => rfl
  | some d =>
    by_cases hd : b ≤ d
    · simp [Option.filter, hd, Nat.not_lt.mpr hd]
    · simp [Option.filter, hd, Nat.lt_of_not_le hd]

theorem stiDigit_eq_none (b c : ℕ) :
    stiDigit b c = none ↔ ∀ d, digitValue c = some d → b ≤ d % 16 := by
  rw [stiDigit_eq]
  cases digitValue c with
  | none => simp
  | some d => simp [Option.filter_eq_none_iff]

theorem numeralDigit_eq_none (b c : ℕ) :
    numeralDigit b c = none ↔ ∀ d, digitValue c = some d → b ≤ d := by
  rw [numeralDigit]
  cases digitValue c with
  | none => simp
  | some d => simp [Option.filter_eq_none_iff]

/-- Up to `F` the mask changes nothing. -/
theorem stiDigit_eq_numeralDigit {b c : ℕ} (h : ∀ d, digitValue c = some d → d < 16) :
    stiDigit b c = numeralDigit b c := by
  rw [stiDigit_eq, numeralDigit]
  cases hc : digitValue c with
  | none => rfl
  | some d => rw [Option.map_some, Nat.mod_eq_of_lt (h d hc)]

/-! ## The conversion -/

/-- What `_STILoop` adds to the number so far. By induction on the characters. -/
theorem stiLoop_reads {b : ℕ} {s : List ℕ} {m : Machine} (hb : m.dSignCount = b) (hb' : b ≤ 16)
    (hs : m.bank.BytesAt m.dTemp3 s) (hlt : m.dTemp3 + s.length ≤ 0x10000)
    (hv : Long.Valid (m.dTemp1, m.dTemp1H)) :
    (s.mapM (stiDigit b)).elim (∃ m', stiLoop s.length m = fail m' .badConstant) fun ds =>
      ∃ m', stiLoop s.length m = .ok m' ∧ Long.Valid (m'.dTemp1, m'.dTemp1H) ∧
        Long.toNat (m'.dTemp1, m'.dTemp1H) =
          (b ^ s.length * Long.toNat (m.dTemp1, m.dTemp1H) + Nat.ofDigits b ds.reverse) % 2 ^ 32 := by
  induction s generalizing m with
  | nil =>
    refine ⟨m, rfl, hv, ?_⟩
    simpa using (Nat.mod_eq_of_lt hv.toNat_lt).symm
  | cons c s ih =>
    obtain ⟨hvm, hmul⟩ := toNat_multiplyTemp1ByA m m.dSignCount
    obtain ⟨m₁, hm₁⟩ : ∃ m₁, m₁ = (multiplyTemp1ByA m m.dSignCount).2 := ⟨_, rfl⟩
    have hsame : m₁.dTemp3 = m.dTemp3 ∧ m₁.dSignCount = m.dSignCount ∧ m₁.bank = m.bank := by
      rw [hm₁]
      exact ⟨rfl, rfl, rfl⟩
    obtain ⟨hptr, hbase, hbank⟩ := hsame
    have hstep : stiLoop (c :: s).length m =
        (stiDigit b c).elim (fail m₁ .badConstant) fun d => stiLoop s.length { m₁ with
          dTemp1 := (d + m₁.dTemp1) % 0x10000
          dTemp1H := add16 m₁.dTemp1H ((d + m₁.dTemp1) / 0x10000)
          dTemp3 := add16 m₁.dTemp3 1, dTemp3H := s.length } := by
      have hdigit : stiDigit m₁.dSignCount (m₁.bank.byte m₁.dTemp3) = stiDigit b c := by
        rw [hbase, hbank, hptr, hb, hs.1]
      rcases hpair : multiplyTemp1ByA m m.dSignCount with ⟨carry, m₂⟩
      obtain rfl : m₁ = m₂ := hm₁.trans (congrArg Prod.snd hpair)
      rw [List.length_cons, stiLoop, hpair]
      dsimp only
      rw [hdigit]
      cases stiDigit b c <;> rfl
    rw [← hm₁, hb] at hmul
    rw [← hm₁] at hvm
    rw [hstep, List.mapM_cons]
    cases hc : stiDigit b c with
    | none => exact ⟨m₁, rfl⟩
    | some d =>
      have hd : d < 16 := by
        rw [stiDigit_eq, Option.filter_eq_some_iff] at hc
        have := of_decide_eq_true hc.2
        omega
      obtain ⟨lo, hlo⟩ : ∃ lo, lo = d + m₁.dTemp1 := ⟨_, rfl⟩
      have hnext : Long.toNat (lo % 0x10000, add16 m₁.dTemp1H (lo / 0x10000)) =
          (b * Long.toNat (m.dTemp1, m.dTemp1H) + d) % 2 ^ 32 := by
        have hadd : Long.toNat (lo % 0x10000, add16 m₁.dTemp1H (lo / 0x10000)) =
            (Long.toNat (m₁.dTemp1, m₁.dTemp1H) + d) % 2 ^ 32 := by
          simp only [Long.toNat, add16]
          omega
        rw [hadd, hmul, Nat.mod_add_mod]
      have hrest : m.bank.BytesAt (add16 m.dTemp3 1) s := by
        cases s with
        | nil => trivial
        | cons c' s =>
          rw [add16_eq (by simp only [List.length_cons] at hlt; omega)]
          exact hs.2
      have hfit : add16 m.dTemp3 1 + s.length ≤ 0x10000 := by
        simp only [List.length_cons] at hlt
        unfold add16
        omega
      have hih := ih (m := { m₁ with
        dTemp1 := lo % 0x10000, dTemp1H := add16 m₁.dTemp1H (lo / 0x10000)
        dTemp3 := add16 m₁.dTemp3 1, dTemp3H := s.length }) (hbase.trans hb)
        (by rw [hbank, hptr]; exact hrest) (by rw [hptr]; exact hfit)
        ⟨Nat.mod_lt _ (by decide), add16_lt _ _⟩
      rw [Option.elim_some]
      rw [← hlo]
      cases hds : s.mapM (stiDigit b) with
      | none =>
        rw [hds] at hih
        exact hih
      | some ds =>
        rw [hds] at hih
        obtain ⟨m', hm', hv', hval⟩ := hih
        refine ⟨m', hm', hv', hval.trans ?_⟩
        dsimp only
        have hlen : ds.length = s.length := (Numeral.mapM_eq_some.mp hds).length_eq.symm
        rw [hnext, List.reverse_cons, Nat.ofDigits_append, List.length_reverse, hlen,
          Nat.ofDigits_singleton, List.length_cons]
        have hring : b ^ (s.length + 1) * Long.toNat (m.dTemp1, m.dTemp1H) +
            (Nat.ofDigits b ds.reverse + b ^ s.length * d) =
            b ^ s.length * (b * Long.toNat (m.dTemp1, m.dTemp1H) + d) +
              Nat.ofDigits b ds.reverse := by ring
        rw [hring]
        exact (Nat.ModEq.mul_left _ (Nat.mod_modEq _ _)).add_right _

/-- The characters behind the sign. -/
theorem stiLoop_value {b : ℕ} {s : List ℕ} {m : Machine} (hb : m.dSignCount = b) (hb' : b ≤ 16)
    (hs : m.bank.BytesAt m.dTemp3 s) (hlt : m.dTemp3 + s.length ≤ 0x10000)
    (hzero : (m.dTemp1, m.dTemp1H) = (0, 0)) (hne : s ≠ []) :
    (Numeral.value (stiDigit b) b s).elim (∃ m', stiLoop s.length m = fail m' .badConstant) fun n =>
      ∃ m', stiLoop s.length m = .ok m' ∧ Long.Valid (m'.dTemp1, m'.dTemp1H) ∧
        Long.toNat (m'.dTemp1, m'.dTemp1H) = n % 2 ^ 32 := by
  have h := stiLoop_reads hb hb' hs hlt (hzero ▸ valid_zero)
  rw [Numeral.value, if_neg (by simpa using hne)]
  cases hds : s.mapM (stiDigit b) with
  | none =>
    rw [hds] at h
    exact h
  | some ds =>
    rw [hds, hzero] at h
    simpa [Long.toNat] using h

/-- The conversion behind the sign. -/
theorem stiLoop_signed {b : ℕ} {s : List ℕ} {m : Machine} (neg : Prop) [Decidable neg]
    (hb : m.dSignCount = b) (hb' : b ≤ 16) (hlen : m.dTemp3H = s.length)
    (hs : m.bank.BytesAt m.dTemp3 s) (hlt : m.dTemp3 + s.length ≤ 0x10000)
    (hzero : (m.dTemp1, m.dTemp1H) = (0, 0)) :
    ReadsNumber
      (if m.dTemp3H = 0 then fail m .badConstant
      else do
        let m ← stiLoop m.dTemp3H m
        let v := (m.dTemp1, m.dTemp1H)
        let v := if neg then subLong (0, 0) v else v
        .ok (v, { m with dTemp1 := v.1, dTemp1H := v.2 }))
      ((Numeral.value (stiDigit b) b s).map fun n : ℕ => if neg then -(n : ℤ) else n) := by
  rw [hlen]
  by_cases hne : s = []
  · subst hne
    exact ⟨m, rfl⟩
  rw [if_neg fun h => hne (List.length_eq_zero_iff.mp h)]
  have h := stiLoop_value hb hb' hs hlt hzero hne
  cases hv : Numeral.value (stiDigit b) b s with
  | none =>
    rw [hv] at h
    obtain ⟨m', hm'⟩ := h
    exact ⟨m', by rw [hm']; rfl⟩
  | some n =>
    rw [hv] at h
    obtain ⟨m', hm', hvalid, hval⟩ := h
    refine ⟨_, _, by rw [hm']; rfl, ?_⟩
    split_ifs
    · refine ⟨valid_subLong _ _, ?_⟩
      rw [toNat_subLong valid_zero hvalid, hval, show Long.toNat (0, 0) = 0 from rfl]
      dsimp only
      omega
    · refine ⟨hvalid, ?_⟩
      rw [hval]
      dsimp only
      omega

/-- **What the conversion accepts**: the numerals whose letters are taken modulo 16. -/
theorem stringToInteger_reads {m : Machine} {a b : ℕ} {s : List ℕ} (hs : m.bank.StringAt a s)
    (ha : a + s.length < 0x10000) (hb : b ≤ 16) :
    ReadsNumber (stringToInteger m a b) (Numeral.signed 45 (stiDigit b) b s) := by
  have hlt := hs.length_lt
  obtain ⟨hlen, hchars⟩ := hs
  cases s with
  | nil => exact ⟨{ m with dTemp3 := a, dTemp3H := m.bank.byte a }, if_pos hlen⟩
  | cons c s =>
    have hlen' : m.bank.byte a = s.length + 1 := hlen
    have hsum : a + 1 + s.length < 0x10000 := by
      rw [List.length_cons] at ha
      omega
    unfold stringToInteger
    dsimp only
    rw [if_neg (by omega), add16_eq (by omega), hlen', hchars.1]
    simp only [Numeral.signed, Numeral.body, List.head?_cons, Option.some.injEq, List.tail_cons]
    refine stiLoop_signed (c = 45) ?_ hb ?_ ?_ ?_ ?_
    · split <;> rfl
    · split <;> rfl
    · split
      · -- the last address may be the end of the bank
        cases s with
        | nil => trivial
        | cons c' s =>
          rw [List.length_cons] at hsum
          rw [add16_eq (by omega)]
          exact hchars.2
      · exact hchars
    · split
      · change add16 (a + 1) 1 + s.length ≤ 0x10000
        unfold add16
        omega
      · rw [List.length_cons]
        change a + 1 + (s.length + 1) ≤ 0x10000
        omega
    · split <;> rfl

/-! ## The notation -/

theorem ReadsNumber.not_none {r : Result (Long × Machine)} {z : ℤ} (h : ReadsNumber r (some z)) :
    ¬ ReadsNumber r none := by
  rintro ⟨m', hm'⟩
  obtain ⟨v, m, hm, -⟩ := h
  rw [hm] at hm'
  cases hm'

/-- **`val(` accepts its notation** and delivers the number modulo `2 ^ 32`, unless a letter from `G`
on stands in the string and all its characters are digits when such letters are taken modulo 16. -/
theorem val_grammar (m : Machine) {a b : ℕ} {s : List ℕ} (hs : m.bank.StringAt a s)
    (ha : a + s.length < 0x10000) (hb : 2 ≤ b) (hb' : b ≤ 16) :
    ReadsNumber (stringToInteger m a b) (Numeral.signed 45 (numeralDigit b) b s) ↔
      ∀ c ∈ Numeral.body 45 s, (∃ d, digitValue c = some d ∧ 16 ≤ d) →
        ∃ c' ∈ Numeral.body 45 s, ∀ d, digitValue c' = some d → b ≤ d % 16 := by
  have hreads := stringToInteger_reads hs ha hb'
  by_cases hletter : ∃ c ∈ Numeral.body 45 s, ∃ d, digitValue c = some d ∧ 16 ≤ d
  · obtain ⟨c, hc, d, hd, hge⟩ := hletter
    -- such a letter is not a digit
    have hnone : Numeral.signed 45 (numeralDigit b) b s = none := by
      refine Numeral.signed_eq_none.mpr (.inr ⟨c, hc, (numeralDigit_eq_none b c).mpr ?_⟩)
      intro d' hd'
      rw [hd] at hd'
      obtain rfl := Option.some.inj hd'
      omega
    rw [hnone]
    constructor
    · intro hfail _ _ _
      have hsti : Numeral.signed 45 (stiDigit b) b s = none := by
        cases hv : Numeral.signed 45 (stiDigit b) b s with
        | none => rfl
        | some z =>
          rw [hv] at hreads
          exact absurd hfail (ReadsNumber.not_none hreads)
      rcases Numeral.signed_eq_none.mp hsti with hnil | ⟨c', hc', h'⟩
      · rw [hnil] at hc
        cases hc
      · exact ⟨c', hc', (stiDigit_eq_none b c').mp h'⟩
    · intro h
      obtain ⟨c', hc', h'⟩ := h c hc ⟨d, hd, hge⟩
      have hsti : Numeral.signed 45 (stiDigit b) b s = none :=
        Numeral.signed_eq_none.mpr (.inr ⟨c', hc', (stiDigit_eq_none b c').mpr h'⟩)
      rwa [hsti] at hreads
  · have hsame : Numeral.signed 45 (stiDigit b) b s = Numeral.signed 45 (numeralDigit b) b s := by
      refine Numeral.signed_congr fun c hc => stiDigit_eq_numeralDigit fun d hd => ?_
      by_contra hge
      exact hletter ⟨c, hc, d, hd, Nat.not_lt.mp hge⟩
    rw [← hsame]
    refine ⟨fun _ c hc hd => absurd ⟨c, hc, hd⟩ hletter, fun _ => hreads⟩

/-- A machine with a string at the start of the workspace. -/
def holding (s : List ℕ) : Machine :=
  { (default : Machine) with bank := Memory.ofBytes 0x4000 (s.length :: s) }

/-- The number -255 in hexadecimal. -/
theorem val_grammar_hexadecimal :
    ReadsNumber (stringToInteger (holding [45, 102, 70]) 0x4000 16)
      (Numeral.signed 45 (numeralDigit 16) 16 [45, 102, 70]) :=
  (val_grammar (holding [45, 102, 70]) (a := 0x4000) (b := 16) (s := [45, 102, 70])
    (by decide) (by decide) (by decide) (by decide)).mpr (by decide)

/-- `val("G")` is 0. -/
theorem val_grammar_letter :
    ¬ ReadsNumber (stringToInteger (holding [71]) 0x4000 10)
      (Numeral.signed 45 (numeralDigit 10) 10 [71]) := by
  obtain ⟨r, hr, -⟩ := Except.exists_of_check
    (r := stringToInteger (holding [71]) 0x4000 10) (P := fun r => r.1 = (0, 0)) (by decide +kernel)
  rintro ⟨m, hm⟩
  rw [hr] at hm
  cases hm

end Basic65816
