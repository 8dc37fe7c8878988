import Basic65816.Expression.Numeric
import Basic65816.Lexer.Bounds
import Basic65816.Listing.Detokenise

/-!
# Constants

A numeral of any length is tokenised to one word or two, the evaluator puts the number together again,
and the listing prints it without leading zeros. The digit loop stops above `$0FFFFFFF` before it adds a
digit; what is left of the range from `2 ^ 27` on is refused behind the loop.

## Main definitions

* `tokInGotInteger`: what follows the digit loop

## Main results

* `tokInteger_tooLarge`: which numerals are refused
* `elAtom_constWords`: what the evaluator delivers
* `constant_survives`: a constant from the text to the evaluator and the listing
-/

namespace Basic65816

open Builder

/-- The error is `e`, unless the fuel has run out. -/
def Stop.Is (e : Error) : Stop → Prop
  | .error e' _ => e' = e
  | .leaves => False
  | .outOfFuel => True

variable {m m₁ : Machine} {c v x y : ℕ} {s ds rest : List ℕ}

/-- `_TOKINGotInteger`: the words of the constant. -/
def tokInGotInteger (m : Machine) : Result Machine :=
  let token := m.dTemp3 % 0x8000 + 0x4000
  let d := doubleLong m.dTemp3 m.dTemp3H
  let m := { m with dTemp3 := d.1, dTemp3H := d.2 }
  if 0x1000 ≤ m.dTemp3H then fail m .integerTooLarge
  else if m.dTemp3H % 0x1000 = 0 then tokWriteToken m token
  else tokWriteToken m (m.dTemp3H % 0x1000 ||| 0x1000) >>= fun m => tokWriteToken m token

/-! ## The limit -/

theorem tokInLoop_error (fuel : ℕ) (m : Machine) : Outcome (fun _ => True) (Stop.Is .integerTooLarge)
    (tokInLoop fuel m) (tokInLoop fuel m) := by
  induction fuel generalizing m with
  | zero => exact trivial
  | succ fuel ih =>
    rw [tokInLoop]
    exact Outcome.ite (fun _ => rfl) fun _ => Outcome.ite (fun _ => ih _) fun _ => Outcome.ok trivial

theorem tokWriteToken_error (m : Machine) (a : ℕ) : Outcome (fun _ => True) (Stop.Is .lineTooLong)
    (tokWriteToken m a) (tokWriteToken m a) :=
  Outcome.ite (fun _ => rfl) fun _ => Outcome.ok trivial

theorem doubleLong_withLong (m : Machine) (hv : v < 0x10000010) :
    doubleLong (m.withLong v).dTemp3 (m.withLong v).dTemp3H = (2 * v % 0x10000, 2 * v / 0x10000) :=
  doubleLong_eq (by omega)

/-- Behind the loop the rest of the range is refused. -/
theorem tokInGotInteger_large (hv : v < 0x10000010) (h : 0x8000000 ≤ v) :
    ∃ m', tokInGotInteger (m.withLong v) = fail m' .integerTooLarge := by
  refine ⟨_, if_pos ?_⟩
  rw [doubleLong_withLong m hv]
  dsimp only
  omega

/-- A constant in range can only be too much for the line. -/
theorem tokInGotInteger_small (h : v < 0x8000000) : Outcome (fun _ => True) (Stop.Is .lineTooLong)
    (tokInGotInteger (m.withLong v)) (tokInGotInteger (m.withLong v)) := by
  unfold tokInGotInteger
  rw [doubleLong_withLong m (by omega)]
  dsimp only
  rw [if_neg (by omega)]
  exact Outcome.ite (fun _ => tokWriteToken_error _ _) fun _ =>
    (tokWriteToken_error _ _).bind fun _ _ => tokWriteToken_error _ _

theorem takeWhile_numeral (hds : ∀ d ∈ ds, isNumeral d) (hrest : ¬ isNumeral (rest.headD 0) = true) :
    (ds ++ rest).takeWhile isNumeral = ds ∧ (ds ++ rest).dropWhile isNumeral = rest := by
  have hnone : rest.takeWhile isNumeral = [] ∧ rest.dropWhile isNumeral = rest := by
    cases rest with
    | nil => exact ⟨rfl, rfl⟩
    | cons d rest =>
      exact ⟨List.takeWhile_cons_of_neg hrest, List.dropWhile_cons_of_neg hrest⟩
  rw [List.takeWhile_append_of_pos hds, List.dropWhile_append_of_pos hds, hnone.1, hnone.2,
    List.append_nil]
  exact ⟨rfl, rfl⟩

/-- **The limit of constants.** -/
theorem tokInteger_tooLarge (hne : ds ≠ []) (hds : ∀ d ∈ ds, isNumeral d)
    (hrest : ¬ isNumeral (rest.headD 0) = true) (hr : Reads m (ds ++ rest)) :
    (∃ m', Settles (fun fuel => tokInteger fuel m) (fail m' .integerTooLarge)) ↔
      0x8000000 ≤ intOf ds := by
  obtain ⟨c, s, hcs⟩ : ∃ c s, ds = c :: s := List.exists_cons_of_ne_nil hne
  have hc : isNumeral c = true := hds c (by rw [hcs]; exact List.mem_cons_self)
  have hdigits := (takeWhile_numeral hds hrest).1
  have hloop : InLoopSpec m (ds ++ rest) 0 := by
    rw [hcs] at hr ⊢
    exact tokInLoop_spec hc hr (by decide)
  unfold InLoopSpec at hloop
  rw [hdigits] at hloop
  rcases hloop with ⟨⟨e, m', hfail⟩, hlarge⟩ | ⟨hok, hlt⟩
  · obtain ⟨fuel, hfuel⟩ := hfail.exists_fuel
    have he := tokInLoop_error fuel (m.withLong 0)
    rw [hfuel] at he
    obtain rfl : e = .integerTooLarge := he.stop
    refine iff_of_true ⟨m', ?_⟩ hlarge
    exact hfail.bind_error (g := fun _ => tokInGotInteger)
  · by_cases hlarge : 0x8000000 ≤ intOf ds
    · obtain ⟨m', hm'⟩ := tokInGotInteger_large (m := m.skip ds.length) hlt hlarge
      refine iff_of_true ⟨m', ?_⟩ hlarge
      exact hok.bind (g := fun _ => tokInGotInteger) (.of_forall fun _ => hm')
    · refine iff_of_false ?_ hlarge
      rintro ⟨m', hfail⟩
      have hrun := hok.bind (g := fun _ => tokInGotInteger)
        (Settles.of_forall fun _ => rfl)
      have heq := hrun.unique hfail
      have hout := tokInGotInteger_small (m := m.skip ds.length) (Nat.not_le.mp hlarge)
      rw [show (m.skip ds.length).withLong (intOf ds) = (m.skip ds.length).withLong
        (ds.foldl addDigit 0) from rfl, heq] at hout
      have hne : Error.integerTooLarge = .lineTooLong := hout.stop
      cases hne

/-! ## The words -/

theorem constWords_small (h : v < 0x8000) : constWords v = [0x4000 + v] := by
  rw [constWords, if_neg (by omega), Nat.mod_eq_of_lt h, Nat.add_comm]
  rfl

theorem constWords_large (h : 0x8000 ≤ v) (hv : v < 0x8000000) :
    constWords v = [0x1000 + v / 0x8000, 0x4000 + v % 0x8000] := by
  rw [constWords, if_pos h, shift_eq hv, Nat.add_comm 0x4000]
  rfl

/-- **The constant code of the evaluator** puts the number together, whatever the other routines are. -/
theorem elAtom_constWords (routine : Handler → Routine) (fuel : ℕ) (ev : Evaluator)
    (hv : v < 0x8000000) (hw : m.bank.WordsAt m.dCodePtr (constWords v))
    (hc : m.dCodePtr + 2 * (constWords v).length < 0x10000) (hshift : m.dConstantShift = 0) :
    ∃ m', elAtom routine fuel ev m x = .ok m' ∧ (m'.value x).toNat = v ∧ m'.dConstantShift = 0 ∧
      m'.dCodePtr = m.dCodePtr + 2 * (constWords v).length := by
  rcases Nat.lt_or_ge v 0x8000 with hsmall | hlarge
  · rw [constWords_small hsmall] at hw hc ⊢
    have htoken : m.token = 0x4000 + v := hw.1
    obtain ⟨hval, -, hcode, hzero, -⟩ := @elConstant_read m x none (0x4000 + v) htoken hshift hc
    refine ⟨elConstant m x, ?_, ?_, hzero, hcode⟩
    · rw [elAtom, htoken, if_neg (by omega), if_pos (by omega)]
    · rw [hval, constantValue, sub16_eq (by omega) (by omega)]
      simp only [Option.getD_none, Nat.zero_and, Long.toNat]
      omega
  · rw [constWords_large hlarge hv] at hw hc ⊢
    simp only [List.length_cons, List.length_nil] at hc ⊢
    have htoken : m.token = 0x1000 + v / 0x8000 := hw.1
    obtain ⟨m₁, hm₁⟩ : ∃ m₁ : Machine, m₁ =
      { m with dConstantShift := m.token &&& 0x0FFF }.skipToken := ⟨_, rfl⟩
    have hcode₁ : m₁.dCodePtr = m.dCodePtr + 2 := by
      rw [hm₁]
      change add16 m.dCodePtr 2 = _
      exact add16_eq (by omega)
    have htoken₁ : m₁.token = 0x4000 + v % 0x8000 := by
      rw [Machine.token, hcode₁, show m₁.bank = m.bank by rw [hm₁]; rfl]
      exact hw.2.1
    have hshift₁ : m₁.dConstantShift = (0x1000 + v / 0x8000) &&& 0x0FFF := by
      rw [hm₁, ← htoken]
      rfl
    have hbits : (0x1000 + v / 0x8000) &&& 0x0FFF = v / 0x8000 :=
      (Nat.and_two_pow_sub_one_eq_mod _ 12).trans (by omega)
    obtain ⟨hval, -, hcode, hzero, -⟩ := @elConstant_read m₁ x (some (0x1000 + v / 0x8000))
      (0x4000 + v % 0x8000) htoken₁ hshift₁ (by omega)
    refine ⟨elConstant m₁ x, ?_, ?_, hzero, ?_⟩
    · rw [elAtom, htoken, if_neg (by omega), if_neg (by omega), if_neg (by omega), if_pos (by omega),
        elConstantShift, hm₁]
    · rw [hval, constantValue, sub16_eq (by omega) (by omega), Option.getD_some, hbits]
      simp only [Long.toNat]
      omega
    · rw [hcode, hcode₁]

/-- **A constant survives tokenising.** The text of the numeral is `ds`, and what follows it does not go
on with a digit. The numeral is refused from `2 ^ 27` on. Below, its words are one constant token, with
a shift token in front from 32768 on; the evaluator delivers the number from them, and the listing
prints it in decimal notation. -/
theorem constant_survives (m : Machine) (ds rest : List ℕ) (hne : ds ≠ []) (hds : ∀ d ∈ ds, isNumeral d)
    (hrest : ¬ isNumeral (rest.headD 0) = true) (hr : Reads m (ds ++ rest)) :
    let v := intOf ds
    ((∃ m', Settles (fun fuel => tokInteger fuel m) (fail m' .integerTooLarge)) ↔ 2 ^ 27 ≤ v) ∧
    (v < 2 ^ 27 → ∃ ws : List ℕ,
      -- the tokeniser
      (∀ buf us, Written m buf us → us.length + 2 < 128 → ∃ m',
        Settles (fun fuel => tokInteger fuel m) (.ok m') ∧ Reads m' rest ∧ Written m' buf (us ++ ws)) ∧
      -- the form
      (v < 32768 → ∃ t, ws = [t] ∧ 0x4000 ≤ t ∧ t ≤ 0xBFFF) ∧
      (32768 ≤ v → ∃ shift t, ws = [shift, t] ∧ 0x1001 ≤ shift ∧ shift ≤ 0x1FFF ∧ 0x4000 ≤ t ∧
        t ≤ 0xBFFF) ∧
      -- the evaluator
      (∀ routine fuel ev (m₁ : Machine) x, m₁.bank.WordsAt m₁.dCodePtr ws →
        m₁.dCodePtr + 2 * ws.length < 0x10000 → m₁.dConstantShift = 0 →
        ∃ m₂, elAtom routine fuel ev m₁ x = .ok m₂ ∧ (m₂.value x).toNat = v ∧
          m₂.dConstantShift = 0 ∧ m₂.dCodePtr = m₁.dCodePtr + 2 * ws.length) ∧
      -- the listing, behind the text `s`
      ∀ (m₁ m₂ : Machine) p t s y, m₁.dConstantShift = 0 → m₁.Expanded p t s m₂ → s ≠ [] →
        m₁.bank.WordsAt y ws → y + 2 * ws.length ≤ p → s.length + (decimal v).length < t →
        s.length + (decimal v).length ≤ 255 → 255 ≤ t → p + t + 1 < 0x10000 →
        ∃ m₃, m₁.Expanded p t (s ++ decimal v) m₃ ∧ ∀ r,
          Settles (fun fuel => dtkMainLoop fuel m₃ (y + 2 * ws.length)) r →
            Settles (fun fuel => dtkMainLoop fuel m₂ y) r) := by
  intro v
  refine ⟨tokInteger_tooLarge hne hds hrest hr, fun hv => ⟨constWords v, ?_, ?_, ?_, ?_, ?_⟩⟩
  · intro buf us hw hroom
    obtain ⟨c, s, hcs⟩ : ∃ c s, ds = c :: s := List.exists_cons_of_ne_nil hne
    obtain ⟨htake, hdrop⟩ := takeWhile_numeral hds hrest
    have hlex : lexConst (ds ++ rest) = some (.const v, rest) := by
      rw [lexConst, htake, hdrop]
      exact if_pos hv
    rw [hcs, List.cons_append] at hr hlex
    have hemits := emits_tokInteger (hds c (by rw [hcs]; exact List.mem_cons_self)) hr hw
    rw [hlex] at hemits
    have hlen : (constWords v).length ≤ 2 := by
      unfold constWords
      split_ifs <;> simp
    have hshort : (us ++ (Item.const v).words).length < 128 := by
      rw [List.length_append]
      change us.length + (constWords v).length < 128
      omega
    unfold Emits at hemits
    dsimp only at hemits
    rwa [if_pos hshort] at hemits
  · intro hsmall
    exact ⟨_, constWords_small hsmall, by omega, by omega⟩
  · intro hlarge
    exact ⟨_, _, constWords_large hlarge hv, by omega, by omega, by omega, by omega⟩
  · intro routine fuel ev m₁ x hw hc hshift
    exact elAtom_constWords routine fuel ev hv hw hc hshift
  · intro m₁ m₂ p t s y hshift h hs hw hy hroom hroom' ht hp
    have hlen : (s ++ (Item.const v).listed (s.getLastD 0)).length = s.length + (decimal v).length :=
      List.length_append
    exact dtkMainLoop_item (i := .const v) hv hshift h hs hw hy (by rw [hlen]; exact hroom) hp

/-- The text `s`, with the token buffer at `$4100`. -/
def constantMachine (s : List ℕ) : Machine := { textMachine s with dTemp2 := 0x4100 }

/-- `007`, at the end of a text. -/
theorem constant_survives_seven : ∃ m' ws,
    Settles (fun fuel => tokInteger fuel (constantMachine [48, 48, 55])) (.ok m') ∧
      Written m' 0x4100 ws ∧ ∃ t, ws = [t] := by
  have hr : Reads (constantMachine [48, 48, 55]) ([48, 48, 55] ++ []) :=
    ⟨⟨rfl, rfl, rfl, rfl, trivial⟩, by decide⟩
  obtain ⟨ws, htok, hform, -⟩ := (constant_survives (constantMachine [48, 48, 55]) [48, 48, 55] []
    (by decide) (by decide) (by decide) hr).2 (by decide)
  obtain ⟨m', hok, -, hw⟩ := htok 0x4100 [] ⟨by decide, by decide, trivial, rfl, by decide⟩ (by decide)
  obtain ⟨t, ht, -⟩ := hform (by decide)
  exact ⟨m', ws, hok, hw, t, ht⟩

end Basic65816
