import Basic65816.Builder.Tokeniser

/-!
# The lexical items of a line

A line of BASIC is a list of items: keywords of the token table, identifiers, constants and quoted
strings. `lex` reads the items off a capitalised line, and every item has its token words. Both
tokenisers are compared with this lexer; the lister and the line editor are described by it.

## Main definitions

* `Item`, `Item.words`: an item and its token words
* `capitalise`: upper case outside quotes
* `lexOne`, `lex`: the first item of a text, the items of a line

## Main results

* `lexOne_suffix`: the first item is a nonempty prefix
* `lex_cons`: the recursion equation of `lex`
-/

namespace Basic65816

/-- A lexical item: a token of the table, an identifier (upper-case name, `$` and `(` markers), a
constant, or the characters of a string. -/
inductive Item
  | token (t : ℕ)
  | ident (name : List ℕ) (isString isArray : Bool)
  | const (value : ℕ)
  | string (chars : List ℕ)
  deriving DecidableEq, Repr

/-- The token words of an item. -/
def Item.words : Item → List ℕ
  | .token t => [t]
  | .ident name isString isArray =>
    Builder.identWords isString isArray (Builder.padEven (name.map Builder.convert))
  | .const value => Builder.constWords value
  | .string chars => Builder.stringWords chars

/-- The token words of a list of items. -/
def wordsOf (items : List Item) : List ℕ := items.flatMap Item.words

@[simp] theorem wordsOf_nil : wordsOf [] = [] := rfl

@[simp] theorem wordsOf_cons (i : Item) (is : List Item) :
    wordsOf (i :: is) = i.words ++ wordsOf is := rfl

@[simp] theorem wordsOf_append (is js : List Item) :
    wordsOf (is ++ js) = wordsOf is ++ wordsOf js := by
  simp [wordsOf]

/-! ## Characters -/

/-- A character of an identifier in capitalised text. -/
def isNameChar (c : ℕ) : Bool := (48 ≤ c && c < 58) || (65 ≤ c && c < 91)

/-- A decimal digit. -/
def isNumeral (c : ℕ) : Bool := 48 ≤ c && c < 58

/-- Upper case outside quotes; `q` says whether the text begins inside quotes. -/
def capitaliseFrom : Bool → List ℕ → List ℕ
  | _, [] => []
  | q, c :: s =>
    let q' := if c = 34 then !q else q
    (if q' then c else upperChar c) :: capitaliseFrom q' s

/-- Upper case outside quotes. -/
def capitalise (s : List ℕ) : List ℕ := capitaliseFrom false s

@[simp] theorem capitaliseFrom_nil (q : Bool) : capitaliseFrom q [] = [] := rfl

@[simp] theorem length_capitaliseFrom (s : List ℕ) :
    ∀ q, (capitaliseFrom q s).length = s.length := by
  induction s with
  | nil => simp
  | cons c s ih => intro q; simp [capitaliseFrom, ih]

/-! ## The lexer -/

/-- The token whose upper-case name is `s`. -/
def keyword (s : List ℕ) : Option ℕ :=
  (tokenList.find? fun t => t.name.map upperChar == s).map Token.id

theorem keyword_mem {s : List ℕ} {t : ℕ} (h : keyword s = some t) :
    ∃ k ∈ tokenList, k.name.map upperChar = s ∧ k.id = t := by
  simp only [keyword, Option.map_eq_some_iff] at h
  obtain ⟨k, hk, rfl⟩ := h
  exact ⟨k, List.mem_of_find?_eq_some hk, by simpa using List.find?_some hk, rfl⟩

/-- An identifier with its suffixes, or the keyword it spells. -/
def lexName (s : List ℕ) : Item × List ℕ :=
  let name := s.takeWhile isNameChar
  let (dollar, rest) := Builder.takeSuffix 36 (s.dropWhile isNameChar)
  let (paren, rest) := Builder.takeSuffix 40 rest
  match keyword (name ++ (if dollar then [36] else []) ++ (if paren then [40] else [])) with
  | some t => (.token t, rest)
  | none => (.ident name dollar paren, rest)

/-- The longest punctuation token, of two characters or one. -/
def lexPunctuation : List ℕ → Option (Item × List ℕ)
  | a :: b :: s =>
    match keyword [a, b] with
    | some t => some (.token t, s)
    | none => (keyword [a]).map fun t => (.token t, b :: s)
  | [a] => (keyword [a]).map fun t => (.token t, [])
  | [] => none

/-- A constant: below `2 ^ 27`. -/
def lexConst (s : List ℕ) : Option (Item × List ℕ) :=
  let value := Builder.intOf (s.takeWhile isNumeral)
  if value < 0x8000000 then some (.const value, s.dropWhile isNumeral) else none

/-- A string, after its opening quote. -/
def lexString (s : List ℕ) : Option (Item × List ℕ) :=
  match s.dropWhile (· != 34) with
  | [] => none
  | _ :: rest => some (.string (s.takeWhile (· != 34)), rest)

/-- The first item of a text that does not begin with a space. -/
def lexOne : List ℕ → Option (Item × List ℕ)
  | [] => none
  | c :: s =>
    if c = 34 then lexString s
    else if isNumeral c then lexConst (c :: s)
    else if isNameChar c then some (lexName (c :: s))
    else lexPunctuation (c :: s)

/-- The items of a text: spaces separate, a control character ends the line. -/
def lexLoop : ℕ → List ℕ → Option (List Item)
  | _, [] => some []
  | 0, _ :: _ => none
  | n + 1, c :: s =>
    if c < 32 then some []
    else if c = 32 then lexLoop n s
    else do
      let (item, rest) ← lexOne (c :: s)
      let items ← lexLoop n rest
      some (item :: items)

/-- The items of a capitalised line. -/
def lex (s : List ℕ) : Option (List Item) := lexLoop s.length s

/-! ## Items are prefixes -/

/-- `rest` is what follows a nonempty beginning of `s`. -/
def Follows (s rest : List ℕ) : Prop := ∃ c pre, s = c :: pre ++ rest

theorem Follows.length_lt {s rest : List ℕ} (h : Follows s rest) : rest.length < s.length := by
  obtain ⟨c, pre, rfl⟩ := h
  simp only [List.length_append, List.length_cons]
  omega

theorem takeSuffix_append (c : ℕ) (s : List ℕ) :
    (if (Builder.takeSuffix c s).1 then [c] else []) ++ (Builder.takeSuffix c s).2 = s := by
  cases s with
  | nil => rfl
  | cons d s =>
    by_cases h : d = c <;> simp [Builder.takeSuffix, h]

/-- What `lexName` reads: the name, the suffixes and the rest. -/
theorem lexName_append (s : List ℕ) :
    let dollar := Builder.takeSuffix 36 (s.dropWhile isNameChar)
    let paren := Builder.takeSuffix 40 dollar.2
    s.takeWhile isNameChar ++ (if dollar.1 then [36] else []) ++ (if paren.1 then [40] else []) ++
      paren.2 = s := by
  intro dollar paren
  rw [List.append_assoc, takeSuffix_append, List.append_assoc, takeSuffix_append,
    List.takeWhile_append_dropWhile]

theorem lexName_rest (s : List ℕ) :
    (lexName s).2 = (Builder.takeSuffix 40 (Builder.takeSuffix 36 (s.dropWhile isNameChar)).2).2 := by
  unfold lexName
  dsimp only
  split <;> rfl

theorem lexName_suffix {c : ℕ} {s : List ℕ} (hc : isNameChar c) :
    Follows (c :: s) (lexName (c :: s)).2 := by
  rw [lexName_rest]
  have h := lexName_append (c :: s)
  dsimp only at h
  rw [List.takeWhile_cons_of_pos hc] at h
  exact ⟨c, _, h.symm⟩

theorem lexPunctuation_suffix {s rest : List ℕ} {i : Item}
    (h : lexPunctuation s = some (i, rest)) : Follows s rest := by
  match s, h with
  | [a], h =>
    simp only [lexPunctuation, Option.map_eq_some_iff, Prod.mk.injEq] at h
    obtain ⟨_, -, -, rfl⟩ := h
    exact ⟨a, [], rfl⟩
  | a :: b :: s, h =>
    simp only [lexPunctuation] at h
    split at h
    · simp only [Option.some.injEq, Prod.mk.injEq] at h
      obtain ⟨-, rfl⟩ := h
      exact ⟨a, [b], rfl⟩
    · simp only [Option.map_eq_some_iff, Prod.mk.injEq] at h
      obtain ⟨_, -, -, rfl⟩ := h
      exact ⟨a, [], rfl⟩

theorem lexConst_suffix {c : ℕ} {s rest : List ℕ} {i : Item} (hc : isNumeral c)
    (h : lexConst (c :: s) = some (i, rest)) : Follows (c :: s) rest := by
  unfold lexConst at h
  dsimp only at h
  split at h
  · simp only [Option.some.injEq, Prod.mk.injEq] at h
    obtain ⟨-, rfl⟩ := h
    refine ⟨c, s.takeWhile isNumeral, ?_⟩
    rw [List.dropWhile_cons_of_pos hc, List.cons_append, List.takeWhile_append_dropWhile]
  · cases h

theorem lexString_suffix {s rest : List ℕ} {i : Item} (h : lexString s = some (i, rest)) :
    Follows s rest := by
  unfold lexString at h
  split at h
  · cases h
  · rename_i q rest' hd
    simp only [Option.some.injEq, Prod.mk.injEq] at h
    obtain ⟨-, rfl⟩ := h
    have hs : s.takeWhile (· != 34) ++ q :: rest' = s := by
      rw [← hd, List.takeWhile_append_dropWhile]
    cases ht : s.takeWhile (· != 34) with
    | nil => exact ⟨q, [], by rw [ht] at hs; exact hs.symm⟩
    | cons c pre => exact ⟨c, pre ++ [q], by rw [ht] at hs; simpa using hs.symm⟩

/-- **The first item is a nonempty prefix** of the text. -/
theorem lexOne_suffix {s rest : List ℕ} {i : Item} (h : lexOne s = some (i, rest)) :
    Follows s rest := by
  cases s with
  | nil => cases h
  | cons c s =>
    simp only [lexOne] at h
    split_ifs at h with h₁ h₂ h₃
    · obtain ⟨d, pre, rfl⟩ := lexString_suffix h
      exact ⟨c, d :: pre, rfl⟩
    · exact lexConst_suffix h₂ h
    · simp only [Option.some.injEq] at h
      have := lexName_suffix (s := s) h₃
      rwa [h] at this
    · exact lexPunctuation_suffix h

/-- A string is found exactly when there is a closing quote. -/
theorem lexString_eq_none {s : List ℕ} : lexString s = none ↔ 34 ∉ s := by
  unfold lexString
  cases h : s.dropWhile (· != 34) with
  | nil =>
    simp only [List.dropWhile_eq_nil_iff] at h
    simp only [true_iff]
    intro hmem
    simpa using h 34 hmem
  | cons q rest =>
    have hs : s.takeWhile (· != 34) ++ q :: rest = s := by
      rw [← h, List.takeWhile_append_dropWhile]
    have hq : q = 34 := by
      have := List.head_dropWhile_not (· != 34) (l := s) (by simp [h])
      simpa [h] using this
    simp only [reduceCtorEq, false_iff, not_not]
    rw [← hs, hq]
    simp

/-- The text of a string item: the characters, a quote and the rest. -/
theorem lexString_eq_some {s rest : List ℕ} {i : Item} (h : lexString s = some (i, rest)) :
    ∃ chars, i = .string chars ∧ s = chars ++ 34 :: rest ∧ 34 ∉ chars := by
  unfold lexString at h
  split at h
  · cases h
  · rename_i q rest' hd
    simp only [Option.some.injEq, Prod.mk.injEq] at h
    obtain ⟨rfl, rfl⟩ := h
    have hq : q = 34 := by
      have := List.head_dropWhile_not (· != 34) (l := s) (by simp [hd])
      simpa [hd] using this
    subst hq
    refine ⟨_, rfl, ?_, fun hmem => by simpa using List.mem_takeWhile_imp hmem⟩
    rw [← hd, List.takeWhile_append_dropWhile]

/-- The string item of a text with a closing quote. -/
theorem lexString_append {chars : List ℕ} (hq : 34 ∉ chars) (rest : List ℕ) :
    lexString (chars ++ 34 :: rest) = some (.string chars, rest) := by
  have hp : ∀ c ∈ chars, (c != 34) = true := fun c hc => by
    simp only [bne_iff_ne]
    rintro rfl
    exact hq hc
  rw [lexString, List.dropWhile_append_of_pos hp, List.takeWhile_append_of_pos hp]
  simp

/-! ## The recursion equations of `lex` -/

theorem lexLoop_cons (n c : ℕ) (s : List ℕ) :
    lexLoop (n + 1) (c :: s) =
      if c < 32 then some []
      else if c = 32 then lexLoop n s
      else (lexOne (c :: s)).bind fun p => (lexLoop n p.2).bind fun items => some (p.1 :: items) :=
  rfl

theorem lexLoop_eq {n : ℕ} :
    ∀ {k : ℕ} {s : List ℕ}, s.length ≤ k → k ≤ n → lexLoop n s = lexLoop k s := by
  induction n with
  | zero =>
    intro k s hs hk
    rw [Nat.le_zero.mp hk]
  | succ n ih =>
    intro k s hs hk
    cases s with
    | nil => cases k <;> rfl
    | cons c s =>
      obtain ⟨k, rfl⟩ : ∃ j, k = j + 1 := ⟨k - 1, by simp at hs; omega⟩
      simp only [List.length_cons, Nat.add_le_add_iff_right] at hs hk
      rw [lexLoop_cons, lexLoop_cons]
      split_ifs
      · rfl
      · exact ih hs hk
      · cases h : lexOne (c :: s) with
        | none => rfl
        | some r =>
          have hr := (lexOne_suffix h).length_lt
          simp only [List.length_cons] at hr
          rw [Option.bind_some, Option.bind_some, ih (k := k) (by omega) hk]

theorem lexLoop_of_le {n : ℕ} {s : List ℕ} (h : s.length ≤ n) : lexLoop n s = lex s :=
  lexLoop_eq (Nat.le_refl _) h

@[simp] theorem lex_nil : lex [] = some [] := rfl

theorem lex_control {c : ℕ} {s : List ℕ} (h : c < 32) : lex (c :: s) = some [] := by
  rw [lex, List.length_cons, lexLoop_cons, if_pos h]

@[simp] theorem lex_space (s : List ℕ) : lex (32 :: s) = lex s := by
  rw [lex, List.length_cons, lexLoop_cons, if_neg (Nat.lt_irrefl 32), if_pos rfl, lex]

/-- **The recursion equation**: read one item, then the rest. -/
theorem lex_cons {c : ℕ} {s : List ℕ} (h : 32 < c) :
    lex (c :: s) = (lexOne (c :: s)).bind fun p => (lex p.2).map (p.1 :: ·) := by
  have h₁ : ¬ c < 32 := by omega
  have h₂ : c ≠ 32 := by omega
  rw [lex, List.length_cons, lexLoop_cons, if_neg h₁, if_neg h₂]
  cases h : lexOne (c :: s) with
  | none => rfl
  | some r =>
    have hr := (lexOne_suffix h).length_lt
    simp only [List.length_cons] at hr
    rw [Option.bind_some, Option.bind_some, lexLoop_of_le (s := r.2) (by omega), lex]
    cases lexLoop r.2.length r.2 <;> rfl

end Basic65816
