import Basic65816.Lexer.Literals
import Basic65816.Lexer.Spelling

/-!
# The builder's tokeniser implements the lexer

The Python tokeniser works on the line as typed, strips spaces between items and rejects strings
that are too long. On printable text it returns the words of the items `lex` finds in the
capitalised line.

## Main results

* `findToken_exact`, `findToken_prefix`: the table searches are `keyword`
* `lex_append_space`: spaces at the end of a line do not matter
* `builder_tokenise_lex`: a line
-/

namespace Basic65816

open Builder

variable {c : ℕ} {s rest : List ℕ}

/-- The codes 32 to 126. -/
def Printable (s : List ℕ) : Prop := ∀ c ∈ s, 32 ≤ c ∧ c ≤ 126

instance : DecidablePred Printable := fun s =>
  inferInstanceAs (Decidable (∀ c ∈ s, 32 ≤ c ∧ c ≤ 126))

/-! ## Upper and lower case -/

theorem lowerChar_upperChar (c : ℕ) : lowerChar (upperChar c) = lowerChar c := by
  unfold lowerChar upperChar
  split_ifs <;> omega

theorem upperChar_lowerChar (c : ℕ) : upperChar (lowerChar c) = upperChar c := by
  unfold lowerChar upperChar
  split_ifs <;> omega

theorem isAlphanumeric_eq (c : ℕ) : isAlphanumeric c = isNameChar (upperChar c) := by
  rw [Bool.eq_iff_iff]
  simp only [isAlphanumeric, isLetter, isDigit, isNameChar, Bool.or_eq_true, Bool.and_eq_true,
    decide_eq_true_eq]
  unfold upperChar
  split_ifs <;> omega

theorem isDigit_eq (c : ℕ) : isDigit c = isNumeral (upperChar c) := by
  rw [Bool.eq_iff_iff]
  simp only [isDigit, isNumeral, Bool.and_eq_true, decide_eq_true_eq]
  unfold upperChar
  split_ifs <;> omega

theorem isLetter_iff (c : ℕ) :
    isLetter c = true ↔ isNameChar (upperChar c) = true ∧ ¬ isNumeral (upperChar c) = true := by
  simp only [isLetter, isNumeral, isNameChar, Bool.or_eq_true, Bool.and_eq_true, decide_eq_true_eq]
  unfold upperChar
  split_ifs <;> omega

theorem name_lower_of_mem : ∀ t ∈ tokenList, t.name.map lowerChar = t.name := by decide

theorem nodup_names : (tokenList.map Token.name).Nodup := by decide

/-- A token is spelt in upper case exactly when it is spelt in lower case. -/
theorem map_upperChar_eq_iff {t : Token} (ht : t ∈ tokenList) :
    t.name.map upperChar = s.map upperChar ↔ t.name = s.map lowerChar := by
  have hlow := name_lower_of_mem t ht
  constructor
  · intro h
    have h' := congrArg (List.map lowerChar) h
    simpa [List.map_map, Function.comp_def, lowerChar_upperChar, hlow] using h'
  · intro h
    rw [h, List.map_map]
    exact List.map_congr_left fun c _ => upperChar_lowerChar c

theorem eq_of_name_eq {t u : Token} (ht : t ∈ tokenList) (hu : u ∈ tokenList)
    (h : t.name = u.name) : t = u :=
  List.inj_on_of_nodup_map nodup_names ht hu h

/-- The keyword that capitalised text spells. -/
theorem keyword_map_iff {t : ℕ} :
    keyword (s.map upperChar) = some t ↔ ∃ k ∈ tokenList, k.name = s.map lowerChar ∧ k.id = t := by
  constructor
  · intro h
    obtain ⟨k, hk, he, rfl⟩ := keyword_mem h
    exact ⟨k, hk, (map_upperChar_eq_iff hk).mp he, rfl⟩
  · rintro ⟨k, hk, he, rfl⟩
    cases hf : keyword (s.map upperChar) with
    | none =>
      simp only [keyword, Option.map_eq_none_iff, List.find?_eq_none] at hf
      exact absurd ((map_upperChar_eq_iff hk).mpr he) (by simpa using hf k hk)
    | some u =>
      obtain ⟨l, hl, he', rfl⟩ := keyword_mem hf
      rw [eq_of_name_eq hk hl (he.trans ((map_upperChar_eq_iff hl).mp he').symm)]

/-! ## The table searches -/

theorem mem_sortedTokens {t : Token} : t ∈ sortedTokens ↔ t ∈ tokenList :=
  List.mem_insertionSort _

/-- The exact search finds the keyword. -/
theorem findToken_exact (s : List ℕ) :
    (findToken s true).map Token.id = keyword (s.map upperChar) := by
  have hiff : ∀ t : Token, (t.name.isPrefixOf (s.map lowerChar) &&
      (!true || s.map lowerChar == t.name)) = true ↔ t.name = s.map lowerChar := fun t => by
    simp only [Bool.not_true, Bool.false_or, Bool.and_eq_true, beq_iff_eq, List.isPrefixOf_iff_prefix]
    exact ⟨fun h => h.2.symm, fun h => ⟨h ▸ List.prefix_refl _, h.symm⟩⟩
  cases hf : findToken s true with
  | none =>
    symm
    rw [Option.map_none, Option.eq_none_iff_forall_ne_some]
    intro t ht
    obtain ⟨k, hk, he, rfl⟩ := keyword_map_iff.mp ht
    simp only [findToken, List.find?_eq_none] at hf
    exact hf k (mem_sortedTokens.mpr hk) ((hiff k).mpr he)
  | some k =>
    simp only [findToken] at hf
    have hk := mem_sortedTokens.mp (List.mem_of_find?_eq_some hf)
    have hp := List.find?_some hf
    have he := (hiff k).mp hp
    exact (keyword_map_iff.mpr ⟨k, hk, he, rfl⟩).symm

/-- The punctuation tokens: a name is a word, or it has at most two characters. -/
theorem name_punctuation : ∀ t ∈ tokenList,
    isLetter (t.name.headD 0) = true ∨
      (t.name.length = 1 ∨ t.name.length = 2) ∧ ∀ c ∈ t.name, 32 < c ∧ c ≠ 34 ∧ ¬ isDigit c := by
  decide

/-- The longest-first search returns a token the text begins with, and no longer one. -/
theorem findToken_prefix_some {t : Token} (h : findToken s false = some t) :
    t ∈ tokenList ∧ t.name <+: s.map lowerChar ∧
      ∀ u ∈ tokenList, u.name <+: s.map lowerChar → u.name.length ≤ t.name.length := by
  simp only [findToken, Bool.not_false, Bool.true_or, Bool.and_true] at h
  have hp := List.find?_some h
  refine ⟨mem_sortedTokens.mp (List.mem_of_find?_eq_some h), List.isPrefixOf_iff_prefix.mp hp,
    fun u hu hpre => ?_⟩
  obtain ⟨-, before, after, hsplit, hbefore⟩ := List.find?_eq_some_iff_append.mp h
  have hsorted : sortedTokens.Pairwise fun a b => b.name.length ≤ a.name.length :=
    List.pairwise_insertionSort _ _
  have hmem := mem_sortedTokens.mpr hu
  rw [hsplit, List.mem_append, List.mem_cons] at hmem
  rcases hmem with hmem | rfl | hmem
  · simpa [List.isPrefixOf_iff_prefix.mpr hpre] using hbefore u hmem
  · exact Nat.le_refl _
  · rw [hsplit, List.pairwise_append] at hsorted
    exact (List.pairwise_cons.mp hsorted.2.1).1 u hmem

theorem findToken_prefix_none (h : findToken s false = none) :
    ∀ u ∈ tokenList, ¬ u.name <+: s.map lowerChar := by
  simp only [findToken, Bool.not_false, Bool.true_or, Bool.and_true, List.find?_eq_none,
    mem_sortedTokens] at h
  intro u hu hpre
  exact h u hu (List.isPrefixOf_iff_prefix.mpr hpre)

/-- No token begins with a digit or a quote. -/
theorem findToken_eq_none (hc : isDigit c = true ∨ c = 34) : findToken (c :: s) false = none := by
  rw [Option.eq_none_iff_forall_ne_some]
  intro t ht
  obtain ⟨hmem, ⟨r, hpre⟩, -⟩ := findToken_prefix_some ht
  have hlow : lowerChar c = c := by
    simp only [isDigit, Bool.and_eq_true, decide_eq_true_eq] at hc
    unfold lowerChar
    split_ifs <;> omega
  have hnot : ¬ isLetter c = true := by
    intro h
    simp only [isDigit, isLetter, Bool.and_eq_true, Bool.or_eq_true, decide_eq_true_eq] at hc h
    omega
  rw [List.map_cons, hlow] at hpre
  cases hn : t.name with
  | nil => exact absurd (name_punctuation t hmem) (by rw [hn]; decide)
  | cons d name =>
    rw [hn, List.cons_append, List.cons.injEq] at hpre
    have hp := name_punctuation t hmem
    rw [hn, hpre.1] at hp
    rcases hp with hp | ⟨-, hp⟩
    · exact hnot hp
    · have := hp c (by simp)
      rcases hc with hc | hc
      · exact this.2.2 hc
      · exact this.2.1 hc

theorem capitaliseFrom_cons (c : ℕ) (s : List ℕ) :
    capitaliseFrom false (c :: s) = upperChar c :: capitaliseFrom (c == 34) s := by
  by_cases h : c = 34
  · subst h; rfl
  · simp [capitaliseFrom, h, beq_eq_false_iff_ne.mpr h]

theorem capitalise_cons (hc : c ≠ 34) (s : List ℕ) :
    capitalise (c :: s) = upperChar c :: capitalise s := by
  rw [capitalise, capitaliseFrom_cons, beq_eq_false_iff_ne.mpr hc, capitalise]

theorem keyword_eq_none_of_prefix (h : ∀ u ∈ tokenList, u.name ≠ s.map lowerChar) :
    keyword (s.map upperChar) = none := by
  rw [Option.eq_none_iff_forall_ne_some]
  intro t ht
  obtain ⟨k, hk, he, -⟩ := keyword_map_iff.mp ht
  exact h k hk he

/-- **The longest-first search** on text that is not a word agrees with the punctuation lexer. -/
theorem findToken_punctuation (hl : ¬ isLetter c = true) (hc : c ≠ 34) :
    lexPunctuation (capitalise (c :: s)) = (findToken (c :: s) false).map fun t =>
      (.token t.id, capitalise ((c :: s).drop t.name.length)) := by
  have two : ∀ d, keyword [upperChar c, upperChar d] = keyword (List.map upperChar [c, d]) :=
    fun _ => rfl
  have one : keyword [upperChar c] = keyword (List.map upperChar [c]) := rfl
  rw [capitalise_cons hc]
  cases hf : findToken (c :: s) false with
  | none =>
    have hno := findToken_prefix_none hf
    have hone : keyword (List.map upperChar [c]) = none :=
      keyword_eq_none_of_prefix fun u hu h => hno u hu ⟨s.map lowerChar, by rw [h]; rfl⟩
    cases s with
    | nil => simp only [capitalise, capitaliseFrom_nil, lexPunctuation, one, hone, Option.map_none]
    | cons d s =>
      have htwo : keyword (List.map upperChar [c, d]) = none :=
        keyword_eq_none_of_prefix fun u hu h => hno u hu ⟨s.map lowerChar, by rw [h]; rfl⟩
      simp only [capitalise, capitaliseFrom_cons, lexPunctuation, one, hone, two, htwo,
        Option.map_none]
  | some t =>
    obtain ⟨hmem, ⟨r, hpre⟩, hmax⟩ := findToken_prefix_some hf
    rcases name_punctuation t hmem with hp | ⟨hp | hp, hq⟩
    · cases hn : t.name with
      | nil => rw [hn] at hp; simp [isLetter] at hp
      | cons d name =>
        rw [hn] at hp hpre
        simp only [List.cons_append, List.map_cons, List.cons.injEq] at hpre
        refine absurd ?_ hl
        rw [isLetter_iff, ← upperChar_lowerChar, ← isLetter_iff, ← hpre.1]
        exact hp
    · obtain ⟨x, hx⟩ := List.length_eq_one_iff.mp hp
      rw [hx] at hpre
      simp only [List.cons_append, List.map_cons, List.cons.injEq] at hpre
      have hone : keyword (List.map upperChar [c]) = some t.id :=
        keyword_map_iff.mpr ⟨t, hmem, by rw [hx, hpre.1]; rfl, rfl⟩
      cases s with
      | nil =>
        simp only [capitalise, capitaliseFrom_nil, lexPunctuation, one, hone, Option.map_some, hp,
          List.drop_one, List.tail_cons]
      | cons d s =>
        have htwo : keyword (List.map upperChar [c, d]) = none :=
          keyword_eq_none_of_prefix fun u hu h => by
            have hlen := hmax u hu ⟨s.map lowerChar, by rw [h]; rfl⟩
            rw [h, hp] at hlen
            simp at hlen
        simp only [capitalise, capitaliseFrom_cons, lexPunctuation, one, hone, two, htwo,
          Option.map_some, hp, List.drop_one, List.tail_cons]
    · obtain ⟨x, y, hxy⟩ := List.length_eq_two.mp hp
      rw [hxy] at hpre hq
      simp only [List.cons_append, List.map_cons, List.cons.injEq] at hpre
      cases s with
      | nil => simp at hpre
      | cons d s =>
        simp only [List.map_cons, List.cons.injEq] at hpre
        have hd : d ≠ 34 := by
          rintro rfl
          exact (hq y (by simp)).2.1 hpre.2.1
        have htwo : keyword (List.map upperChar [c, d]) = some t.id :=
          keyword_map_iff.mpr ⟨t, hmem, by rw [hxy, hpre.1, hpre.2.1]; rfl, rfl⟩
        simp only [capitalise_cons hd, lexPunctuation, two, htwo, Option.map_some, hp]
        rfl

/-! ## Identifiers, constants and strings -/

theorem upperChar_eq_iff {x : ℕ} (hx : x < 65) : upperChar c = x ↔ c = x := by
  unfold upperChar
  split_ifs <;> omega

/-- Scanning capitalised text for name characters. -/
theorem span_capitalise (s : List ℕ) :
    (capitalise s).takeWhile isNameChar = (s.takeWhile isAlphanumeric).map upperChar ∧
      (capitalise s).dropWhile isNameChar = capitalise (s.dropWhile isAlphanumeric) := by
  induction s with
  | nil => exact ⟨rfl, rfl⟩
  | cons c s ih =>
    by_cases hc : isAlphanumeric c
    · have hne : c ≠ 34 := by rintro rfl; simp [isAlphanumeric, isLetter, isDigit] at hc
      have hu : isNameChar (upperChar c) := by rwa [← isAlphanumeric_eq]
      rw [capitalise_cons hne, List.takeWhile_cons_of_pos hu, List.dropWhile_cons_of_pos hu,
        List.takeWhile_cons_of_pos hc, List.dropWhile_cons_of_pos hc, ih.1, ih.2]
      exact ⟨rfl, rfl⟩
    · have hu : ¬ isNameChar (upperChar c) := by rwa [← isAlphanumeric_eq]
      rw [List.takeWhile_cons_of_neg hc, List.dropWhile_cons_of_neg hc, capitalise,
        capitaliseFrom_cons, List.takeWhile_cons_of_neg hu, List.dropWhile_cons_of_neg hu]
      exact ⟨rfl, rfl⟩

theorem takeSuffix_capitalise {x : ℕ} (hx : x < 65) (hq : x ≠ 34) (s : List ℕ) :
    takeSuffix x (capitalise s) = ((takeSuffix x s).1, capitalise (takeSuffix x s).2) := by
  cases s with
  | nil => rfl
  | cons d s =>
    by_cases hd : d = x
    · subst hd
      have hu : upperChar d = d := (upperChar_eq_iff hx).mpr rfl
      simp [capitalise_cons hq, takeSuffix, hu]
    · have hu : upperChar d ≠ x := fun h => hd ((upperChar_eq_iff hx).mp h)
      simp [capitalise, capitaliseFrom_cons, takeSuffix, hu, hd]

theorem takeSuffix_suffix (x : ℕ) (s : List ℕ) : (takeSuffix x s).2 <:+ s :=
  ⟨_, takeSuffix_append x s⟩

/-- **Identifiers** agree. -/
theorem tokeniseIdent_lex (s : List ℕ) :
    lexName (capitalise s) =
      ((lexName (capitalise s)).1, capitalise (tokeniseIdent s).2) ∧
    (lexName (capitalise s)).1.words = (tokeniseIdent s).1 ∧ (tokeniseIdent s).2 <:+ s := by
  obtain ⟨htake, hdrop⟩ := span_capitalise s
  have hone : ∀ (b b' : Bool) (name : List ℕ), name.map upperChar ++ (if b then [36] else []) ++
      (if b' then [40] else []) = (name ++ (if b then [36] else []) ++
      (if b' then [40] else [])).map upperChar := by
    intro b b' name
    cases b <;> cases b' <;> simp <;> decide
  have hsuffix : (takeSuffix 40 (takeSuffix 36 (s.dropWhile isAlphanumeric)).2).2 <:+ s :=
    ((takeSuffix_suffix _ _).trans (takeSuffix_suffix _ _)).trans (List.dropWhile_suffix _)
  simp only [lexName, tokeniseIdent, htake, hdrop, takeSuffix_capitalise (x := 36) (by decide)
    (by decide), takeSuffix_capitalise (x := 40) (by decide) (by decide), hone, ← findToken_exact]
  cases findToken (s.takeWhile isAlphanumeric ++
    (if (takeSuffix 36 (s.dropWhile isAlphanumeric)).1 then [36] else []) ++
    (if (takeSuffix 40 (takeSuffix 36 (s.dropWhile isAlphanumeric)).2).1 then [40] else [])) true
    with
  | none => exact ⟨rfl, rfl, hsuffix⟩
  | some t => exact ⟨rfl, rfl, hsuffix⟩

/-- Scanning capitalised text for digits. -/
theorem digits_capitalise (s : List ℕ) :
    (capitalise s).takeWhile isNumeral = s.takeWhile isDigit ∧
      (capitalise s).dropWhile isNumeral = capitalise (s.dropWhile isDigit) := by
  induction s with
  | nil => exact ⟨rfl, rfl⟩
  | cons c s ih =>
    by_cases hc : isDigit c
    · have hne : c ≠ 34 := by rintro rfl; simp [isDigit] at hc
      have hu : isNumeral (upperChar c) := by rwa [← isDigit_eq]
      have hcc : upperChar c = c := by
        simp only [isDigit, Bool.and_eq_true, decide_eq_true_eq] at hc
        unfold upperChar
        split_ifs <;> omega
      rw [capitalise_cons hne, List.takeWhile_cons_of_pos hu, List.dropWhile_cons_of_pos hu,
        List.takeWhile_cons_of_pos hc, List.dropWhile_cons_of_pos hc, ih.1, ih.2, hcc]
      exact ⟨rfl, rfl⟩
    · have hu : ¬ isNumeral (upperChar c) := by rwa [← isDigit_eq]
      rw [List.takeWhile_cons_of_neg hc, List.dropWhile_cons_of_neg hc, capitalise,
        capitaliseFrom_cons, List.takeWhile_cons_of_neg hu, List.dropWhile_cons_of_neg hu]
      exact ⟨rfl, rfl⟩

/-- Scanning text inside quotes for the closing quote. -/
theorem quoted_capitalise (s : List ℕ) :
    (capitaliseFrom true s).takeWhile (· != 34) = s.takeWhile (· != 34) ∧
      (capitaliseFrom true s).dropWhile (· != 34) =
        match s.dropWhile (· != 34) with
        | [] => []
        | c :: rest => c :: capitalise rest := by
  induction s with
  | nil => exact ⟨rfl, rfl⟩
  | cons c s ih =>
    by_cases hc : c = 34
    · subst hc
      exact ⟨rfl, rfl⟩
    · simp only [capitaliseFrom, hc, if_false, if_true]
      have hb : (c != 34) = true := by simpa using hc
      simp only [List.takeWhile_cons, List.dropWhile_cons, hb, if_true, ih.1, ih.2, and_self]

/-- A string that is not too long for the builder. -/
def Item.Short : Item → Prop
  | .string chars => chars.length < 252
  | _ => True

instance : DecidablePred Item.Short
  | .string chars => inferInstanceAs (Decidable (chars.length < 252))
  | .token _ | .ident .. | .const _ => .isTrue trivial

/-- The item that `tokeniseOne` reads. It rejects strings that are too long. -/
def OneSpec (s : List ℕ) : Option (List ℕ × List ℕ) → Prop
  | some (ws, rest) => rest <:+ s ∧
      ∃ item, lexOne (capitalise s) = some (item, capitalise rest) ∧ item.words = ws ∧ item.Short
  | none => lexOne (capitalise s) = none ∨
      ∃ item rest, lexOne (capitalise s) = some (item, rest) ∧ ¬ item.Short

theorem oneSpec_string (s : List ℕ) : OneSpec (34 :: s) (tokeniseString s) := by
  obtain ⟨htake, hdrop⟩ := quoted_capitalise s
  have hlex : lexOne (capitalise (34 :: s)) = lexString (capitaliseFrom true s) := rfl
  have hsuf := List.dropWhile_suffix (· != 34) (l := s)
  unfold OneSpec tokeniseString
  rw [hlex, lexString, htake, hdrop]
  cases hd : s.dropWhile (· != 34) with
  | nil => exact .inl rfl
  | cons q rest =>
    dsimp only
    split_ifs with hl
    · rw [hd] at hsuf
      exact ⟨((List.suffix_cons _ _).trans hsuf).trans (List.suffix_cons _ _), _, rfl, rfl, hl⟩
    · exact .inr ⟨_, _, rfl, hl⟩

/-- **One item**: `tokeniseOne` reads what `lexOne` reads in the capitalised text. -/
theorem tokeniseOne_lex (c : ℕ) (s : List ℕ) : OneSpec (c :: s) (tokeniseOne (c :: s)) := by
  have hhead : ((c :: s).head?.map isLetter).getD false = isLetter c := rfl
  have hhead' : ((c :: s).head?.map isDigit).getD false = isDigit c := rfl
  unfold tokeniseOne
  rw [hhead, hhead']
  by_cases hq : c = 34
  · subst hq
    rw [if_neg (by decide), findToken_eq_none (.inr rfl)]
    exact oneSpec_string s
  have hlex := lexOne.eq_2 (upperChar c) (capitalise s)
  have hq' : upperChar c ≠ 34 := fun h => hq ((upperChar_eq_iff (by decide)).mp h)
  rw [if_neg hq', ← capitalise_cons hq] at hlex
  by_cases hl : isLetter c = true
  · obtain ⟨hn, hd⟩ := (isLetter_iff c).mp hl
    obtain ⟨hrest, hwords, hsuf⟩ := tokeniseIdent_lex (c :: s)
    rw [if_neg hd, if_pos hn] at hlex
    rw [if_pos hl]
    refine ⟨hsuf, _, hlex.trans (congrArg some hrest), hwords, ?_⟩
    rw [lexName_eq (s := capitalise (c :: s)) rfl rfl, nameItem]
    split <;> trivial
  rw [if_neg hl]
  by_cases hd : isDigit c = true
  · obtain ⟨htake, hdrop⟩ := digits_capitalise (c :: s)
    rw [if_pos (isDigit_eq c ▸ hd), lexConst, htake, hdrop] at hlex
    rw [findToken_eq_none (.inl hd), if_pos hd]
    dsimp only at hlex ⊢
    by_cases hv : intOf ((c :: s).takeWhile isDigit) < 0x8000000
    · rw [if_pos hv] at hlex
      rw [if_pos hv]
      exact ⟨List.dropWhile_suffix _, _, hlex, rfl, trivial⟩
    · rw [if_neg hv] at hlex
      rw [if_neg hv]
      exact .inl hlex
  · have hn : ¬ isNameChar (upperChar c) = true := fun h =>
      hl ((isLetter_iff c).mpr ⟨h, fun h' => hd ((isDigit_eq c).trans h')⟩)
    rw [if_neg (isDigit_eq c ▸ hd), if_neg hn, findToken_punctuation hl hq] at hlex
    cases hf : findToken (c :: s) false with
    | some t =>
      rw [hf] at hlex
      exact ⟨List.drop_suffix _ _, _, hlex, rfl, trivial⟩
    | none =>
      rw [hf] at hlex
      simp only [if_neg hd]
      split
      · rename_i h
        exact absurd (List.cons.inj h).1 hq
      · exact .inl hlex

/-! ## Spaces at the end of a line -/

theorem span_append {p : ℕ → Bool} {x : ℕ} (hx : p x = false) (s : List ℕ) :
    (s ++ [x]).takeWhile p = s.takeWhile p ∧ (s ++ [x]).dropWhile p = s.dropWhile p ++ [x] := by
  induction s with
  | nil => simp [hx]
  | cons c s ih =>
    by_cases hc : p c = true
    · simp only [List.cons_append, List.takeWhile_cons, List.dropWhile_cons, hc, if_true, ih, and_self]
    · simp [hc]

theorem takeSuffix_append_space {x : ℕ} (hx : x ≠ 32) (s : List ℕ) :
    takeSuffix x (s ++ [32]) = ((takeSuffix x s).1, (takeSuffix x s).2 ++ [32]) := by
  cases s with
  | nil => simp [takeSuffix, hx.symm]
  | cons d s => by_cases h : d = x <;> simp [takeSuffix, h]

theorem name_ne_space_of_mem : ∀ t ∈ tokenList, 32 ∉ t.name.map upperChar := by decide

theorem keyword_eq_none_of_space_mem (h : 32 ∈ s) : keyword s = none := by
  rw [Option.eq_none_iff_forall_ne_some]
  intro t ht
  obtain ⟨k, hk, rfl, -⟩ := keyword_mem ht
  exact name_ne_space_of_mem k hk h

theorem lexName_append_space (s : List ℕ) :
    lexName (s ++ [32]) = ((lexName s).1, (lexName s).2 ++ [32]) := by
  obtain ⟨htake, hdrop⟩ := span_append (p := isNameChar) (x := 32) (by decide) s
  simp only [lexName, htake, hdrop, takeSuffix_append_space (x := 36) (by decide),
    takeSuffix_append_space (x := 40) (by decide)]
  split <;> rfl

theorem lexPunctuation_append_space (c : ℕ) (s : List ℕ) :
    lexPunctuation (c :: s ++ [32]) =
      (lexPunctuation (c :: s)).map fun p => (p.1, p.2 ++ [32]) := by
  cases s with
  | nil =>
    simp only [List.cons_append, List.nil_append, lexPunctuation,
      keyword_eq_none_of_space_mem (s := [c, 32]) (by simp), Option.map_map]
    rfl
  | cons d s =>
    simp only [List.cons_append, lexPunctuation]
    cases keyword [c, d] with
    | none => simp only [Option.map_map]; rfl
    | some t => rfl

theorem lexString_append_space (s : List ℕ) :
    lexString (s ++ [32]) = (lexString s).map fun p => (p.1, p.2 ++ [32]) := by
  cases h : lexString s with
  | none =>
    have hq := lexString_eq_none.mp h
    exact lexString_eq_none.mpr (by simpa using hq)
  | some p =>
    obtain ⟨chars, hi, rfl, hq⟩ := lexString_eq_some (i := p.1) h
    rw [List.append_assoc, List.cons_append, lexString_append hq, Option.map_some, hi]

/-- A space at the end stays behind the first item. -/
theorem lexOne_append_space (c : ℕ) (s : List ℕ) :
    lexOne (c :: s ++ [32]) = (lexOne (c :: s)).map fun p => (p.1, p.2 ++ [32]) := by
  have hconst : lexConst (c :: s ++ [32]) =
      (lexConst (c :: s)).map fun p => (p.1, p.2 ++ [32]) := by
    obtain ⟨htake, hdrop⟩ := span_append (p := isNumeral) (x := 32) (by decide) (c :: s)
    simp only [lexConst, htake, hdrop]
    split <;> rfl
  have hname := lexName_append_space (c :: s)
  have hpunct := lexPunctuation_append_space c s
  simp only [List.cons_append] at hconst hname hpunct
  simp only [List.cons_append, lexOne]
  split_ifs
  · exact lexString_append_space s
  · exact hconst
  · exact congrArg some hname
  · exact hpunct

/-- **A space at the end of a line does not matter.** -/
theorem lex_append_space (s : List ℕ) : lex (s ++ [32]) = lex s := by
  match s with
  | [] => rfl
  | c :: s =>
    rcases Nat.lt_trichotomy c 32 with hc | rfl | hc
    · rw [List.cons_append, lex_control hc, lex_control hc]
    · rw [List.cons_append, lex_space, lex_space, lex_append_space s]
    · have hone := lexOne_append_space c s
      rw [List.cons_append] at hone
      rw [List.cons_append, lex_cons hc, lex_cons hc, hone]
      cases h : lexOne (c :: s) with
      | none => rfl
      | some p =>
        have hlt := (lexOne_suffix h).length_lt
        simp only [Option.map_some, Option.bind_some]
        rw [lex_append_space p.2]
termination_by s.length
decreasing_by all_goals (simp only [List.length_cons] at *; omega)

theorem capitaliseFrom_append_space (s : List ℕ) :
    ∀ q, capitaliseFrom q (s ++ [32]) = capitaliseFrom q s ++ [32] := by
  induction s with
  | nil => intro q; cases q <;> rfl
  | cons c s ih => intro q; simp only [List.cons_append, capitaliseFrom, ih]

/-! ## Clean lines -/

/-- Not a control character, and no white space but the space itself. -/
def Plain (c : ℕ) : Prop := 32 ≤ c ∧ c ≠ 0x85 ∧ c ≠ 0xA0

instance : DecidablePred Plain := fun c =>
  inferInstanceAs (Decidable (32 ≤ c ∧ c ≠ 0x85 ∧ c ≠ 0xA0))

theorem plain_upperChar (c : ℕ) : Plain (upperChar c) ↔ Plain c := by
  unfold Plain upperChar
  split_ifs <;> omega

/-- Control characters and white space other than the space stand in closed quotes only; `q` says
whether the text begins inside quotes. -/
def CleanFrom : Bool → List ℕ → Prop
  | _, [] => True
  | q, c :: s =>
    let q' := if c = 34 then !q else q
    (Plain c ∨ q' = true ∧ 34 ∈ s) ∧ CleanFrom q' s

/-- Control characters and white space other than the space stand in closed quotes only. -/
def Clean (s : List ℕ) : Prop := CleanFrom false s

theorem cleanFrom_of_forall (hs : ∀ c ∈ s, Plain c) : ∀ q, CleanFrom q s := by
  induction s with
  | nil => exact fun _ => trivial
  | cons c s ih => exact fun q => ⟨.inl (hs c (by simp)), ih (fun d hd => hs d (by simp [hd])) _⟩

theorem plain_of_printable (hc : 32 ≤ c ∧ c ≤ 126) : Plain c := ⟨hc.1, by omega, by omega⟩

theorem Printable.clean (hs : Printable s) : Clean s :=
  cleanFrom_of_forall (fun c hc => plain_of_printable (hs c hc)) _

theorem CleanFrom.of_append {p : List ℕ} (hp : 34 ∉ p) {q : Bool} (h : CleanFrom q (p ++ s)) :
    CleanFrom q s := by
  induction p with
  | nil => exact h
  | cons c p ih =>
    simp only [List.mem_cons, not_or] at hp
    obtain ⟨hc, hp⟩ := hp
    have h := h.2
    rw [if_neg (Ne.symm hc)] at h
    exact ih hp h

theorem quote_mem_capitaliseFrom (s : List ℕ) : ∀ q, 34 ∈ capitaliseFrom q s ↔ 34 ∈ s := by
  induction s with
  | nil => simp
  | cons c s ih =>
    intro q
    have hu : 34 = upperChar c ↔ 34 = c := by
      rw [eq_comm, upperChar_eq_iff (by decide), eq_comm]
    simp only [capitaliseFrom, List.mem_cons, ih]
    split_ifs <;> simp [hu]

theorem cleanFrom_capitalise (s : List ℕ) : ∀ q, CleanFrom q (capitaliseFrom q s) ↔ CleanFrom q s := by
  induction s with
  | nil => simp [CleanFrom]
  | cons c s ih =>
    intro q
    have hu : upperChar c = 34 ↔ c = 34 := upperChar_eq_iff (by decide)
    simp only [capitaliseFrom, CleanFrom]
    by_cases hc : c = 34
    · subst hc
      have h34 : upperChar 34 = 34 := by decide
      simp [h34, ih, quote_mem_capitaliseFrom]
    · cases q <;> simp [hc, hu, plain_upperChar, ih, quote_mem_capitaliseFrom]

/-- What follows an item is clean. -/
theorem CleanFrom.lexOne {i : Item} (hs : CleanFrom false s) (h : lexOne s = some (i, rest)) :
    CleanFrom false rest := by
  obtain ⟨k, hk⟩ := lexOne_text h
  by_cases hi : ∃ chars, i = .string chars
  · obtain ⟨chars, rfl⟩ := hi
    cases s with
    | nil => cases h
    | cons c s =>
      simp only [Basic65816.lexOne] at h
      split_ifs at h with h₁ h₂ h₃
      · obtain ⟨_, -, rfl, hq⟩ := lexString_eq_some h
        have hs := hs.2
        rw [if_pos h₁] at hs
        have hs := (hs.of_append hq).2
        rwa [if_pos rfl] at hs
      · simp only [lexConst] at h
        split_ifs at h
        cases h
      · rw [lexName_eq (s := c :: s) rfl rfl, nameItem] at h
        split at h <;> cases h
      · have hv := lexPunctuation_text h
        simp only [Item.text, List.cons_append, List.cons.injEq] at hv
        exact absurd hv.1 h₁
  · have hv := lexOne_valid h fun chars he => absurd ⟨chars, he⟩ hi
    have hq := quote_notMem_text hv fun chars he => hi ⟨chars, he⟩
    rw [hk, ← List.append_assoc] at hs
    exact hs.of_append (by simp [hq])

theorem isSpace_eq (h : isSpace c = true) (hc : Plain c) : c = 32 := by
  obtain ⟨hlow, hnext, hhard⟩ := hc
  simp only [isSpace, Bool.or_eq_true, Bool.and_eq_true, beq_iff_eq, decide_eq_true_eq] at h
  omega

theorem CleanFrom.cons_space (h : CleanFrom false (c :: s)) (hc : isSpace c = true) :
    c = 32 ∧ CleanFrom false s := by
  have hne : c ≠ 34 := by
    rintro rfl
    exact absurd hc (by decide)
  simp only [CleanFrom, if_neg hne, Bool.false_eq_true, false_and, or_false] at h
  exact ⟨isSpace_eq hc h.1, h.2⟩

theorem CleanFrom.concat_space (hc : isSpace c = true) :
    ∀ {q}, CleanFrom q (s ++ [c]) → c = 32 ∧ CleanFrom q s := by
  induction s with
  | nil =>
    intro q h
    refine ⟨isSpace_eq hc ?_, trivial⟩
    simpa using h.1
  | cons d s ih =>
    intro q h
    obtain ⟨hc, hs⟩ := ih h.2
    subst hc
    exact ⟨rfl, by simpa using h.1, hs⟩

/-- **Stripping** keeps a line clean and does not change its items. -/
theorem Clean.strip (hs : Clean s) :
    Clean (strip s) ∧ lex (capitalise (Builder.strip s)) = lex (capitalise s) := by
  have hleft : ∀ s : List ℕ, Clean s → Clean (s.dropWhile isSpace) ∧
      lex (capitalise (s.dropWhile isSpace)) = lex (capitalise s) := by
    intro s hs
    induction s with
    | nil => exact ⟨hs, rfl⟩
    | cons c s ih =>
      by_cases hc : isSpace c = true
      · obtain ⟨rfl, hrest⟩ := CleanFrom.cons_space hs hc
        have ih := ih hrest
        rw [List.dropWhile_cons_of_pos hc, capitalise_cons (by decide)]
        exact ⟨ih.1, ih.2.trans (lex_space _).symm⟩
      · rw [List.dropWhile_cons_of_neg hc]
        exact ⟨hs, rfl⟩
  have hright : ∀ s : List ℕ, Clean s → Clean (s.rdropWhile isSpace) ∧
      lex (capitalise (s.rdropWhile isSpace)) = lex (capitalise s) := by
    intro s hs
    induction s using List.reverseRecOn with
    | nil => exact ⟨hs, rfl⟩
    | append_singleton s c ih =>
      by_cases hc : isSpace c = true
      · obtain ⟨rfl, hrest⟩ := CleanFrom.concat_space hc hs
        have happ : capitalise (s ++ [32]) = capitalise s ++ [32] := capitaliseFrom_append_space s _
        rw [List.rdropWhile_concat_pos _ _ _ hc, happ, lex_append_space]
        exact ih hrest
      · rw [List.rdropWhile_concat_neg _ _ _ hc]
        exact ⟨hs, rfl⟩
  obtain ⟨h₁, h₂⟩ := hleft s hs
  obtain ⟨h₃, h₄⟩ := hright _ h₁
  exact ⟨h₃, h₄.trans h₂⟩

theorem strip_isInfix (s : List ℕ) : strip s <:+: s :=
  (List.rdropWhile_prefix _ _).isInfix.trans (List.dropWhile_suffix _).isInfix

theorem isSpace_head_strip {r : List ℕ} (h : strip s = c :: r) : isSpace c = false := by
  have hpre : c :: r <+: s.dropWhile isSpace := h ▸ List.rdropWhile_prefix _ _
  obtain ⟨t, ht⟩ := hpre
  have hhead := List.head_dropWhile_not isSpace (l := s) (by simp [← ht])
  simpa [← ht] using hhead

/-! ## The line -/

/-- The words of the items of a line, when no string is too long. -/
def shortWords (items : List Item) : Option (List ℕ) :=
  if ∀ i ∈ items, i.Short then some (wordsOf items) else none

theorem shortWords_cons (i : Item) (items : List Item) :
    shortWords (i :: items) = if i.Short then (shortWords items).map (i.words ++ ·) else none := by
  simp only [shortWords, List.forall_mem_cons]
  by_cases hi : i.Short <;> by_cases his : ∀ j ∈ items, j.Short <;> simp [hi, his]

theorem tokeniseLoop_lex (n : ℕ) (hn : s.length ≤ n) (hs : Clean s)
    (hhead : ∀ c r, s = c :: r → isSpace c = false) :
    tokeniseLoop n s = (lex (capitalise s)).bind shortWords := by
  induction n generalizing s with
  | zero =>
    obtain rfl := List.eq_nil_of_length_eq_zero (Nat.le_zero.mp hn)
    rfl
  | succ n ih =>
    cases s with
    | nil => rfl
    | cons c s =>
      have hc : 32 < upperChar c := by
        have h₁ : 32 ≤ c := by
          by_cases hq : c = 34
          · omega
          · have hplain : Plain c := by simpa [Clean, CleanFrom, hq] using hs.1
            exact hplain.1
        have h₂ : c ≠ 32 := by
          rintro rfl
          exact absurd (hhead 32 s rfl) (by decide)
        unfold upperChar
        split_ifs <;> omega
      have hlex : lex (capitalise (c :: s)) = (lexOne (capitalise (c :: s))).bind fun p =>
          (lex p.2).map (p.1 :: ·) := by
        rw [capitalise, capitaliseFrom_cons, lex_cons hc]
      have hone := tokeniseOne_lex c s
      rw [tokeniseLoop, if_neg (by simp), hlex]
      cases ht : tokeniseOne (c :: s) with
      | none =>
        simp only [ht, OneSpec] at hone
        simp only [Option.bind_eq_bind, Option.bind_none]
        rcases hone with hone | ⟨item, rest, hone, hlong⟩
        · simp [hone]
        · simp only [hone, Option.bind_some]
          cases lex rest <;> simp [shortWords_cons, hlong]
      | some p =>
        obtain ⟨ws, rest⟩ := p
        simp only [ht, OneSpec] at hone
        obtain ⟨hsuf, item, hitem, rfl, hshort⟩ := hone
        have hlt := (lexOne_suffix hitem).length_lt
        simp only [capitalise, length_capitaliseFrom, List.length_cons] at hlt hn
        have hcap : CleanFrom false (capitalise (c :: s)) := (cleanFrom_capitalise _ _).mpr hs
        have hclean : Clean rest := (cleanFrom_capitalise rest false).mp (hcap.lexOne hitem)
        have hstrip := strip_isInfix rest
        have ih := ih (s := strip rest) (by have := hstrip.length_le; omega) hclean.strip.1
          fun c r h => isSpace_head_strip h
        rw [hclean.strip.2] at ih
        simp only [Option.bind_eq_bind, Option.bind_some, ih, hitem]
        cases lex (capitalise rest) with
        | none => rfl
        | some items =>
          simp only [Option.bind_some, Option.map_some, shortWords_cons, if_pos hshort]
          cases shortWords items <;> rfl

/-- **The builder's tokeniser implements the lexer** on clean lines. -/
theorem builder_tokenise_lex (hs : Clean s) :
    Builder.tokenise s = (lex (capitalise s)).bind shortWords := by
  have h := tokeniseLoop_lex s.length (strip_isInfix s).length_le hs.strip.1
    fun c r h => isSpace_head_strip h
  rwa [hs.strip.2] at h

/-- **The items of a line of bytes are valid** when the strings are short. -/
theorem lex_valid {items : List Item} (n : ℕ) (hn : s.length ≤ n) (h : lex s = some items)
    (hs : ∀ c ∈ s, c < 256) (hshort : ∀ i ∈ items, i.Short) : ∀ i ∈ items, i.Valid := by
  induction n generalizing s items with
  | zero =>
    obtain rfl := List.eq_nil_of_length_eq_zero (Nat.le_zero.mp hn)
    cases h
    simp
  | succ n ih =>
    cases s with
    | nil => cases h; simp
    | cons c s =>
      rw [List.length_cons, Nat.add_le_add_iff_right] at hn
      rcases Nat.lt_trichotomy c 32 with hc | rfl | hc
      · rw [lex_control hc] at h
        cases h
        simp
      · rw [lex_space] at h
        exact ih hn h (fun c hc => hs c (by simp [hc])) hshort
      · rw [lex_cons hc, Option.bind_eq_some_iff] at h
        obtain ⟨⟨i, rest⟩, hone, h⟩ := h
        obtain ⟨items, hitems, rfl⟩ := Option.map_eq_some_iff.mp h
        dsimp only at hitems hshort ⊢
        have hlt : rest.length < s.length + 1 := (lexOne_suffix hone).length_lt
        obtain ⟨k, hk⟩ := lexOne_text hone
        rw [hk] at hs
        have htail := ih (by omega) hitems (fun c hc => hs c (by simp [hc]))
          fun i hi => hshort i (by simp [hi])
        rw [List.forall_mem_cons]
        refine ⟨lexOne_valid hone ?_, htail⟩
        rintro chars rfl
        have hlong : (Item.string chars).Short := hshort _ (by simp)
        exact ⟨hlong, fun c hc => hs c (by simp [Item.text, hc])⟩

theorem builder_tokenise_some (hs : Clean s) {ws : List ℕ} (h : Builder.tokenise s = some ws) :
    (lex (capitalise s)).map wordsOf = some ws := by
  rw [builder_tokenise_lex hs, Option.bind_eq_some_iff] at h
  obtain ⟨items, hitems, hw⟩ := h
  unfold shortWords at hw
  split_ifs at hw
  rw [hitems]
  exact hw

/-- A line with too long a string has more words than a line can hold. -/
theorem builder_tokenise_none (hs : Clean s) {ws : List ℕ} (h : Builder.tokenise s = none)
    (hw : (lex (capitalise s)).map wordsOf = some ws) : 126 < ws.length := by
  obtain ⟨items, hitems, rfl⟩ := Option.map_eq_some_iff.mp hw
  rw [builder_tokenise_lex hs, hitems, Option.bind_some, shortWords] at h
  split_ifs at h with hshort
  simp only [not_forall] at hshort
  obtain ⟨i, hi, hlong⟩ := hshort
  have hlen : 126 < i.words.length := by
    cases i with
    | string chars =>
      have hlong : ¬ chars.length < 252 := hlong
      simp only [Item.words, stringWords, List.length_cons, length_byteWords, length_padEven]
      omega
    | _ => exact absurd trivial hlong
  obtain ⟨before, after, rfl⟩ := List.append_of_mem hi
  simp only [wordsOf_append, wordsOf_cons, List.length_append]
  omega

end Basic65816
