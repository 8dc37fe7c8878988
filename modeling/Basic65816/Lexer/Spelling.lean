import Basic65816.Lexer.Item

/-!
# Spelling items

Programs are printed by writing out one item after the other, some of them with spaces around. The
printed text is read back item by item, and the reader takes the longest item it can. So it finds
the printed items exactly when no item runs on into the text behind it.

## Main definitions

* `Item.text`: the text of an item, in capitals
* `Item.Valid`: the items a tokeniser can produce
* `Spelt`, `spell`: items with the spaces around them, and their text
* `Apart`, `Separated`: an item, and all of them, end where the printer ended them

## Main results

* `lexOne_text`: what is read off a text is written there
* `lex_spell_iff`: the items are read back exactly when they are separated
* `apart_name_iff`, `apart_const_iff`, `apart_string`: when an item ends
-/

namespace Basic65816

variable {c n v : ℕ} {s rest w : List ℕ} {i : Item}

/-! ## Decimal numbers -/

/-- Python's `str` of a natural number. -/
def decimal (n : ℕ) : List ℕ := (Nat.toDigits 10 n).map Char.toNat

theorem decimal_of_lt (h : n < 10) : decimal n = [48 + n] := by
  have hc : ∀ n < 10, n.digitChar.toNat = 48 + n := by decide
  rw [decimal, Nat.toDigits_of_lt_base h, List.map_singleton, hc n h]

theorem decimal_of_le (h : 10 ≤ n) : decimal n = decimal (n / 10) ++ [48 + n % 10] := by
  have hm : n % 10 < 10 := Nat.mod_lt _ (by decide)
  have hd : (Nat.toDigits 10 (n % 10)).map Char.toNat = [48 + n % 10] := decimal_of_lt hm
  rw [Nat.toDigits_of_lt_base hm] at hd
  rw [decimal, Nat.toDigits_of_base_le (by decide) h, List.map_append, hd, decimal]

theorem decimal_concat (v : ℕ) {e : ℕ} (he : e < 10) (hv : v ≠ 0) :
    decimal (10 * v + e) = decimal v ++ [48 + e] := by
  have h₁ : (10 * v + e) / 10 = v := by omega
  have h₂ : (10 * v + e) % 10 = e := by omega
  rw [decimal_of_le (by omega), h₁, h₂]

theorem intOf_concat (ds : List ℕ) (d : ℕ) :
    Builder.intOf (ds ++ [d]) = 10 * Builder.intOf ds + (d - 48) := by
  simp [Builder.intOf]

/-- The number of a decimal, and its digits. -/
theorem decimal_spec (n : ℕ) :
    Builder.intOf (decimal n) = n ∧ decimal n ≠ [] ∧ ∀ c ∈ decimal n, isNumeral c := by
  induction n using Nat.strongRecOn with
  | ind n ih =>
    have hnum : ∀ e < 10, isNumeral (48 + e) := by decide
    rcases Nat.lt_or_ge n 10 with h | h
    · rw [decimal_of_lt h]
      refine ⟨by simp [Builder.intOf], by simp, fun c hc => ?_⟩
      rw [List.mem_singleton.mp hc]
      exact hnum n h
    · obtain ⟨hval, -, hdig⟩ := ih (n / 10) (by omega)
      rw [decimal_of_le h]
      refine ⟨by rw [intOf_concat, hval]; omega, by simp, fun c hc => ?_⟩
      rcases List.mem_append.mp hc with hc | hc
      · exact hdig c hc
      · rw [List.mem_singleton.mp hc]
        exact hnum _ (Nat.mod_lt _ (by decide))

theorem isNumeral_iff : isNumeral c = true ↔ 48 ≤ c ∧ c < 58 := by
  simp [isNumeral]

/-- Digits are the decimal of their number behind leading zeros. -/
theorem digits_eq (hs : s ≠ []) (hd : ∀ c ∈ s, isNumeral c) :
    ∃ k, s = List.replicate k 48 ++ decimal (Builder.intOf s) := by
  induction s using List.reverseRecOn with
  | nil => exact absurd rfl hs
  | append_singleton s d ih =>
    have hd' := isNumeral_iff.mp (hd d (by simp))
    obtain ⟨e, rfl⟩ : ∃ e, d = 48 + e := ⟨d - 48, by omega⟩
    rw [intOf_concat, Nat.add_sub_cancel_left]
    by_cases hnil : s = []
    · subst hnil
      exact ⟨0, by simp [Builder.intOf, decimal_of_lt (show e < 10 by omega)]⟩
    · obtain ⟨k, hk⟩ := ih hnil fun c hc => hd c (by simp [hc])
      by_cases hv : Builder.intOf s = 0
      · -- the digits so far are zeros
        rw [hv, decimal_of_lt (by decide)] at hk
        refine ⟨k + 1, ?_⟩
        rw [hv, Nat.mul_zero, Nat.zero_add, decimal_of_lt (by omega), List.replicate_succ',
          ← show s = List.replicate k 48 ++ [48] from hk]
      · exact ⟨k, by rw [decimal_concat _ (by omega) hv, ← List.append_assoc, ← hk]⟩

/-! ## The text of an item -/

/-- The text of the token `t`. -/
def tokenName (t : ℕ) : List ℕ :=
  ((tokenList.find? fun k => k.id == t).map fun k => k.name.map upperChar).getD []

/-- The suffixes of an identifier. -/
def suffixes (isString isArray : Bool) : List ℕ :=
  (if isString then [36] else []) ++ if isArray then [40] else []

/-- The text of an item, in capitals. -/
def Item.text : Item → List ℕ
  | .token t => tokenName t
  | .ident name isString isArray => name ++ suffixes isString isArray
  | .const value => decimal value
  | .string chars => 34 :: (chars ++ [34])

theorem nodup_ids : (tokenList.map Token.id).Nodup := by decide

theorem tokenName_id {k : Token} (hk : k ∈ tokenList) : tokenName k.id = k.name.map upperChar := by
  cases hf : tokenList.find? fun j => j.id == k.id with
  | none => exact absurd (List.find?_eq_none.mp hf k hk) (by simp)
  | some j =>
    have hj : j.id = k.id := by simpa using List.find?_some hf
    have he := List.inj_on_of_nodup_map nodup_ids (List.mem_of_find?_eq_some hf) hk hj
    rw [tokenName, hf, he]
    rfl

theorem keyword_tokenName {t : ℕ} (h : keyword s = some t) : tokenName t = s := by
  obtain ⟨k, hk, rfl, rfl⟩ := keyword_mem h
  exact tokenName_id hk

/-- A name: letters and digits, a letter first. -/
structure Named (w : List ℕ) : Prop where
  chars : ∀ c ∈ w, isNameChar c
  head : ∃ c r, w = c :: r ∧ ¬ isNumeral c = true

/-- The items a tokeniser can produce. -/
def Item.Valid : Item → Prop
  | .token t => ∃ k ∈ tokenList, k.id = t
  | .ident name isString isArray =>
    Named name ∧ keyword (name ++ suffixes isString isArray) = none
  | .const value => value < 0x8000000
  | .string chars => 34 ∉ chars ∧ chars.length < 252 ∧ ∀ c ∈ chars, c < 256

/-! ## What is read is written -/

/-- The item that a name with its suffixes spells. -/
def nameItem (w : List ℕ) (isString isArray : Bool) : Item :=
  match keyword (w ++ suffixes isString isArray) with
  | some t => .token t
  | none => .ident w isString isArray

theorem nameItem_text (w : List ℕ) (isString isArray : Bool) :
    (nameItem w isString isArray).text = w ++ suffixes isString isArray := by
  unfold nameItem
  split
  · rename_i t h
    exact keyword_tokenName h
  · rfl

/-- What `lexName` reads. -/
theorem lexName_eq {dollar paren : Bool} {s₁ s₂ : List ℕ}
    (h₁ : Builder.takeSuffix 36 (s.dropWhile isNameChar) = (dollar, s₁))
    (h₂ : Builder.takeSuffix 40 s₁ = (paren, s₂)) :
    lexName s = (nameItem (s.takeWhile isNameChar) dollar paren, s₂) := by
  simp only [lexName, h₁, h₂, nameItem, suffixes, ← List.append_assoc]
  cases keyword (s.takeWhile isNameChar ++ (if dollar = true then [36] else []) ++
    if paren = true then [40] else []) <;> rfl

theorem lexName_text (s : List ℕ) : s = (lexName s).1.text ++ (lexName s).2 := by
  have h := lexName_append s
  dsimp only at h
  rw [lexName_eq (s := s) rfl rfl, nameItem_text, suffixes, ← List.append_assoc]
  exact h.symm

theorem lexPunctuation_text (h : lexPunctuation s = some (i, rest)) : s = i.text ++ rest := by
  match s, h with
  | [a], h =>
    simp only [lexPunctuation, Option.map_eq_some_iff, Prod.mk.injEq] at h
    obtain ⟨t, ht, rfl, rfl⟩ := h
    exact (congrArg (· ++ []) (keyword_tokenName ht)).symm
  | a :: b :: s, h =>
    simp only [lexPunctuation] at h
    split at h
    · rename_i t ht
      simp only [Option.some.injEq, Prod.mk.injEq] at h
      obtain ⟨rfl, rfl⟩ := h
      exact (congrArg (· ++ s) (keyword_tokenName ht)).symm
    · simp only [Option.map_eq_some_iff, Prod.mk.injEq] at h
      obtain ⟨t, ht, rfl, rfl⟩ := h
      exact (congrArg (· ++ b :: s) (keyword_tokenName ht)).symm

theorem lexConst_text (hc : isNumeral c) (h : lexConst (c :: s) = some (i, rest)) :
    ∃ k, c :: s = List.replicate k 48 ++ (i.text ++ rest) := by
  unfold lexConst at h
  dsimp only at h
  split_ifs at h
  cases h
  obtain ⟨k, hk⟩ := digits_eq (s := (c :: s).takeWhile isNumeral)
    (by rw [List.takeWhile_cons_of_pos hc]; simp) fun d hd => List.mem_takeWhile_imp hd
  refine ⟨k, ?_⟩
  rw [Item.text, ← List.append_assoc, ← hk, List.takeWhile_append_dropWhile]

/-- **What is read is written**: the text begins with the item read off it, behind leading zeros. -/
theorem lexOne_text (h : lexOne s = some (i, rest)) :
    ∃ k, s = List.replicate k 48 ++ (i.text ++ rest) := by
  cases s with
  | nil => cases h
  | cons c s =>
    simp only [lexOne] at h
    split_ifs at h with h₁ h₂ h₃
    · obtain ⟨chars, rfl, rfl, -⟩ := lexString_eq_some h
      exact ⟨0, by simp [Item.text, h₁]⟩
    · exact lexConst_text h₂ h
    · have ht := lexName_text (c :: s)
      rw [Option.some.inj h] at ht
      exact ⟨0, ht⟩
    · exact ⟨0, lexPunctuation_text h⟩

/-! ## The items read are valid -/

theorem isName_takeWhile (hc : isNameChar c) (hn : ¬ isNumeral c = true) (s : List ℕ) :
    Named ((c :: s).takeWhile isNameChar) where
  chars _ hd := List.mem_takeWhile_imp hd
  head := ⟨c, _, List.takeWhile_cons_of_pos hc, hn⟩

theorem keyword_valid {t : ℕ} (h : keyword s = some t) : (Item.token t).Valid := by
  obtain ⟨k, hk, -, rfl⟩ := keyword_mem h
  exact ⟨k, hk, rfl⟩

theorem nameItem_valid (hw : Named w) (isString isArray : Bool) :
    (nameItem w isString isArray).Valid := by
  unfold nameItem
  split
  · rename_i t h
    exact keyword_valid h
  · rename_i h
    exact ⟨hw, h⟩

/-- **The items read are valid**, strings when they are short. -/
theorem lexOne_valid (h : lexOne s = some (i, rest))
    (hstring : ∀ chars, i = .string chars → chars.length < 252 ∧ ∀ c ∈ chars, c < 256) :
    i.Valid := by
  cases s with
  | nil => cases h
  | cons c s =>
    simp only [lexOne] at h
    split_ifs at h with h₁ h₂ h₃
    · obtain ⟨chars, rfl, rfl, hq⟩ := lexString_eq_some h
      exact ⟨hq, hstring chars rfl⟩
    · unfold lexConst at h
      dsimp only at h
      split_ifs at h with hv
      cases h
      exact hv
    · rw [lexName_eq (s := c :: s) rfl rfl] at h
      simp only [Option.some.injEq, Prod.mk.injEq] at h
      obtain ⟨rfl, -⟩ := h
      exact nameItem_valid (isName_takeWhile h₃ h₂ s) _ _
    · cases s with
      | nil =>
        simp only [lexPunctuation, Option.map_eq_some_iff, Prod.mk.injEq] at h
        obtain ⟨t, ht, rfl, -⟩ := h
        exact keyword_valid ht
      | cons b s =>
        simp only [lexPunctuation] at h
        split at h
        · rename_i t ht
          simp only [Option.some.injEq, Prod.mk.injEq] at h
          obtain ⟨rfl, -⟩ := h
          exact keyword_valid ht
        · simp only [Option.map_eq_some_iff, Prod.mk.injEq] at h
          obtain ⟨t, ht, rfl, -⟩ := h
          exact keyword_valid ht

/-! ## Printed lines -/

/-- An item and the number of spaces before and after it. -/
structure Spelt where
  before : ℕ
  item : Item
  after : ℕ

/-- The printed text. -/
def spell (ps : List Spelt) : List ℕ :=
  ps.flatMap fun p => List.replicate p.before 32 ++ (p.item.text ++ List.replicate p.after 32)

/-- The reader stops at the end of the item. -/
def Apart (i : Item) (s : List ℕ) : Prop := lexOne (i.text ++ s) = some (i, s)

/-- Every item is apart from the text behind it. -/
def Separated : List Spelt → Prop
  | [] => True
  | p :: ps => Apart p.item (List.replicate p.after 32 ++ spell ps) ∧ Separated ps

@[simp] theorem spell_nil : spell [] = [] := rfl

@[simp] theorem spell_cons (p : Spelt) (ps : List Spelt) :
    spell (p :: ps) =
      List.replicate p.before 32 ++ (p.item.text ++ (List.replicate p.after 32 ++ spell ps)) := by
  simp [spell]

@[simp] theorem lex_spaces (k : ℕ) (s : List ℕ) : lex (List.replicate k 32 ++ s) = lex s := by
  induction k with
  | zero => rfl
  | succ k ih => rw [List.replicate_succ, List.cons_append, lex_space, ih]

theorem name_head_of_mem : ∀ k ∈ tokenList, 32 < (k.name.map upperChar).headD 0 := by decide

/-- The text of an item begins with a printing character. -/
theorem text_head (hi : i.Valid) : ∃ c r, i.text = c :: r ∧ 32 < c := by
  cases i with
  | token t =>
    obtain ⟨k, hk, rfl⟩ := hi
    have hhead := name_head_of_mem k hk
    rw [Item.text, tokenName_id hk]
    cases hn : k.name.map upperChar with
    | nil => simp [hn] at hhead
    | cons c r => exact ⟨c, r, rfl, by simpa [hn] using hhead⟩
  | ident name isString isArray =>
    obtain ⟨hname, -⟩ := hi
    obtain ⟨c, r, rfl, -⟩ := hname.head
    refine ⟨c, _, rfl, ?_⟩
    have := hname.chars c (by simp)
    simp only [isNameChar, Bool.or_eq_true, Bool.and_eq_true, decide_eq_true_eq] at this
    omega
  | const v =>
    obtain ⟨-, hne, hdig⟩ := decimal_spec v
    cases hd : decimal v with
    | nil => exact absurd hd hne
    | cons c r =>
      have := isNumeral_iff.mp (hdig c (by simp [hd]))
      exact ⟨c, r, hd, by omega⟩
  | string chars => exact ⟨34, _, rfl, by decide⟩

/-- Reading a text that begins with an item. -/
theorem lex_text (hi : i.Valid) (s : List ℕ) :
    lex (i.text ++ s) = (lexOne (i.text ++ s)).bind fun p => (lex p.2).map (p.1 :: ·) := by
  obtain ⟨c, r, ht, hc⟩ := text_head hi
  rw [ht, List.cons_append, lex_cons hc]

/-- The printing characters of a text. -/
def ink (s : List ℕ) : ℕ := s.countP (· != 32)

@[simp] theorem ink_append (s t : List ℕ) : ink (s ++ t) = ink s + ink t := List.countP_append

@[simp] theorem ink_spaces (k : ℕ) : ink (List.replicate k 32) = 0 := by simp [ink]

/-- The items read off a text are not longer than the text. -/
theorem ink_le_of_lex {items : List Item} (n : ℕ) (hn : s.length ≤ n) (h : lex s = some items) :
    ink (items.flatMap Item.text) ≤ ink s := by
  induction n generalizing s items with
  | zero =>
    obtain rfl := List.eq_nil_of_length_eq_zero (Nat.le_zero.mp hn)
    cases h
    exact Nat.le_refl _
  | succ n ih =>
    cases s with
    | nil => cases h; exact Nat.le_refl _
    | cons c s =>
      rw [List.length_cons, Nat.add_le_add_iff_right] at hn
      rcases Nat.lt_trichotomy c 32 with hc | rfl | hc
      · rw [lex_control hc] at h
        cases h
        exact Nat.zero_le _
      · rw [lex_space] at h
        exact (ih hn h).trans (by simp [ink])
      · rw [lex_cons hc, Option.bind_eq_some_iff] at h
        obtain ⟨⟨i, rest⟩, hone, h⟩ := h
        obtain ⟨items, hitems, rfl⟩ := Option.map_eq_some_iff.mp h
        dsimp only at hitems
        have hlt : rest.length < s.length + 1 := (lexOne_suffix hone).length_lt
        have hrest := ih (by omega) hitems
        obtain ⟨k, hk⟩ := lexOne_text hone
        rw [hk]
        simp only [List.flatMap_cons, ink_append]
        omega

theorem ink_spell (ps : List Spelt) :
    ink (spell ps) = ink ((ps.map Spelt.item).flatMap Item.text) := by
  induction ps with
  | nil => rfl
  | cons p ps ih => simp [ih]

/-- **The printed items are read back** exactly when they are separated. -/
theorem lex_spell_iff {ps : List Spelt} (hv : ∀ p ∈ ps, p.item.Valid) :
    lex (spell ps) = some (ps.map Spelt.item) ↔ Separated ps := by
  induction ps with
  | nil => simp [Separated]
  | cons p ps ih =>
    have ih := ih fun q hq => hv q (by simp [hq])
    rw [spell_cons, lex_spaces, lex_text (hv p (by simp)), Separated, ← ih, Apart]
    constructor
    · intro h
      obtain ⟨⟨i, rest⟩, hone, h⟩ := Option.bind_eq_some_iff.mp h
      simp only [List.map_cons, Option.map_eq_some_iff, List.cons.injEq] at h
      obtain ⟨items, hitems, rfl, rfl⟩ := h
      obtain ⟨k, hk⟩ := lexOne_text hone
      -- zeros read before the item would be missing in what is left
      have hcount := congrArg ink hk
      have hrest := ink_le_of_lex rest.length (Nat.le_refl _) hitems
      have hspell := ink_spell ps
      have hzeros : ink (List.replicate k 48) = k := by simp [ink, List.countP_replicate]
      simp only [ink_append, ink_spaces, hzeros] at hcount
      obtain rfl : k = 0 := by omega
      have he : List.replicate p.after 32 ++ spell ps = rest := by simpa using hk
      rw [← he, lex_spaces] at hitems
      exact ⟨he ▸ hone, hitems⟩
    · rintro ⟨hone, hitems⟩
      simp [hone, hitems]

/-! ## Where an item ends -/

/-- The character `c` goes on a name with these suffixes. -/
def Continues (isString isArray : Bool) (c : ℕ) : Prop :=
  isArray = false ∧ (c = 40 ∨ isString = false ∧ (c = 36 ∨ isNameChar c))

theorem takeSuffix_cons_self (c : ℕ) (s : List ℕ) : Builder.takeSuffix c (c :: s) = (true, s) :=
  if_pos rfl

theorem takeSuffix_of_ne (h : s.headD 0 ≠ c) : Builder.takeSuffix c s = (false, s) := by
  cases s with
  | nil => rfl
  | cons d s => exact if_neg h

theorem span_name (hw : ∀ c ∈ w, isNameChar c) (hs : ¬ isNameChar (s.headD 0) = true) :
    (w ++ s).takeWhile isNameChar = w ∧ (w ++ s).dropWhile isNameChar = s := by
  rw [List.takeWhile_append_of_pos hw, List.dropWhile_append_of_pos hw]
  cases s with
  | nil => simp
  | cons d s =>
    rw [List.headD_cons] at hs
    rw [List.takeWhile_cons_of_neg hs, List.dropWhile_cons_of_neg hs, List.append_nil]
    exact ⟨rfl, rfl⟩

theorem span_name_cons (hw : ∀ c ∈ w, isNameChar c) (hc : ¬ isNameChar c = true) (s : List ℕ) :
    (w ++ c :: s).takeWhile isNameChar = w ∧ (w ++ c :: s).dropWhile isNameChar = c :: s :=
  span_name hw hc

theorem length_takeSuffix_le (c : ℕ) (s : List ℕ) : (Builder.takeSuffix c s).2.length ≤ s.length := by
  have h := congrArg List.length (takeSuffix_append c s)
  rw [List.length_append] at h
  omega

theorem lexOne_name (hw : Named w) (s : List ℕ) : lexOne (w ++ s) = some (lexName (w ++ s)) := by
  obtain ⟨c, r, rfl, hc⟩ := hw.head
  have hn := hw.chars c (by simp)
  have hq : c ≠ 34 := by
    rintro rfl
    exact absurd hn (by decide)
  rw [List.cons_append, lexOne, if_neg hq, if_neg hc, if_pos hn]

/-- A character that goes on is read: less than the text behind the name is left. -/
theorem lexName_continues (hw : Named w) {isString isArray : Bool}
    (h : Continues isString isArray (s.headD 0)) :
    (lexName (w ++ (suffixes isString isArray ++ s))).2.length < s.length := by
  obtain ⟨rfl, hc⟩ := h
  cases s with
  | nil =>
    rcases hc with hc | ⟨-, hc | hc⟩ <;> exact absurd hc (by decide)
  | cons c s =>
    rw [List.headD_cons] at hc
    rw [lexName_rest, List.length_cons, Nat.lt_succ_iff]
    cases isString with
    | true =>
      obtain rfl : c = 40 := by simpa using hc
      have hspan := span_name_cons hw.chars (show ¬ isNameChar 36 = true by decide) (40 :: s)
      rw [show suffixes true false ++ 40 :: s = 36 :: 40 :: s from rfl, hspan.2]
      exact Nat.le_refl _
    | false =>
      have hstep : ∀ t : List ℕ, t.length ≤ s.length → (Builder.takeSuffix 40
          (Builder.takeSuffix 36 t).2).2.length ≤ s.length := fun t ht =>
        ((length_takeSuffix_le _ _).trans (length_takeSuffix_le _ _)).trans ht
      by_cases hn : isNameChar c = true
      · -- the name itself is longer
        rw [show suffixes false false ++ c :: s = c :: s from rfl,
          List.dropWhile_append_of_pos hw.chars, List.dropWhile_cons_of_pos hn]
        exact hstep _ (List.dropWhile_suffix _).length_le
      · rw [show suffixes false false ++ c :: s = c :: s from rfl, (span_name_cons hw.chars hn s).2]
        rcases hc with rfl | ⟨-, rfl | hc⟩
        · exact Nat.le_refl _
        · exact length_takeSuffix_le 40 s
        · exact absurd hc hn

/-- Where nothing goes on, the name and its suffixes are read. -/
theorem lexName_stops (hw : Named w) {isString isArray : Bool}
    (h : ¬ Continues isString isArray (s.headD 0)) :
    lexName (w ++ (suffixes isString isArray ++ s)) = (nameItem w isString isArray, s) := by
  have h36 := span_name_cons hw.chars (show ¬ isNameChar 36 = true by decide) s
  have h36' := span_name_cons hw.chars (show ¬ isNameChar 36 = true by decide) (40 :: s)
  have h40 := span_name_cons hw.chars (show ¬ isNameChar 40 = true by decide) s
  cases isArray with
  | true =>
    cases isString with
    | true =>
      change lexName (w ++ 36 :: 40 :: s) = _
      rw [lexName_eq (s := w ++ 36 :: 40 :: s) (by rw [h36'.2, takeSuffix_cons_self])
        (takeSuffix_cons_self _ _), h36'.1]
    | false =>
      change lexName (w ++ 40 :: s) = _
      rw [lexName_eq (s := w ++ 40 :: s) (by rw [h40.2, takeSuffix_of_ne (by simp)])
        (takeSuffix_cons_self _ _), h40.1]
  | false =>
    have hparen : s.headD 0 ≠ 40 := fun hc => h ⟨rfl, .inl hc⟩
    cases isString with
    | true =>
      change lexName (w ++ 36 :: s) = _
      rw [lexName_eq (s := w ++ 36 :: s) (by rw [h36.2, takeSuffix_cons_self])
        (takeSuffix_of_ne hparen), h36.1]
    | false =>
      have hdollar : s.headD 0 ≠ 36 := fun hc => h ⟨rfl, .inr ⟨rfl, .inl hc⟩⟩
      have hspan := span_name (s := s) hw.chars fun hc => h ⟨rfl, .inr ⟨rfl, .inr hc⟩⟩
      change lexName (w ++ s) = _
      rw [lexName_eq (s := w ++ s) (by rw [hspan.2, takeSuffix_of_ne hdollar])
        (takeSuffix_of_ne hparen), hspan.1]

/-- **A name ends** where no character goes on with it. -/
theorem apart_name_iff (hw : Named w) (isString isArray : Bool) (s : List ℕ) :
    Apart (nameItem w isString isArray) s ↔ ¬ Continues isString isArray (s.headD 0) := by
  rw [Apart, nameItem_text, List.append_assoc, lexOne_name hw, Option.some.injEq]
  constructor
  · intro h hc
    have hlt := lexName_continues hw hc
    rw [h] at hlt
    exact Nat.lt_irrefl _ hlt
  · exact lexName_stops hw

/-- **A constant ends** where there is no digit. -/
theorem apart_const_iff (hv : v < 0x8000000) (s : List ℕ) :
    Apart (.const v) s ↔ ¬ isNumeral (s.headD 0) = true := by
  obtain ⟨hval, hne, hdig⟩ := decimal_spec v
  obtain ⟨c, r, hd⟩ := List.exists_cons_of_ne_nil hne
  have hc := hdig c (by simp [hd])
  have hq : c ≠ 34 := by
    rintro rfl
    exact absurd hc (by decide)
  have hone : lexOne (decimal v ++ s) = lexConst (decimal v ++ s) := by
    rw [hd, List.cons_append, lexOne, if_neg hq, if_pos hc]
  rw [Apart, Item.text, hone, lexConst, List.takeWhile_append_of_pos hdig,
    List.dropWhile_append_of_pos hdig]
  cases s with
  | nil => simp [hval, hv, isNumeral]
  | cons d s =>
    rw [List.headD_cons]
    by_cases hn : isNumeral d = true
    · -- the digit is read, so that less is left
      rw [List.dropWhile_cons_of_pos hn]
      have hlen := (List.dropWhile_suffix isNumeral (l := s)).length_le
      simp only [hn, not_true_eq_false, iff_false]
      intro h
      split_ifs at h
      simp only [Option.some.injEq, Prod.mk.injEq] at h
      have := congrArg List.length h.2
      rw [List.length_cons] at this
      omega
    · rw [List.takeWhile_cons_of_neg hn, List.dropWhile_cons_of_neg hn, List.append_nil, hval]
      simp [hv, hn]

/-- **A string ends** at its closing quote. -/
theorem apart_string {chars : List ℕ} (hq : 34 ∉ chars) (s : List ℕ) : Apart (.string chars) s := by
  rw [Apart, Item.text, List.cons_append, List.append_assoc, List.singleton_append, lexOne,
    if_pos rfl, lexString_append hq]

/-! ## Where a token ends -/

/-- A token is a name with suffixes, or one or two punctuation characters. -/
theorem name_shape : ∀ k ∈ tokenList, let n := k.name.map upperChar;
    (isNameChar (n.headD 0) = true ∧ ¬ isNumeral (n.headD 0) = true ∧
      n.dropWhile isNameChar ∈ [suffixes false false, suffixes false true, suffixes true true]) ∨
    ((n.length = 1 ∨ n.length = 2) ∧ ∀ c ∈ n, 34 < c ∧ ¬ isNameChar c) := by
  decide

theorem keyword_name : ∀ k ∈ tokenList, keyword (k.name.map upperChar) = some k.id := by
  decide +kernel

theorem keyword_eq_none {c d : ℕ} (hd : d = 0 ∨ d = 32) : keyword [c, d] = none := by
  have hname : ∀ k ∈ tokenList, 0 ∉ k.name.map upperChar ∧ 32 ∉ k.name.map upperChar := by decide
  rw [Option.eq_none_iff_forall_ne_some]
  intro t ht
  obtain ⟨k, hk, he, -⟩ := keyword_mem ht
  obtain ⟨h₀, h₃₂⟩ := hname k hk
  rw [he] at h₀ h₃₂
  rcases hd with rfl | rfl
  · exact h₀ (by simp)
  · exact h₃₂ (by simp)

/-- A token of the table as a word or as punctuation. -/
theorem token_cases {k : Token} (hk : k ∈ tokenList) :
    (∃ w isString isArray, Named w ∧ k.name.map upperChar = w ++ suffixes isString isArray ∧
      nameItem w isString isArray = .token k.id) ∨
    ((∃ c, k.name.map upperChar = [c]) ∨ ∃ c d, k.name.map upperChar = [c, d]) ∧
      ∀ c ∈ k.name.map upperChar, 34 < c ∧ ¬ isNameChar c := by
  have hkey := keyword_name k hk
  rcases name_shape k hk with ⟨hn, hd, hsuf⟩ | ⟨hlen, hchars⟩
  · left
    generalize k.name.map upperChar = n at hkey hn hd hsuf
    obtain ⟨c, r, rfl⟩ : ∃ c r, n = c :: r := by
      cases n with
      | nil => exact absurd hn (by decide)
      | cons c r => exact ⟨c, r, rfl⟩
    have hw := isName_takeWhile hn hd r
    have happ := (List.takeWhile_append_dropWhile (p := isNameChar) (l := c :: r)).symm
    have hitem : ∀ {isString isArray},
        c :: r = (c :: r).takeWhile isNameChar ++ suffixes isString isArray →
        nameItem ((c :: r).takeWhile isNameChar) isString isArray = .token k.id := fun h => by
      rw [nameItem, ← h, hkey]
    simp only [List.mem_cons, List.not_mem_nil, or_false] at hsuf
    rcases hsuf with h | h | h <;> rw [h] at happ <;> exact ⟨_, _, _, hw, happ, hitem happ⟩
  · exact .inr ⟨hlen.imp List.length_eq_one_iff.mp List.length_eq_two.mp, hchars⟩

theorem lexOne_punctuation (h : 34 < c ∧ ¬ isNameChar c) (s : List ℕ) :
    lexOne (c :: s) = lexPunctuation (c :: s) := by
  have hd : ¬ isNumeral c = true := fun hd => h.2 (by
    have := isNumeral_iff.mp hd
    simp [isNameChar, this])
  rw [lexOne, if_neg (by omega), if_neg hd, if_neg h.2]

/-- **A punctuation character ends** where it is not the first of a pair. -/
theorem apart_single_iff {k : Token} (hk : k ∈ tokenList) (hn : k.name.map upperChar = [c])
    (hc : 34 < c ∧ ¬ isNameChar c) (s : List ℕ) :
    Apart (.token k.id) s ↔ keyword [c, s.headD 0] = none := by
  have hkey := keyword_name k hk
  rw [hn] at hkey
  rw [Apart, Item.text, tokenName_id hk, hn, List.singleton_append, lexOne_punctuation hc]
  cases s with
  | nil => simp [lexPunctuation, hkey, keyword_eq_none]
  | cons d s =>
    rw [lexPunctuation, List.headD_cons]
    cases hp : keyword [c, d] with
    | none => simp [hkey]
    | some t => simp

/-- **A pair of punctuation characters ends** at once. -/
theorem apart_pair {k : Token} (hk : k ∈ tokenList) {d : ℕ} (hn : k.name.map upperChar = [c, d])
    (hc : 34 < c ∧ ¬ isNameChar c) (s : List ℕ) : Apart (.token k.id) s := by
  have hkey := keyword_name k hk
  rw [hn] at hkey
  rw [Apart, Item.text, tokenName_id hk, hn, List.cons_append, lexOne_punctuation hc,
    List.singleton_append, lexPunctuation, hkey]

/-- **Every item ends** at a space and at the end of the text. -/
theorem apart_of_space (hi : i.Valid) (hs : s.headD 0 = 0 ∨ s.headD 0 = 32) : Apart i s := by
  have hstop : ∀ isString isArray, ¬ Continues isString isArray (s.headD 0) := by
    rintro isString isArray ⟨-, h⟩
    rcases hs with hs | hs <;> rw [hs] at h <;> revert h <;> cases isString <;> decide
  cases i with
  | token t =>
    obtain ⟨k, hk, rfl⟩ := hi
    rcases token_cases hk with ⟨w, isString, isArray, hw, -, hitem⟩ | ⟨⟨c, hn⟩ | ⟨c, d, hn⟩, hc⟩
    · rw [← hitem]
      exact (apart_name_iff hw isString isArray s).mpr (hstop _ _)
    · exact (apart_single_iff hk hn (hc c (by simp [hn])) s).mpr (keyword_eq_none hs)
    · exact apart_pair hk hn (hc c (by simp [hn])) s
  | ident name isString isArray =>
    obtain ⟨hw, hkey⟩ := hi
    have hitem : nameItem name isString isArray = .ident name isString isArray := by
      rw [nameItem, hkey]
    rw [← hitem]
    exact (apart_name_iff hw isString isArray s).mpr (hstop _ _)
  | const v =>
    refine (apart_const_iff hi s).mpr ?_
    rcases hs with hs | hs <;> rw [hs] <;> decide
  | string chars => exact apart_string hi.1 s

/-- An identifier ends like its name. -/
theorem apart_ident_iff {isString isArray : Bool} (hi : (Item.ident w isString isArray).Valid)
    (s : List ℕ) :
    Apart (.ident w isString isArray) s ↔ ¬ Continues isString isArray (s.headD 0) := by
  have hitem : nameItem w isString isArray = .ident w isString isArray := by rw [nameItem, hi.2]
  rw [← hitem]
  exact apart_name_iff hi.1 isString isArray s

theorem name_quote_of_mem : ∀ k ∈ tokenList, 34 ∉ k.name.map upperChar := by decide

/-- Only strings have quotes. -/
theorem quote_notMem_text (hi : i.Valid) (hs : ∀ chars, i ≠ .string chars) : 34 ∉ i.text := by
  cases i with
  | token t =>
    obtain ⟨k, hk, rfl⟩ := hi
    rw [Item.text, tokenName_id hk]
    exact name_quote_of_mem k hk
  | ident name isString isArray =>
    rw [Item.text, List.mem_append]
    rintro (h | h)
    · exact absurd (hi.1.chars 34 h) (by decide)
    · revert h
      cases isString <;> cases isArray <;> decide
  | const v =>
    intro h
    exact absurd ((decimal_spec v).2.2 34 h) (by decide)
  | string chars => exact absurd rfl (hs chars)

end Basic65816
