import Basic65816.Builder.DumpExport

/-!
# The exported text

The exporter writes identifiers and constants one after the other, and keeps spaces for the tokens.
Two identifiers, or a constant behind an identifier or a constant, run together, and nothing else
does.

## Main definitions

* `Item.exported`: the text the exporter writes for an item
* `RunOn`, `RunsTogether`: items and lines that run together

## Main results

* `deTokenise_line`: the text of a stored line
* `tokenise_exported_iff`: the text of a line is tokenised to the same words exactly when nothing
  runs together
-/

namespace Basic65816

open Builder

variable {c : ℕ} {s : List ℕ} {i j : Item} {items : List Item}

/-! ## The text of an item -/

/-- What the exporter writes for an item. -/
def Item.exported : Item → List ℕ
  | .token t => 32 :: (tokenName t ++ [32])
  | .ident name isString isArray => name.map lowerChar ++ suffixes isString isArray
  | .const value => decimal value
  | .string chars => 34 :: (chars ++ [34])

/-- The item in the exported text: tokens have spaces around. -/
def Item.spelt : Item → Spelt
  | .token t => ⟨1, .token t, 1⟩
  | i => ⟨0, i, 0⟩

@[simp] theorem spelt_item (i : Item) : i.spelt.item = i := by cases i <;> rfl

theorem upperChar_isNameChar (hc : isNameChar c) : upperChar c = c := by
  simp only [isNameChar, Bool.or_eq_true, Bool.and_eq_true, decide_eq_true_eq] at hc
  unfold upperChar
  split_ifs <;> omega

theorem upperChar_upperChar (c : ℕ) : upperChar (upperChar c) = upperChar c := by
  unfold upperChar
  split_ifs <;> omega

theorem isNameChar_of_isNumeral (h : isNumeral c) : isNameChar c := by
  have := isNumeral_iff.mp h
  simp [isNameChar, this]

theorem map_upperChar_suffixes (isString isArray : Bool) :
    (suffixes isString isArray).map upperChar = suffixes isString isArray := by
  cases isString <;> cases isArray <;> decide

theorem map_upperChar_tokenName {t : ℕ} (hi : (Item.token t).Valid) :
    (tokenName t).map upperChar = tokenName t := by
  obtain ⟨k, hk, rfl⟩ := hi
  rw [tokenName_id hk, List.map_map]
  exact List.map_congr_left fun c _ => upperChar_upperChar c

theorem map_upperChar_of_names (h : ∀ c ∈ s, isNameChar c) : s.map upperChar = s :=
  (List.map_congr_left fun c hc => upperChar_isNameChar (h c hc)).trans (List.map_id' s)

theorem map_upperChar_lower (h : ∀ c ∈ s, isNameChar c) : (s.map lowerChar).map upperChar = s := by
  rw [List.map_map]
  exact (List.map_congr_left fun c hc => (upperChar_lowerChar c).trans
    (upperChar_isNameChar (h c hc))).trans (List.map_id' s)

/-- The exported text in capitals is the text of the item, with its spaces. -/
theorem exported_upper (hi : i.Valid) (hs : ∀ chars, i ≠ .string chars) :
    i.exported.map upperChar = List.replicate i.spelt.before 32 ++
      (i.text ++ List.replicate i.spelt.after 32) := by
  cases i with
  | token t => simp [Item.exported, Item.spelt, Item.text, map_upperChar_tokenName hi, upperChar]
  | ident name isString isArray =>
    rw [Item.exported, List.map_append, map_upperChar_lower hi.1.chars, map_upperChar_suffixes]
    simp [Item.spelt, Item.text]
  | const v =>
    rw [Item.exported, map_upperChar_of_names fun c hc =>
      isNameChar_of_isNumeral ((decimal_spec v).2.2 c hc)]
    simp [Item.spelt, Item.text]
  | string chars => exact absurd rfl (hs chars)

theorem capitalise_append {p : List ℕ} (hp : 34 ∉ p) (s : List ℕ) :
    capitalise (p ++ s) = p.map upperChar ++ capitalise s := by
  induction p with
  | nil => rfl
  | cons c p ih =>
    simp only [List.mem_cons, not_or] at hp
    rw [List.cons_append, capitalise_cons (Ne.symm hp.1), ih hp.2]
    rfl

theorem capitaliseFrom_chars {chars : List ℕ} (hq : 34 ∉ chars) (s : List ℕ) :
    capitaliseFrom true (chars ++ 34 :: s) = chars ++ 34 :: capitalise s := by
  induction chars with
  | nil => rfl
  | cons c chars ih =>
    simp only [List.mem_cons, not_or] at hq
    simp only [List.cons_append, capitaliseFrom, if_neg (Ne.symm hq.1), if_true, ih hq.2]

theorem quote_notMem_exported (hi : i.Valid) (hs : ∀ chars, i ≠ .string chars) :
    34 ∉ i.exported := by
  have hq := quote_notMem_text hi hs
  intro h
  have hmem : 34 ∈ i.exported.map upperChar := List.mem_map.mpr ⟨34, h, rfl⟩
  rw [exported_upper hi hs] at hmem
  simp [hq] at hmem

theorem capitalise_exported (hi : i.Valid) (s : List ℕ) :
    capitalise (i.exported ++ s) = List.replicate i.spelt.before 32 ++
      (i.text ++ (List.replicate i.spelt.after 32 ++ capitalise s)) := by
  by_cases hs : ∃ chars, i = .string chars
  · obtain ⟨chars, rfl⟩ := hs
    have hq : 34 ∉ chars := hi.1
    simp only [Item.exported, List.cons_append, List.append_assoc, List.nil_append]
    rw [capitalise, capitaliseFrom_cons, beq_self_eq_true, capitaliseFrom_chars hq]
    simp [Item.spelt, Item.text, upperChar]
  · have hne : ∀ chars, i ≠ .string chars := fun chars he => hs ⟨chars, he⟩
    rw [capitalise_append (quote_notMem_exported hi hne), exported_upper hi hne]
    simp only [List.append_assoc]

/-- **The exported line in capitals** spells the items. -/
theorem capitalise_exported_line (his : ∀ i ∈ items, i.Valid) :
    capitalise (items.flatMap Item.exported) = spell (items.map Item.spelt) := by
  induction items with
  | nil => rfl
  | cons i items ih =>
    rw [List.flatMap_cons, capitalise_exported (his i (by simp)),
      ih fun j hj => his j (by simp [hj]), List.map_cons, spell_cons, spelt_item]

/-! ## The exported line is clean -/

theorem CleanFrom.append_plain {p : List ℕ} (hp : ∀ c ∈ p, Plain c) (hq : 34 ∉ p) {q : Bool}
    (h : CleanFrom q s) : CleanFrom q (p ++ s) := by
  induction p with
  | nil => exact h
  | cons c p ih =>
    simp only [List.mem_cons, not_or] at hq
    refine ⟨.inl (hp c (by simp)), ?_⟩
    rw [if_neg (Ne.symm hq.1)]
    exact ih (fun d hd => hp d (by simp [hd])) hq.2

theorem cleanFrom_chars {chars : List ℕ} (hq : 34 ∉ chars) (h : CleanFrom false s) :
    CleanFrom true (chars ++ 34 :: s) := by
  induction chars with
  | nil => exact ⟨.inl (by decide), h⟩
  | cons c chars ih =>
    simp only [List.mem_cons, not_or] at hq
    have hc : c ≠ 34 := Ne.symm hq.1
    refine ⟨.inr ⟨by rw [if_neg hc], by simp⟩, ?_⟩
    rw [if_neg hc]
    exact ih hq.2

theorem plain_of_upper (h : ∀ d ∈ s.map upperChar, Plain d) : ∀ c ∈ s, Plain c :=
  fun c hc => (plain_upperChar c).mp (h _ (List.mem_map_of_mem hc))

theorem name_plain_of_mem : ∀ k ∈ tokenList, ∀ c ∈ k.name.map upperChar, Plain c := by decide

theorem text_plain (hi : i.Valid) (hs : ∀ chars, i ≠ .string chars) : ∀ c ∈ i.text, Plain c := by
  have hname : ∀ c, isNameChar c = true → Plain c := fun c hc => by
    simp only [isNameChar, Bool.or_eq_true, Bool.and_eq_true, decide_eq_true_eq] at hc
    unfold Plain
    omega
  cases i with
  | token t =>
    obtain ⟨k, hk, rfl⟩ := hi
    rw [Item.text, tokenName_id hk]
    exact name_plain_of_mem k hk
  | ident name isString isArray =>
    intro c hc
    rcases List.mem_append.mp hc with hc | hc
    · exact hname c (hi.1.chars c hc)
    · have hsuf : ∀ c ∈ suffixes isString isArray, Plain c := by
        cases isString <;> cases isArray <;> decide
      exact hsuf c hc
  | const v =>
    exact fun c hc => hname c (isNameChar_of_isNumeral ((decimal_spec v).2.2 c hc))
  | string chars => exact absurd rfl (hs chars)

/-- **The exported line is clean.** -/
theorem clean_exported_line (his : ∀ i ∈ items, i.Valid) : Clean (items.flatMap Item.exported) := by
  induction items with
  | nil => trivial
  | cons i items ih =>
    have hi := his i (by simp)
    have ih : CleanFrom false (items.flatMap Item.exported) := ih fun j hj => his j (by simp [hj])
    rw [Clean, List.flatMap_cons]
    by_cases hs : ∃ chars, i = .string chars
    · obtain ⟨chars, rfl⟩ := hs
      simp only [Item.exported, List.cons_append, List.append_assoc, List.nil_append]
      exact ⟨.inl (by decide), cleanFrom_chars hi.1 ih⟩
    · have hne : ∀ chars, i ≠ .string chars := fun chars he => hs ⟨chars, he⟩
      refine CleanFrom.append_plain (plain_of_upper ?_) (quote_notMem_exported hi hne) ih
      rw [exported_upper hi hne]
      intro c hc
      simp only [List.mem_append, List.mem_replicate] at hc
      rcases hc with ⟨-, rfl⟩ | hc | ⟨-, rfl⟩
      · decide
      · exact text_plain hi hne c hc
      · decide

/-! ## Items that run together -/

/-- `j` directly behind `i` is read as a part of it. -/
def RunOn : Item → Item → Prop
  | .ident _ false false, .ident .. => True
  | .ident _ false false, .const _ => True
  | .const _, .const _ => True
  | _, _ => False

/-- There are neighbours that run together in a line of token words. -/
def RunsTogether (ts : List ℕ) : Prop :=
  ∃ before i j after, (∀ k ∈ before ++ i :: j :: after, k.Valid) ∧
    ts = wordsOf (before ++ i :: j :: after) ∧ RunOn i j

/-- What the exported text of the next item begins with. -/
theorem head_spell_cons (hj : j.Valid) (js : List Item) :
    let c := (spell ((j :: js).map Item.spelt)).headD 0
    match j with
    | .token _ => c = 32
    | .ident .. => isNameChar c = true ∧ ¬ isNumeral c = true
    | .const _ => isNumeral c = true
    | .string _ => c = 34 := by
  cases j with
  | token t => rfl
  | ident name isString isArray =>
    obtain ⟨c, r, rfl, hc⟩ := hj.1.head
    exact ⟨hj.1.chars c (by simp), hc⟩
  | const v =>
    obtain ⟨-, hne, hdig⟩ := decimal_spec v
    obtain ⟨c, r, hd⟩ := List.exists_cons_of_ne_nil hne
    simpa [Item.spelt, Item.text, hd] using hdig c (by simp [hd])
  | string chars => rfl

/-- An item is apart from the exported text behind it unless the next item runs on. -/
theorem apart_exported_iff (hi : i.Valid) (his : ∀ j ∈ items, j.Valid) :
    Apart i (List.replicate i.spelt.after 32 ++ spell (items.map Item.spelt)) ↔
      ∀ j ∈ items.head?, ¬ RunOn i j := by
  have hspace : ∀ s : List ℕ, Apart i (32 :: s) := fun s => apart_of_space hi (.inr rfl)
  cases i with
  | token t => exact ⟨fun _ j _ h => h, fun _ => hspace _⟩
  | string chars => exact ⟨fun _ j _ h => h, fun _ => apart_string hi.1 _⟩
  | const v =>
    change Apart (.const v) (spell (items.map Item.spelt)) ↔ _
    rw [apart_const_iff hi]
    cases items with
    | nil => simp [isNumeral]
    | cons j js =>
      have hhead := head_spell_cons (his j (by simp)) js
      cases j <;> simp_all [RunOn, isNumeral]
  | ident name isString isArray =>
    change Apart (.ident name isString isArray) (spell (items.map Item.spelt)) ↔ _
    rw [apart_ident_iff hi]
    cases items with
    | nil => simp [Continues, isNameChar]
    | cons j js =>
      have hhead := head_spell_cons (his j (by simp)) js
      dsimp only at hhead
      generalize (spell ((j :: js).map Item.spelt)).headD 0 = c at hhead
      simp only [List.head?_cons, Option.mem_some_iff, forall_eq']
      have hname : isNameChar c = true → (¬ Continues isString isArray c ↔
          (isString = true ∨ isArray = true)) := fun hn => by
        have h36 : c ≠ 36 := by rintro rfl; exact absurd hn (by decide)
        have h40 : c ≠ 40 := by rintro rfl; exact absurd hn (by decide)
        cases isString <;> cases isArray <;> simp [Continues, hn, h36, h40]
      cases j with
      | token t =>
        subst hhead
        cases isString <;> cases isArray <;> simp [Continues, RunOn, isNameChar]
      | ident name' isString' isArray' =>
        rw [hname hhead.1]
        cases isString <;> cases isArray <;> simp [RunOn]
      | const v =>
        rw [hname (isNameChar_of_isNumeral hhead)]
        cases isString <;> cases isArray <;> simp [RunOn]
      | string chars =>
        subst hhead
        cases isString <;> cases isArray <;> simp [Continues, RunOn, isNameChar]

/-- The exported items are separated unless neighbours run together. -/
theorem separated_exported_iff (his : ∀ i ∈ items, i.Valid) :
    Separated (items.map Item.spelt) ↔ items.IsChain fun i j => ¬ RunOn i j := by
  induction items with
  | nil => simp [Separated]
  | cons i items ih =>
    have htail : ∀ j ∈ items, j.Valid := fun j hj => his j (by simp [hj])
    rw [List.map_cons, Separated, spelt_item, apart_exported_iff (his i (by simp)) htail, ih htail,
      List.isChain_cons]

theorem runsTogether_iff (his : ∀ i ∈ items, i.Valid) :
    RunsTogether (wordsOf items) ↔ ¬ items.IsChain fun i j => ¬ RunOn i j := by
  rw [List.isChain_iff_forall_rel_of_append_cons_cons]
  push Not
  constructor
  · rintro ⟨before, i, j, after, hv, hw, hr⟩
    exact ⟨i, j, before, after, wordsOf_inj his hv hw, hr⟩
  · rintro ⟨i, j, before, after, rfl, hr⟩
    exact ⟨before, i, j, after, his, rfl, hr⟩

/-- The text of an item is a text of bytes. -/
theorem text_lt (hi : i.Valid) : ∀ c ∈ i.text, c < 256 := by
  have hname : ∀ c, isNameChar c = true → c < 256 := fun c hc => by
    simp only [isNameChar, Bool.or_eq_true, Bool.and_eq_true, decide_eq_true_eq] at hc
    omega
  have htoken : ∀ k ∈ tokenList, ∀ c ∈ k.name.map upperChar, c < 256 := by decide
  cases i with
  | token t =>
    obtain ⟨k, hk, rfl⟩ := hi
    rw [Item.text, tokenName_id hk]
    exact htoken k hk
  | ident name isString isArray =>
    have hsuf : ∀ c ∈ suffixes isString isArray, c < 256 := by
      cases isString <;> cases isArray <;> decide
    intro c hc
    exact (List.mem_append.mp hc).elim (fun hc => hname c (hi.1.chars c hc)) (hsuf c)
  | const v =>
    exact fun c hc => hname c (isNameChar_of_isNumeral ((decimal_spec v).2.2 c hc))
  | string chars =>
    intro c hc
    simp only [Item.text, List.mem_cons, List.mem_append, List.not_mem_nil, or_false] at hc
    rcases hc with rfl | hc | rfl
    · decide
    · exact hi.2.2 c hc
    · decide

theorem spell_lt (ps : List Spelt) (hps : ∀ p ∈ ps, p.item.Valid) : ∀ c ∈ spell ps, c < 256 := by
  intro c hc
  obtain ⟨p, hp, hc⟩ := List.mem_flatMap.mp hc
  simp only [List.mem_append, List.mem_replicate] at hc
  rcases hc with hc | hc | hc
  · omega
  · exact text_lt (hps p hp) c hc
  · omega

/-- The code of an exported line: a space and the text without the spaces at the ends. -/
theorem tokenise_exported_iff (his : ∀ i ∈ items, i.Valid) :
    Builder.tokenise (32 :: strip (items.flatMap Item.exported)) = some (wordsOf items) ↔
      ¬ RunsTogether (wordsOf items) := by
  have hclean := clean_exported_line his
  have hcode : Clean (32 :: strip (items.flatMap Item.exported)) := by
    have hs := hclean.strip.1
    exact ⟨.inl (by decide), hs⟩
  have hlex : lex (capitalise (32 :: strip (items.flatMap Item.exported))) =
      lex (spell (items.map Item.spelt)) := by
    rw [capitalise_cons (by decide), show upperChar 32 = 32 by decide, lex_space, hclean.strip.2,
      capitalise_exported_line his]
  have hitems : (items.map Item.spelt).map Spelt.item = items := by
    simp [Function.comp_def]
  rw [builder_tokenise_lex hcode, hlex, runsTogether_iff his, not_not, ← separated_exported_iff his,
    ← lex_spell_iff (by simpa using his), hitems]
  constructor
  · intro h
    obtain ⟨items', hlex', hw⟩ := Option.bind_eq_some_iff.mp h
    unfold shortWords at hw
    split_ifs at hw with hshort
    have hbytes := spell_lt (items.map Item.spelt) (by simpa using his)
    have hvalid := lex_valid _ (Nat.le_refl _) hlex' hbytes hshort
    rw [hlex', wordsOf_inj hvalid his (Option.some.inj hw)]
  · intro h
    have hshort : ∀ i ∈ items, i.Short := fun i hi => by
      cases i with
      | string chars => exact (his _ hi).2.1
      | _ => trivial
    rw [h, Option.bind_some, shortWords, if_pos hshort]

end Basic65816
