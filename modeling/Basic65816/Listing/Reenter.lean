import Basic65816.Listing.List

/-!
# Entering a listed line again

The listed text has spaces around keywords only. Read again, a line is the same unless an item goes
on with the first character of the next one: the words of a remark run together, for instance.

## Main definitions

* `Item.GoesOn`, `Merges`: an item, and two neighbours, that are read as one
* `Accepted`: a text that the tokeniser accepts

## Main results

* `capitalise_lineText`: the listed line spells its number and its items
* `apart_iff_goesOn`: where an item ends
* `lex_lineText_iff`: a listed line is read back when no neighbours merge
* `detokenise_tokenise_iff`: `Tokenise` behind `Detokenise`
-/

namespace Basic65816

open Builder

/-- Spaces are written around the item. -/
def Item.Spaced : Item → Prop
  | .token t => isKeyword t
  | _ => False

instance : DecidablePred Item.Spaced := fun i => by
  cases i with
  | token t => exact inferInstanceAs (Decidable (isKeyword t))
  | _ => exact inferInstanceAs (Decidable False)

/-- An item in the listing, behind the character `last`. -/
def Item.inList (last : ℕ) (i : Item) : Spelt :=
  if i.Spaced then ⟨if last = 32 ∨ last = 58 then 0 else 1, i, 1⟩ else ⟨0, i, 0⟩

/-- The items in the listing, behind the text `s`. -/
def inList : List ℕ → List Item → List Spelt
  | _, [] => []
  | s, i :: is => i.inList (s.getLastD 0) :: inList (s ++ i.listed (s.getLastD 0)) is

/-- What is written for the items behind the text `s`. -/
def listTail : List ℕ → List Item → List ℕ
  | _, [] => []
  | s, i :: is => i.listed (s.getLastD 0) ++ listTail (s ++ i.listed (s.getLastD 0)) is

section

variable {i j : Item} {is : List Item} {s r : List ℕ} {last c n indent : ℕ}

theorem listItems_eq (s : List ℕ) (is : List Item) : listItems s is = s ++ listTail s is := by
  induction is generalizing s with
  | nil => simp [listItems, listTail]
  | cons i is ih => rw [listItems, listTail, ih, List.append_assoc]

@[simp] theorem inList_item (last : ℕ) (i : Item) : (i.inList last).item = i := by
  unfold Item.inList
  split_ifs <;> rfl

theorem map_inList (s : List ℕ) (is : List Item) : (inList s is).map Spelt.item = is := by
  induction is generalizing s with
  | nil => rfl
  | cons i is ih => rw [inList, List.map_cons, inList_item, ih]

/-! ## The listed text in capitals -/

theorem capitalise_listed (hi : i.Valid) (last : ℕ) (r : List ℕ) :
    capitalise (i.listed last ++ r) = List.replicate (i.inList last).before 32 ++
      (i.text ++ (List.replicate (i.inList last).after 32 ++ capitalise r)) := by
  cases i with
  | token t =>
    have hq : 34 ∉ tokenName t := quote_notMem_text hi (by simp)
    have hupper := map_upperChar_tokenName hi
    by_cases hkey : isKeyword t
    · have hin : (Item.token t).inList last =
          ⟨if last = 32 ∨ last = 58 then 0 else 1, .token t, 1⟩ := if_pos hkey
      have hlisted : (Item.token t).listed last =
          (if last = 32 ∨ last = 58 then [] else [32]) ++ tokenName t ++ [32] := if_pos hkey
      rw [hin, hlisted, capitalise_append (by split_ifs <;> simp [hq])]
      split_ifs <;> simp [hupper, Item.text, upperChar]
    · have hin : (Item.token t).inList last = ⟨0, .token t, 0⟩ := if_neg hkey
      have hlisted : (Item.token t).listed last = tokenName t := if_neg hkey
      rw [hin, hlisted, capitalise_append hq, hupper]
      rfl
  | ident name isString isArray => exact capitalise_exported hi r
  | const v => exact capitalise_exported hi r
  | string chars => exact capitalise_exported hi r

/-- **The listed items in capitals** spell the items. -/
theorem capitalise_listTail (his : ∀ i ∈ is, i.Valid) (s : List ℕ) :
    capitalise (listTail s is) = spell (inList s is) := by
  induction is generalizing s with
  | nil => rfl
  | cons i is ih =>
    rw [listTail, capitalise_listed (his i (by simp)), ih fun j hj => his j (by simp [hj]), inList,
      spell_cons, inList_item]

/-- **The listed line in capitals.** -/
theorem capitalise_lineText (his : ∀ i ∈ is, i.Valid) (n indent : ℕ) :
    capitalise (lineText n indent is) =
      spell (⟨0, .const n, 6 + 2 * indent - (decimal n).length⟩ ::
        inList (lineStart n indent) is) := by
  have hq : 34 ∉ lineStart n indent := by
    intro h
    rcases List.mem_append.mp h with h | h
    · exact absurd ((decimal_spec n).2.2 34 h) (by decide)
    · simp at h
  have hupper : (lineStart n indent).map upperChar = lineStart n indent := by
    rw [lineStart, List.map_append, map_upperChar_of_names fun c hc =>
      isNameChar_of_isNumeral ((decimal_spec n).2.2 c hc), List.map_replicate]
    rfl
  rw [lineText, listItems_eq, capitalise_append hq, capitalise_listTail his, hupper, spell_cons]
  simp [lineStart, Item.text]

/-! ## Items that are read as one -/

/-- The character `c` directly behind the item is read as a part of it. -/
def Item.GoesOn (c : ℕ) : Item → Prop
  | .token t =>
    (∃ w isString isArray, Named w ∧ tokenName t = w ++ suffixes isString isArray ∧
      Continues isString isArray c) ∨
    ∃ d, tokenName t = [d] ∧ isNameChar d = false ∧ keyword [d, c] ≠ none
  | .ident _ isString isArray => Continues isString isArray c
  | .const _ => isNumeral c = true
  | .string _ => False

/-- `j` behind `i` in a listing is read as a part of it: there is no space between them. -/
def Merges (i j : Item) : Prop :=
  ¬ i.Spaced ∧ ¬ j.Spaced ∧ i.GoesOn (j.text.headD 0)

/-- **Where an item ends.** -/
theorem apart_iff_goesOn (hi : i.Valid) (s : List ℕ) : Apart i s ↔ ¬ i.GoesOn (s.headD 0) := by
  cases i with
  | token t =>
    obtain ⟨k, hk, rfl⟩ := hi
    have hname := tokenName_id hk
    have hkey := keyword_name k hk
    -- every way to read the name with its suffixes is the same item
    have hword : ∀ {w isString isArray}, tokenName k.id = w ++ suffixes isString isArray →
        nameItem w isString isArray = .token k.id := fun h => by
      rw [nameItem, ← h, hname, hkey]
    rcases token_cases hk with ⟨w, isString, isArray, hw, hn, hitem⟩ | ⟨hone, hc⟩
    · -- a word goes on as the name it looks like
      rw [← hitem, apart_name_iff hw, hitem]
      refine not_congr ⟨fun h => .inl ⟨w, isString, isArray, hw, hname.trans hn, h⟩, ?_⟩
      rintro (⟨w', isString', isArray', hw', hn', h⟩ | ⟨d, hd, hnd, -⟩)
      · by_contra hcont
        have happ := (apart_name_iff hw isString isArray s).mpr hcont
        rw [hitem, ← hword hn', apart_name_iff hw'] at happ
        exact happ h
      · obtain ⟨c, r, rfl, -⟩ := hw.head
        rw [hname, hn, List.cons_append, List.cons.injEq] at hd
        have hcn := hw.chars c (by simp)
        rw [hd.1, hnd] at hcn
        cases hcn
    · -- punctuation is no name; a single character may be the first of a pair
      have hno : ¬ ∃ w isString isArray, Named w ∧
          tokenName k.id = w ++ suffixes isString isArray ∧
            Continues isString isArray (s.headD 0) := by
        rintro ⟨w, isString, isArray, hw, hn, -⟩
        obtain ⟨c, r, rfl, -⟩ := hw.head
        rw [hname] at hn
        exact (hc c (by rw [hn]; simp)).2 (hw.chars c (by simp))
      rcases hone with ⟨c, hn⟩ | ⟨c, d, hn⟩
      · rw [apart_single_iff hk hn (hc c (by simp [hn]))]
        constructor
        · rintro h (hname | ⟨d, hd, -, hd'⟩)
          · exact hno hname
          · rw [hname, hn, List.cons.injEq] at hd
            rw [← hd.1] at hd'
            exact hd' h
        · intro h
          by_contra hsome
          exact h (.inr ⟨c, hname.trans hn, by simpa using (hc c (by simp [hn])).2, hsome⟩)
      · refine ⟨fun _ => ?_, fun _ => apart_pair hk hn (hc c (by simp [hn])) s⟩
        rintro (hname | ⟨e, he, -⟩)
        · exact hno hname
        · rw [hname, hn] at he
          simp at he
  | ident name isString isArray => exact apart_ident_iff hi s
  | const v => exact apart_const_iff hi s
  | string chars => exact ⟨fun _ h => h, fun _ => apart_string hi.1 s⟩

/-! ## The listing of a line -/

theorem getLastD_mem {s : List ℕ} (hs : s ≠ []) : s.getLastD 0 ∈ s := by
  obtain ⟨init, x, rfl⟩ := List.eq_nil_or_concat s |>.resolve_left hs
  simp

theorem getLastD_append {t : List ℕ} (ht : t ≠ []) : (s ++ t).getLastD 0 = t.getLastD 0 := by
  obtain ⟨init, x, rfl⟩ := List.eq_nil_or_concat t |>.resolve_left ht
  rw [List.concat_eq_append, ← List.append_assoc]
  simp

theorem colon_of_last : ∀ k ∈ tokenList,
    (k.name.map upperChar).getLastD 0 = 32 ∨ (k.name.map upperChar).getLastD 0 = 58 →
      k.name.map upperChar = [58] := by decide

theorem colon_of_head : ∀ k ∈ tokenList, (k.name.map upperChar).headD 0 = 58 →
    (k.name.map upperChar).length = 1 := by decide

/-- Nothing goes on an item that ends in a space or a colon. -/
theorem not_goesOn_of_last (hi : i.Valid) (hsp : ¬ i.Spaced)
    (hl : (i.listed last).getLastD 0 = 32 ∨ (i.listed last).getLastD 0 = 58) (c : ℕ) :
    ¬ i.GoesOn c := by
  have hname : ∀ d, isNameChar d = true → lowerChar d ≠ 32 ∧ lowerChar d ≠ 58 := fun d hd => by
    simp only [isNameChar, Bool.or_eq_true, Bool.and_eq_true, decide_eq_true_eq] at hd
    unfold lowerChar
    split_ifs <;> omega
  cases i with
  | token t =>
    obtain ⟨k, hk, rfl⟩ := hi
    have hlisted : (Item.token k.id).listed last = tokenName k.id := if_neg hsp
    rw [hlisted, tokenName_id hk] at hl
    -- the only such token is the colon, and no pair begins with a colon
    have hcolon := colon_of_last k hk hl
    rintro (⟨w, isString, isArray, hw, hn, -⟩ | ⟨d, hd, -, hkey⟩)
    · obtain ⟨d, r, rfl, -⟩ := hw.head
      rw [tokenName_id hk, hcolon, List.cons_append, List.cons.injEq] at hn
      have hd := hw.chars d (by simp)
      rw [← hn.1] at hd
      exact absurd hd (by decide)
    · rw [tokenName_id hk, hcolon, List.cons.injEq] at hd
      obtain ⟨t, ht⟩ := Option.ne_none_iff_exists'.mp hkey
      obtain ⟨k', hk', hname', -⟩ := keyword_mem ht
      have hone := colon_of_head k' hk' (by rw [hname', ← hd.1]; rfl)
      rw [hname'] at hone
      simp at hone
  | ident name isString isArray =>
    obtain ⟨d, r, rfl, -⟩ := hi.1.head
    have hne : (Item.ident (d :: r) isString isArray).listed last ≠ [] := by simp [Item.listed]
    have hmem := getLastD_mem hne
    exfalso
    rcases List.mem_append.mp hmem with hmem | hmem
    · obtain ⟨e, he, heq⟩ := List.mem_map.mp hmem
      have := hname e (hi.1.chars e he)
      rw [← heq] at hl
      omega
    · revert hmem
      rcases hl with hl | hl <;> rw [hl] <;> cases isString <;> cases isArray <;> decide
  | const v =>
    have hmem := getLastD_mem (decimal_ne_nil v)
    have hdig := isNumeral_iff.mp ((decimal_spec v).2.2 _ hmem)
    have hlast : ((Item.const v).listed last).getLastD 0 = (decimal v).getLastD 0 := rfl
    omega
  | string chars => exact id

/-- An item is apart from what is listed behind it unless the next item merges with it. -/
theorem apart_inList_iff (hi : i.Valid) (his : ∀ j ∈ is, j.Valid) (s : List ℕ) :
    Apart i (List.replicate (i.inList (s.getLastD 0)).after 32 ++
      spell (inList (s ++ i.listed (s.getLastD 0)) is)) ↔ ∀ j ∈ is.head?, ¬ Merges i j := by
  by_cases hsp : i.Spaced
  · have hafter : (i.inList (s.getLastD 0)).after = 1 := by rw [Item.inList, if_pos hsp]
    rw [hafter]
    exact ⟨fun _ j _ hm => hm.1 hsp, fun _ => apart_of_space hi (.inr rfl)⟩
  have hafter : (i.inList (s.getLastD 0)).after = 0 := by rw [Item.inList, if_neg hsp]
  rw [hafter, List.replicate_zero, List.nil_append]
  cases is with
  | nil => exact ⟨fun _ j hj => by simp at hj, fun _ => apart_of_space hi (.inl rfl)⟩
  | cons j js =>
    have hlast : (s ++ i.listed (s.getLastD 0)).getLastD 0 = (i.listed (s.getLastD 0)).getLastD 0 :=
      getLastD_append (listed_ne_nil hi _)
    rw [inList, spell_cons, inList_item, hlast]
    obtain ⟨c, r, ht, -⟩ := text_head (his j (by simp))
    by_cases hj : j.Spaced
    · -- a space is written in front of a keyword, unless the item ends in one or in a colon
      refine ⟨fun _ k hk hm => ?_, fun _ => ?_⟩
      · rw [List.head?_cons, Option.mem_some_iff] at hk
        exact hm.2.1 (hk ▸ hj)
      · by_cases hl : (i.listed (s.getLastD 0)).getLastD 0 = 32 ∨
            (i.listed (s.getLastD 0)).getLastD 0 = 58
        · exact (apart_iff_goesOn hi _).mpr (not_goesOn_of_last hi hsp hl _)
        · have hbefore : (j.inList ((i.listed (s.getLastD 0)).getLastD 0)).before = 1 := by
            rw [Item.inList, if_pos hj]
            exact if_neg hl
          rw [hbefore]
          exact apart_of_space hi (.inr rfl)
    · have hbefore : (j.inList ((i.listed (s.getLastD 0)).getLastD 0)).before = 0 := by
        rw [Item.inList, if_neg hj]
      rw [hbefore, List.replicate_zero, List.nil_append, apart_iff_goesOn hi, ht]
      simp only [List.head?_cons, Option.mem_some_iff, forall_eq', Merges, ht]
      simp [hsp, hj]

/-- The listed items are separated unless neighbours merge. -/
theorem separated_inList_iff (his : ∀ i ∈ is, i.Valid) (s : List ℕ) :
    Separated (inList s is) ↔ is.IsChain fun i j => ¬ Merges i j := by
  induction is generalizing s with
  | nil => simp [Separated, inList]
  | cons i is ih =>
    have htail : ∀ j ∈ is, j.Valid := fun j hj => his j (by simp [hj])
    rw [inList, Separated, inList_item, apart_inList_iff (his i (by simp)) htail, ih htail,
      List.isChain_cons]

/-- **A listed line is read back** as its number and its items exactly when no neighbours merge. -/
theorem lex_lineText_iff (his : ∀ i ∈ is, i.Valid) (hn : n < 100000) (indent : ℕ) :
    lex (capitalise (lineText n indent is)) = some (.const n :: is) ↔
      is.IsChain fun i j => ¬ Merges i j := by
  have hconst : (Item.const n).Valid := show n < 0x8000000 by omega
  have hlen : (decimal n).length ≤ 5 := length_decimal_le (by omega)
  obtain ⟨k, hk⟩ : ∃ k, 6 + 2 * indent - (decimal n).length = k + 1 :=
    ⟨6 + 2 * indent - (decimal n).length - 1, by omega⟩
  have hvalid : ∀ p ∈ (⟨0, .const n, 6 + 2 * indent - (decimal n).length⟩ : Spelt) ::
      inList (lineStart n indent) is, p.item.Valid := by
    intro p hp
    rcases List.mem_cons.mp hp with rfl | hp
    · exact hconst
    · have hmem : p.item ∈ (inList (lineStart n indent) is).map Spelt.item :=
        List.mem_map_of_mem hp
      rw [map_inList] at hmem
      exact his _ hmem
  have hread := lex_spell_iff hvalid
  rw [List.map_cons, map_inList] at hread
  rw [capitalise_lineText his, hread, Separated, separated_inList_iff his, hk]
  exact and_iff_right (apart_of_space hconst (.inr rfl))

/-! ## Entering it again -/

/-- The text `s` is a line that the tokeniser accepts: it is read as the number `n` and the items
`is`, which fit in the token buffer. -/
structure Accepted (s : List ℕ) (n : ℕ) (is : List Item) : Prop where
  bytes : ∀ c ∈ s, 0 < c ∧ c < 256
  items : lex (capitalise s) = some (.const n :: is)
  short : (wordsOf (.const n :: is)).length ≤ 126

/-- The characters of the items are characters of the text. -/
theorem text_subset_of_lex {items : List Item} (k : ℕ) (hk : r.length ≤ k)
    (h : lex r = some items) : ∀ i ∈ items, ∀ c ∈ i.text, c ∈ r := by
  induction k generalizing r items with
  | zero =>
    obtain rfl := List.eq_nil_of_length_eq_zero (Nat.le_zero.mp hk)
    cases h
    simp
  | succ k ih =>
    cases r with
    | nil =>
      cases h
      simp
    | cons c r =>
      rw [List.length_cons, Nat.add_le_add_iff_right] at hk
      rcases Nat.lt_trichotomy c 32 with hc | rfl | hc
      · rw [lex_control hc] at h
        cases h
        simp
      · rw [lex_space] at h
        exact fun i hi d hd => List.mem_cons_of_mem _ (ih hk h i hi d hd)
      · rw [lex_cons hc, Option.bind_eq_some_iff] at h
        obtain ⟨⟨i, rest⟩, hone, h⟩ := h
        obtain ⟨items, hitems, rfl⟩ := Option.map_eq_some_iff.mp h
        have hlt : rest.length < r.length + 1 := (lexOne_suffix hone).length_lt
        obtain ⟨z, hz⟩ := lexOne_text hone
        have hrest := ih (r := rest) (by omega) hitems
        intro j hj d hd
        rw [hz, List.mem_append, List.mem_append]
        rcases List.mem_cons.mp hj with rfl | hj
        · exact .inr (.inl hd)
        · exact .inr (.inr (hrest j hj d hd))

theorem length_words_le {items : List Item} (hi : i ∈ items) :
    i.words.length ≤ (wordsOf items).length := by
  obtain ⟨before, after, rfl⟩ := List.append_of_mem hi
  unfold wordsOf
  rw [List.flatMap_append, List.flatMap_cons, List.length_append, List.length_append]
  omega

/-- The strings of a line that fits in the token buffer are short. -/
theorem short_of_words {items : List Item} (h : (wordsOf items).length ≤ 126) :
    ∀ i ∈ items, i.Short := by
  intro i hi
  cases i with
  | string chars =>
    have hlen := (length_words_le hi).trans h
    have hpad := length_padEven (chars.length :: chars)
    simp only [Item.words, stringWords, List.length_cons, length_byteWords] at hlen hpad
    change chars.length < 252
    omega
  | _ => trivial

theorem Accepted.valid (h : Accepted s n is) : ∀ i ∈ .const n :: is, i.Valid :=
  lex_valid _ (Nat.le_refl _) h.items (capitaliseFrom_lt (fun c hc => (h.bytes c hc).2) _)
    (short_of_words h.short)

/-- The items of a listed line. -/
theorem mem_of_spelt {k : ℕ} {t : List ℕ} {p : Spelt}
    (hp : p ∈ (⟨0, .const n, k⟩ : Spelt) :: inList t is) : p.item ∈ Item.const n :: is := by
  rcases List.mem_cons.mp hp with rfl | hp
  · simp
  · have hin : p.item ∈ (inList t is).map Spelt.item := List.mem_map_of_mem hp
    rw [map_inList] at hin
    simp [hin]

theorem zero_mem_capitaliseFrom (h : 0 ∈ r) : ∀ q, 0 ∈ capitaliseFrom q r := by
  induction r with
  | nil => cases h
  | cons c r ih =>
    intro q
    rw [capitaliseFrom, List.mem_cons]
    rcases List.mem_cons.mp h with rfl | h
    · exact .inl (by split_ifs <;> rfl)
    · exact .inr (ih h _)

/-- The listing of an accepted line has no zero. -/
theorem Accepted.zero_notMem (h : Accepted s n is) (indent : ℕ) : 0 ∉ lineText n indent is := by
  have hvalid := h.valid
  have hcap : 0 ∉ capitalise s :=
    zero_notMem_capitaliseFrom (fun h0 => Nat.lt_irrefl 0 (h.bytes 0 h0).1) _
  have htext := text_subset_of_lex _ (Nat.le_refl _) h.items
  intro h0
  have hmem : 0 ∈ capitalise (lineText n indent is) := zero_mem_capitaliseFrom h0 _
  rw [capitalise_lineText (fun i hi => hvalid i (by simp [hi]))] at hmem
  obtain ⟨p, hp, hmem⟩ := List.mem_flatMap.mp hmem
  have hitem := mem_of_spelt hp
  rcases List.mem_append.mp hmem with hmem | hmem
  · simp at hmem
  · rcases List.mem_append.mp hmem with hmem | hmem
    · exact hcap (htext _ hitem 0 hmem)
    · simp at hmem

/-- Words from one address on: one list is the beginning of the other. -/
theorem exists_append_of_wordsAt {mem : Memory} {a : ℕ} {ws vs : List ℕ} (hw : mem.WordsAt a ws)
    (hv : mem.WordsAt a vs) : ∃ x y, ws ++ x = vs ++ y := by
  induction ws generalizing a vs with
  | nil => exact ⟨vs, [], by simp⟩
  | cons w ws ih =>
    cases vs with
    | nil => exact ⟨[], w :: ws, by simp⟩
    | cons v vs =>
      obtain ⟨x, y, hxy⟩ := ih hw.2 hv.2
      exact ⟨x, y, by rw [List.cons_append, List.cons_append, hxy, ← hw.1, ← hv.1]⟩

/-- The items of closed words are determined. -/
theorem wordsOf_zero_inj {js : List Item} {x z : List ℕ} (his : ∀ i ∈ is, i.Valid)
    (hjs : ∀ j ∈ js, j.Valid) (h : wordsOf is ++ 0 :: x = wordsOf js ++ 0 :: z) : is = js := by
  -- no item begins with a zero word
  have hne : ∀ {i : Item}, i.Valid → ∀ {r y : List ℕ}, i.words ++ r ≠ 0 :: y := by
    intro i hi r y heq
    obtain ⟨w, ws, hw, hlead⟩ := words_head hi
    rw [hw, List.cons_append, List.cons.injEq] at heq
    cases i with
    | string chars =>
      rw [heq.1] at hw
      exact absurd (List.cons.inj hw).1 (Nat.succ_ne_zero _)
    | _ => simp_all [Item.Leads]
  induction is generalizing js with
  | nil =>
    cases js with
    | nil => rfl
    | cons j js =>
      rw [wordsOf_cons, List.append_assoc] at h
      exact absurd h.symm (hne (hjs j (by simp)))
  | cons i is ih =>
    cases js with
    | nil =>
      rw [wordsOf_cons, List.append_assoc] at h
      exact absurd h (hne (his i (by simp)))
    | cons j js =>
      rw [wordsOf_cons, wordsOf_cons, List.append_assoc, List.append_assoc] at h
      obtain ⟨rfl, hr⟩ := words_append_inj (his i (by simp)) (hjs j (by simp)) h
      rw [ih (fun i hi => his i (by simp [hi])) (fun j hj => hjs j (by simp [hj])) hr]

theorem Fails.not_ok {α : Type} {f : ℕ → Result α} {b : α} (h : Fails f) (hb : Settles f (.ok b)) :
    False := by
  obtain ⟨e, m, hf⟩ := h
  cases hf.unique hb

/-- What `Tokenise` makes of a listed line. -/
theorem tokenise_lineText_iff {m : Machine} {b z : ℕ} (h : Accepted s n is) (hn : n ≤ 32767)
    (hfar : m.far.BytesAt (b + 0x10000 * (z % 0x100)) (lineText n indent is ++ [0]))
    (hb : b + (lineText n indent is).length < 0x10000) (hbase : m.dBaseAddress % 0x100 = 0)
    (htop : m.dBaseAddress + 0x200 ≤ 0x10000) :
    (∃ m', Settles (fun fuel => tokenise fuel m b z) (.ok m') ∧
      m'.bank.WordsAt (m.dBaseAddress + blockTokenBuffer) (wordsOf (.const n :: is) ++ [0x0000])) ↔
      is.IsChain fun i j => ¬ Merges i j := by
  have hvalid := h.valid
  have his : ∀ i ∈ is, i.Valid := fun i hi => hvalid i (by simp [hi])
  have htok := tokenise_lex hfar hb (h.zero_notMem indent) hbase htop
  rw [← lex_lineText_iff his (show n < 100000 by omega) indent]
  constructor
  · rintro ⟨m₁, hset, hwords⟩
    cases hlex : lex (capitalise (lineText n indent is)) with
    | none =>
      rw [hlex] at htok
      exact (htok.not_ok hset).elim
    | some items =>
      rw [hlex] at htok
      simp only [Option.map_some, Tokenises] at htok
      split_ifs at htok with hshort
      · obtain ⟨m₂, hset₂, hwords₂⟩ := htok
        obtain rfl : m₁ = m₂ := Except.ok.inj (hset.unique hset₂)
        -- both lists of words are closed and stand in the buffer, so that their items are the same
        obtain ⟨x, y, hxy⟩ := exists_append_of_wordsAt hwords hwords₂
        rw [List.append_assoc, List.append_assoc] at hxy
        have hbytes : ∀ c ∈ capitalise (lineText n indent is), c < 256 := by
          rw [capitalise_lineText his]
          exact spell_lt _ fun p hp => hvalid _ (mem_of_spelt hp)
        rw [wordsOf_zero_inj hvalid
          (lex_valid _ (Nat.le_refl _) hlex hbytes (short_of_words hshort)) hxy]
      · exact (htok.not_ok hset).elim
  · intro hlex
    rw [hlex] at htok
    simpa only [Option.map_some, Tokenises, if_pos h.short] using htok

/-- **Listing and entering again**: the text of at most 255 characters that `Detokenise` writes for a
line is tokenised to the same line exactly when no neighbours in it merge. -/
theorem detokenise_tokenise_iff {m : Machine} {y a : ℕ} (h : Accepted s n is) (hn : n ≤ 32767)
    (hw : m.bank.WordsAt (y + 2) (n :: wordsOf is ++ [0x0000]))
    (hy : y + 4 + 2 * (wordsOf is).length + 2 ≤ a) (ha : a + 257 < 0x10000)
    (hwidth : (lineText n (min m.dIndent m.dIndent2) is).length ≤ 255) :
    ∃ m' text, Settles (fun fuel => detokenise fuel m y a) (.ok m') ∧ m'.bank.StringAt a text ∧
      ∀ (m₁ : Machine) (b z : ℕ), m₁.far.BytesAt (b + 0x10000 * (z % 0x100)) (text ++ [0]) →
        b + text.length < 0x10000 → m₁.dBaseAddress % 0x100 = 0 →
        m₁.dBaseAddress + 0x200 ≤ 0x10000 →
        ((∃ m₂, Settles (fun fuel => tokenise fuel m₁ b z) (.ok m₂) ∧
          m₂.bank.WordsAt (m₁.dBaseAddress + blockTokenBuffer)
            (wordsOf (.const n :: is) ++ [0x0000])) ↔ is.IsChain fun i j => ¬ Merges i j) := by
  have his : ∀ i ∈ is, i.Valid := fun i hi => h.valid i (by simp [hi])
  -- the number routine may clear the byte behind the buffer
  have hslack : is.getLast?.elim 0 Item.slack ≤ 1 := by
    cases is.getLast? with
    | none => exact Nat.zero_le _
    | some i => exact slack_le i
  obtain ⟨m', h', hset⟩ := detokenise_line (t := 256) his hn hw hy (by decide) ha hwidth
    (by omega)
  exact ⟨m', _, hset, h'.written.stringAt (by omega), fun m₁ b z hfar hb hbase htop =>
    tokenise_lineText_iff h hn hfar hb hbase htop⟩

end

/-- A workspace at `$4000` with one stored line. -/
def lineWorkspace (l : Line) : Machine :=
  { (default : Machine) with
    dBaseAddress := 0x4000, dHighAddress := 0x8000, dStack := basStack
    bank := (l.words ++ [0x0000]).zipIdx.foldl
      (fun (b : Memory) (w : ℕ × ℕ) => b.setWord (0x4200 + 2 * w.2) w.1) (default : Memory) }

/-- The line `10 a=1`. -/
theorem detokenise_tokenise_iff_assignment : ∃ m' text,
    Settles (fun fuel =>
        detokenise fuel (lineWorkspace ⟨10, [0xC001, 0x2206, 0x4001]⟩) 0x4200 0x7D00) (.ok m') ∧
      m'.bank.StringAt 0x7D00 text ∧
      ∀ (m₁ : Machine) (b z : ℕ), m₁.far.BytesAt (b + 0x10000 * (z % 0x100)) (text ++ [0]) →
        b + text.length < 0x10000 → m₁.dBaseAddress % 0x100 = 0 →
        m₁.dBaseAddress + 0x200 ≤ 0x10000 →
        ((∃ m₂, Settles (fun fuel => tokenise fuel m₁ b z) (.ok m₂) ∧
          m₂.bank.WordsAt (m₁.dBaseAddress + blockTokenBuffer)
            (wordsOf [.const 10, .ident [65] false false, .token 0x2206, .const 1] ++ [0x0000])) ↔
          [Item.ident [65] false false, .token 0x2206, .const 1].IsChain
            fun i j => ¬ Merges i j) := by
  have hacc : Accepted (ord "10 a=1") 10 [.ident [65] false false, .token 0x2206, .const 1] :=
    ⟨by decide, by rfl, by decide⟩
  exact detokenise_tokenise_iff hacc (by decide) (by decide) (by decide) (by decide)
    (by decide)

/-- The items of the line `rem one two`. -/
def remItems : List Item :=
  [.token 0x3E2C, .ident [79, 78, 69] false false, .ident [84, 87, 79] false false]

/-- The line `10 rem one two` is listed as `10    REM onetwo`, and that is another line. -/
theorem detokenise_tokenise_rem : Accepted (ord "10 rem one two") 10 remItems ∧
    (∃ m', Settles (fun fuel =>
        detokenise fuel (lineWorkspace ⟨10, wordsOf remItems⟩) 0x4200 0x7D00) (.ok m') ∧
      m'.bank.StringAt 0x7D00 (ord "10    REM onetwo")) ∧
    ∀ (m₁ : Machine) (b z : ℕ),
      m₁.far.BytesAt (b + 0x10000 * (z % 0x100)) (ord "10    REM onetwo" ++ [0]) →
      b + 16 < 0x10000 → m₁.dBaseAddress % 0x100 = 0 → m₁.dBaseAddress + 0x200 ≤ 0x10000 →
      ¬∃ m₂, Settles (fun fuel => tokenise fuel m₁ b z) (.ok m₂) ∧
        m₂.bank.WordsAt (m₁.dBaseAddress + blockTokenBuffer)
          (wordsOf (.const 10 :: remItems) ++ [0x0000]) := by
  have hacc : Accepted (ord "10 rem one two") 10 remItems :=
    ⟨by decide, by rfl, by decide⟩
  have htext : lineText 10 0 remItems = ord "10    REM onetwo" := by rfl
  have hvalid : ∀ i ∈ remItems, i.Valid := fun i hi => hacc.valid i (List.mem_cons_of_mem _ hi)
  refine ⟨hacc, ?_, fun m₁ b z hfar hb hbase htop hsame => ?_⟩
  · obtain ⟨m', h', hset⟩ := detokenise_line (m := lineWorkspace ⟨10, wordsOf remItems⟩)
      (y := 0x4200) (p := 0x7D00) (t := 255) (n := 10) hvalid (by decide) (by decide)
      (by decide) (by decide) (by decide) (by decide) (by decide)
    refine ⟨m', hset, ?_⟩
    have hstring := h'.written.stringAt (by decide)
    exact htext ▸ hstring
  · rw [← htext] at hfar
    have hlen : b + (lineText 10 0 remItems).length < 0x10000 := by
      rw [htext]
      exact hb
    have hchain := (tokenise_lineText_iff hacc (by decide) hfar hlen hbase htop).mp hsame
    have hmerge : Merges (.ident [79, 78, 69] false false) (.ident [84, 87, 79] false false) :=
      ⟨id, id, rfl, .inr ⟨rfl, .inr rfl⟩⟩
    rw [remItems, List.isChain_cons_cons, List.isChain_cons_cons] at hchain
    exact hchain.2.1 hmerge

end Basic65816
