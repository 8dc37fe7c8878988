import Basic65816.Lexer.Assembler
import Basic65816.Listing.Detokenise

/-!
# Identifiers

The characters of an identifier are packed in pairs. Every word has the type bits, and every word but the
last one the continuation bit, so that the words end where the last character does: they are no beginning
of the words of another identifier.

## Main results

* `identWords_form`: the bits of the words
* `ident_words_prefix`: words that begin other words
* `identifier_packing`: an identifier from the text to the listing
-/

namespace Basic65816

open Builder

variable {m m₁ : Machine} {name name' s : List ℕ}

/-! ## The words -/

/-- The bits of one word. -/
theorem identWord_masks (isString isArray more : Bool) {x : ℕ} (hpos : 0 < x) (hx : x < 0x800) :
    let w := typeBits isString isArray + x + if more then 0x0800 else 0
    (0xC001 ≤ w ∧ w ≤ 0xFFFF) ∧ (w &&& idContMask = 0 ↔ more = false) ∧
      (w &&& idTypeMask = 0 ↔ isString = false) ∧ (w &&& idArrayMask = 0 ↔ isArray = false) := by
  intro w
  obtain ⟨-, -, hmore, harray, hstring⟩ := identWord_fields isString isArray more hx
  refine ⟨?_, (and_two_pow_eq_zero _ 11).trans hmore, (and_two_pow_eq_zero _ 13).trans hstring,
    (and_two_pow_eq_zero _ 12).trans harray⟩
  have hbits := (typeBits_mod isString isArray).2
  have hlow : 0xC000 ≤ typeBits isString isArray := by
    unfold typeBits
    omega
  have hw : w = typeBits isString isArray + x + if more then 0x0800 else 0 := rfl
  split_ifs at hw <;> omega

/-- **The words of an identifier**: the last word is the only one without the continuation bit. By
induction on the characters, two at a time. -/
theorem identWords_form (isString isArray : Bool) {cs : List ℕ} (hne : cs ≠ [])
    (hcs : ∀ c ∈ cs, IsCode c) : ∃ ws w, identWords isString isArray (padEven cs) = ws ++ [w] ∧
      (∀ u ∈ ws, u &&& idContMask ≠ 0) ∧ w &&& idContMask = 0 ∧
      ∀ u ∈ ws ++ [w], (0xC001 ≤ u ∧ u ≤ 0xFFFF) ∧ (u &&& idTypeMask = 0 ↔ isString = false) ∧
        (u &&& idArrayMask = 0 ↔ isArray = false) := by
  match cs with
  | [a] =>
    have ha := hcs a (by simp)
    unfold IsCode at ha
    obtain ⟨hrange, hmore, htype⟩ := identWord_masks isString isArray false (x := a) (by omega) (by omega)
    refine ⟨[], _, identWords_single isString isArray a, fun u hu => absurd hu List.not_mem_nil,
      hmore.mpr rfl, fun u hu => ?_⟩
    rw [List.nil_append, List.mem_singleton] at hu
    rw [hu]
    exact ⟨hrange, htype⟩
  | a :: b :: cs =>
    have ha := hcs a (by simp)
    have hb := hcs b (by simp)
    unfold IsCode at ha hb
    rw [identWords_cons_cons]
    by_cases hc : cs = []
    · subst hc
      obtain ⟨hrange, hmore, htype⟩ :=
        identWord_masks isString isArray false (x := a + b * 45) (by omega) (by omega)
      refine ⟨[], _, rfl, fun u hu => absurd hu List.not_mem_nil, hmore.mpr rfl, fun u hu => ?_⟩
      rw [List.nil_append, List.mem_singleton] at hu
      rw [hu]
      exact ⟨hrange, htype⟩
    · obtain ⟨ws, w, heq, hcont, hlast, hall⟩ := identWords_form isString isArray hc
        fun c hc => hcs c (by simp [hc])
      obtain ⟨hrange, hmore, htype⟩ :=
        identWord_masks isString isArray true (x := a + b * 45) (by omega) (by omega)
      rw [if_neg hc, heq]
      refine ⟨_ :: ws, w, rfl, ?_, hlast, ?_⟩
      · intro u hu
        rcases List.mem_cons.mp hu with rfl | hu
        · exact fun h => Bool.noConfusion (hmore.mp h)
        · exact hcont u hu
      · intro u hu
        rcases List.mem_cons.mp hu with rfl | hu
        · exact ⟨hrange, htype⟩
        · exact hall u hu

theorem convert_codes (h : Named name) : name.map convert ≠ [] ∧ ∀ c ∈ name.map convert, IsCode c := by
  obtain ⟨c, r, rfl, -⟩ := h.head
  refine ⟨by simp, fun x hx => ?_⟩
  obtain ⟨y, hy, rfl⟩ := List.mem_map.mp hx
  exact convert_isCode (h.chars y hy)

/-- **Identifiers end by themselves**: the words of one do not begin the words of another. -/
theorem ident_words_prefix {isString isArray isString' isArray' : Bool} (h : Named name)
    (h' : Named name') (hpre : (Item.ident name isString isArray).words <+:
      (Item.ident name' isString' isArray').words) :
    name = name' ∧ isString = isString' ∧ isArray = isArray' := by
  obtain ⟨hne, hcode⟩ := convert_codes h
  obtain ⟨hne', hcode'⟩ := convert_codes h'
  obtain ⟨r, hr⟩ := hpre
  obtain ⟨hmap, hstring, harray, -⟩ := identWords_append_inj hne hne' hcode hcode'
    (hr.trans (List.append_nil _).symm)
  exact ⟨map_convert_inj h.chars h'.chars hmap, hstring, harray⟩

/-! ## The tokeniser and the listing -/

/-- An identifier that is not a keyword is written as its words. -/
theorem tokIdentifier_ident {buf : ℕ} {ws rest : List ℕ} {isString isArray : Bool} (h : Named name)
    (hkey : keyword (name ++ suffixes isString isArray) = none)
    (hstop : ¬ Basic65816.Continues isString isArray (rest.headD 0))
    (hr : Reads m (name ++ (suffixes isString isArray ++ rest))) (hw : Written m buf ws)
    (hroom : (ws ++ (Item.ident name isString isArray).words).length < 128) :
    ∃ m', Settles (fun fuel => tokIdentifier fuel m) (.ok m') ∧ Reads m' rest ∧
      Written m' buf (ws ++ (Item.ident name isString isArray).words) := by
  have hlex : lexName (name ++ (suffixes isString isArray ++ rest)) =
      (.ident name isString isArray, rest) := by
    rw [lexName_stops h hstop, nameItem, hkey]
  obtain ⟨c, r, hcr, -⟩ := h.head
  have hc : isNameChar c = true := h.chars c (by rw [hcr]; exact List.mem_cons_self)
  have hemits : Emits (fun fuel => tokIdentifier fuel m) buf
      (lexName (name ++ (suffixes isString isArray ++ rest))).2
      (ws ++ (lexName (name ++ (suffixes isString isArray ++ rest))).1.words) := by
    subst hcr
    exact emits_tokIdentifier hc hr hw
  rw [hlex] at hemits
  unfold Emits at hemits
  rwa [if_pos hroom] at hemits

/-- **Packing an identifier is lossless.** The identifier is typed as `w`, with letters of either case, and
is not a keyword. Its words are in the range of identifiers, have the type bits, and the continuation bit
everywhere but at the end; they determine the identifier, even from their beginning; and the listing
writes the identifier in lower case. -/
theorem identifier_packing (w : List ℕ) (isString isArray : Bool) (hw : Named (w.map upperChar))
    (hkey : keyword (w.map upperChar ++ suffixes isString isArray) = none) :
    let words := (Item.ident (w.map upperChar) isString isArray).words
    -- the tokeniser, on the capitalised text
    (∀ m buf us rest, Reads m (w.map upperChar ++ (suffixes isString isArray ++ rest)) →
      ¬ Basic65816.Continues isString isArray (rest.headD 0) → Written m buf us →
      (us ++ words).length < 128 → ∃ m', Settles (fun fuel => tokIdentifier fuel m) (.ok m') ∧
        Reads m' rest ∧ Written m' buf (us ++ words)) ∧
    -- the form
    (∃ us u, words = us ++ [u] ∧ (∀ v ∈ us, v &&& idContMask ≠ 0) ∧ u &&& idContMask = 0 ∧
      ∀ v ∈ words, (0xC001 ≤ v ∧ v ≤ 0xFFFF) ∧ (v &&& idTypeMask = 0 ↔ isString = false) ∧
        (v &&& idArrayMask = 0 ↔ isArray = false)) ∧
    -- other identifiers
    (∀ (w' : List ℕ) isString' isArray', Named (w'.map upperChar) →
      words <+: (Item.ident (w'.map upperChar) isString' isArray').words →
      w.map upperChar = w'.map upperChar ∧ isString = isString' ∧ isArray = isArray') ∧
    -- the listing, behind the text `s`
    ∀ (m m₁ : Machine) p t s y, m.Expanded p t s m₁ → m.bank.WordsAt y words →
      y + 2 * words.length ≤ p → (s ++ (w.map lowerChar ++ suffixes isString isArray)).length ≤ 255 →
      255 ≤ t → p + t + 1 < 0x10000 →
      ∃ m', m.Expanded p t (s ++ (w.map lowerChar ++ suffixes isString isArray)) m' ∧
        Settles (fun fuel => dtkIdentifier fuel m₁ y) (.ok (y + 2 * words.length, m')) := by
  intro words
  obtain ⟨hne, hcode⟩ := convert_codes hw
  refine ⟨?_, ?_, ?_, ?_⟩
  · intro m buf us rest hr hstop hwritten hroom
    exact tokIdentifier_ident hw hkey hstop hr hwritten hroom
  · obtain ⟨us, u, heq, hcont, hlast, hall⟩ := identWords_form isString isArray hne hcode
    refine ⟨us, u, heq, hcont, hlast, fun v hv => hall v ?_⟩
    rwa [← heq]
  · intro w' isString' isArray' hw' hpre
    exact ident_words_prefix hw hw' hpre
  · intro m m₁ p t s y h hwords hy hroom ht hp
    have hlower : (Item.ident (w.map upperChar) isString isArray).listed (s.getLastD 0) =
        w.map lowerChar ++ suffixes isString isArray := by
      rw [Item.listed, List.map_map]
      congr 1
      exact List.map_congr_left fun c _ => lowerChar_upperChar c
    have hexp := dtkIdentifier_expanded isString isArray hw h hwords hy
      (by rw [hlower]; exact hroom.trans ht) hp
    rw [hlower] at hexp
    exact hexp.2

/-- `ab1$`. -/
theorem identifier_packing_three : ∃ us u,
    (Item.ident (ord "AB1") true false).words = us ++ [u] ∧ u &&& idContMask = 0 := by
  obtain ⟨-, ⟨us, u, heq, -, hlast, -⟩, -⟩ := identifier_packing (ord "ab1") true false
    ⟨by decide, ⟨65, [66, 49], by decide, by decide⟩⟩ (by rfl)
  exact ⟨us, u, heq, hlast⟩

end Basic65816
