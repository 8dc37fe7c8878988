import Basic65816.Lexer.Assembler
import Basic65816.Lexer.Spelling

/-!
# Token words determine the items

The first word of an item tells its kind, and the words of a kind end where the item says: the
continuation bit of identifiers, the shift of constants, the header of strings. So a line of token
words comes from one list of items only.

## Main results

* `words_append_inj`: the first item of a line of words
* `wordsOf_inj`: the items of a line of words
-/

namespace Basic65816

open Builder

variable {c n v v' : ℕ} {r r' : List ℕ} {i j : Item} {is js : List Item}

/-! ## Identifiers -/

theorem typeBits_add_inj {isString isArray isString' isArray' : Bool} {x x' : ℕ} (hx : x < 0x1000)
    (hx' : x' < 0x1000) (h : typeBits isString isArray + x = typeBits isString' isArray' + x') :
    isString = isString' ∧ isArray = isArray' ∧ x = x' := by
  cases isString <;> cases isArray <;> cases isString' <;> cases isArray' <;>
    simp [typeBits] at h ⊢ <;> omega

/-- The code of a character in an identifier word. -/
def IsCode (c : ℕ) : Prop := 1 ≤ c ∧ c ≤ 36

theorem identWords_single (isString isArray : Bool) (a : ℕ) :
    identWords isString isArray (padEven [a]) = [typeBits isString isArray + a] := by
  have hpad : padEven [a] = [a, 0] := rfl
  rw [hpad, identWords, identWords]
  · cases isString <;> cases isArray <;> simp [typeBits] <;> omega
  · simp

/-- Identifier words determine the codes of the characters and the type. -/
theorem identWords_append_inj {isString isArray isString' isArray' : Bool} {cs ds : List ℕ}
    (hc : cs ≠ []) (hd : ds ≠ []) (hcs : ∀ c ∈ cs, IsCode c) (hds : ∀ d ∈ ds, IsCode d)
    (h : identWords isString isArray (padEven cs) ++ r =
      identWords isString' isArray' (padEven ds) ++ r') :
    cs = ds ∧ isString = isString' ∧ isArray = isArray' ∧ r = r' := by
  match cs, ds, hc, hd with
  | [a], [b], _, _ =>
    have ha := hcs a (by simp)
    have hb := hds b (by simp)
    unfold IsCode at ha hb
    simp only [identWords_single, List.singleton_append, List.cons.injEq] at h
    obtain ⟨h₁, h₂, h₃⟩ := typeBits_add_inj (by omega) (by omega) h.1
    exact ⟨by rw [h₃], h₁, h₂, h.2⟩
  | [a], b :: b' :: ds, _, _ =>
    -- a second character is worth 45 or more
    have ha := hcs a (by simp)
    have hb := hds b (by simp)
    have hb' := hds b' (by simp)
    unfold IsCode at ha hb hb'
    simp only [identWords_single, identWords_cons_cons, List.cons_append, List.cons.injEq,
      Nat.add_assoc] at h
    obtain ⟨-, -, h₃⟩ := typeBits_add_inj (by omega) (by split_ifs <;> omega) h.1
    split_ifs at h₃ <;> omega
  | a :: a' :: cs, [b], _, _ =>
    have ha := hcs a (by simp)
    have ha' := hcs a' (by simp)
    have hb := hds b (by simp)
    unfold IsCode at ha ha' hb
    simp only [identWords_single, identWords_cons_cons, List.cons_append, List.cons.injEq,
      Nat.add_assoc] at h
    obtain ⟨-, -, h₃⟩ := typeBits_add_inj (by split_ifs <;> omega) (by omega) h.1
    split_ifs at h₃ <;> omega
  | a :: a' :: cs, b :: b' :: ds, _, _ =>
    have ha := hcs a (by simp)
    have ha' := hcs a' (by simp)
    have hb := hds b (by simp)
    have hb' := hds b' (by simp)
    unfold IsCode at ha ha' hb hb'
    simp only [identWords_cons_cons, List.cons_append, List.cons.injEq, Nat.add_assoc] at h
    obtain ⟨h₁, h₂, h₃⟩ :=
      typeBits_add_inj (by split_ifs <;> omega) (by split_ifs <;> omega) h.1
    by_cases hc : cs = [] <;> by_cases hd : ds = []
    · subst hc hd
      simp only [if_true] at h₃
      obtain rfl : a = b := by omega
      obtain rfl : a' = b' := by omega
      exact ⟨rfl, h₁, h₂, h.2⟩
    · rw [if_pos hc, if_neg hd] at h₃
      omega
    · rw [if_neg hc, if_pos hd] at h₃
      omega
    · rw [if_neg hc, if_neg hd] at h₃
      obtain rfl : a = b := by omega
      obtain rfl : a' = b' := by omega
      obtain ⟨rfl, -, -, hr⟩ := identWords_append_inj hc hd (fun c hc => hcs c (by simp [hc]))
        (fun d hd => hds d (by simp [hd])) h.2
      exact ⟨rfl, h₁, h₂, hr⟩

theorem convert_isCode (hc : isNameChar c) : IsCode (convert c) := by
  simp only [isNameChar, Bool.or_eq_true, Bool.and_eq_true, decide_eq_true_eq] at hc
  unfold IsCode convert
  split_ifs <;> omega

theorem convert_inj {d : ℕ} (hc : isNameChar c) (hd : isNameChar d) (h : convert c = convert d) :
    c = d := by
  simp only [isNameChar, Bool.or_eq_true, Bool.and_eq_true, decide_eq_true_eq] at hc hd
  unfold convert at h
  split_ifs at h <;> omega

theorem map_convert_inj {w w' : List ℕ} (hw : ∀ c ∈ w, isNameChar c) (hw' : ∀ c ∈ w', isNameChar c)
    (h : w.map convert = w'.map convert) : w = w' := by
  induction w generalizing w' with
  | nil => simpa [eq_comm] using h
  | cons c w ih =>
    cases w' with
    | nil => simp at h
    | cons d w' =>
      simp only [List.map_cons, List.cons.injEq] at h
      rw [convert_inj (hw c (by simp)) (hw' d (by simp)) h.1,
        ih (fun c hc => hw c (by simp [hc])) (fun d hd => hw' d (by simp [hd])) h.2]

/-! ## Constants and strings -/

theorem shift_eq (hv : v < 0x8000000) : v / 0x8000 ||| 0x1000 = 0x1000 + v / 0x8000 := by
  have h := or_high (w := v / 0x8000) (h := 1) (by omega)
  simpa using h

theorem constWords_append_inj (hv : v < 0x8000000) (hv' : v' < 0x8000000)
    (h : constWords v ++ r = constWords v' ++ r') : v = v' ∧ r = r' := by
  unfold constWords at h
  rw [shift_eq hv, shift_eq hv'] at h
  split_ifs at h <;>
    simp only [List.cons_append, List.nil_append, List.cons.injEq] at h
  · exact ⟨by omega, h.2.2⟩
  · omega
  · omega
  · exact ⟨by omega, h.2⟩

theorem byteWords_inj {bs bs' : List ℕ} (h₂ : bs.length % 2 = 0) (h₂' : bs'.length % 2 = 0)
    (hb : ∀ b ∈ bs, b < 256) (hb' : ∀ b ∈ bs', b < 256) (h : byteWords bs = byteWords bs') :
    bs = bs' := by
  match bs, bs' with
  | [], [] => rfl
  | [], _ :: _ :: _ => simp [byteWords] at h
  | _ :: _ :: _, [] => simp [byteWords] at h
  | [_], _ => simp at h₂
  | _, [_] => simp at h₂'
  | a :: b :: bs, a' :: b' :: bs' =>
    have ha := hb a (by simp)
    have ha' := hb' a' (by simp)
    simp only [byteWords, List.cons.injEq] at h
    simp only [List.length_cons] at h₂ h₂'
    rw [byteWords_inj (by omega) (by omega) (fun b hc => hb b (by simp [hc]))
      (fun b hc => hb' b (by simp [hc])) h.2]
    simp only [List.cons.injEq, and_true]
    omega

theorem padEven_prefix (bs : List ℕ) : bs <+: padEven bs := by
  unfold padEven
  split_ifs
  · exact List.prefix_refl _
  · exact List.prefix_append _ _

theorem mem_padEven_lt {bs : List ℕ} (hb : ∀ b ∈ bs, b < 256) : ∀ b ∈ padEven bs, b < 256 := by
  intro b hmem
  unfold padEven at hmem
  split_ifs at hmem
  · exact hb b hmem
  · rcases List.mem_append.mp hmem with h | h
    · exact hb b h
    · rw [List.mem_singleton.mp h]
      decide

theorem stringWords_append_inj {cs ds : List ℕ} (hcs : (Item.string cs).Valid)
    (hds : (Item.string ds).Valid) (h : stringWords cs ++ r = stringWords ds ++ r') :
    cs = ds ∧ r = r' := by
  obtain ⟨-, hcl, hcb⟩ := hcs
  obtain ⟨-, hdl, hdb⟩ := hds
  simp only [stringWords, List.cons_append, List.cons.injEq] at h
  have hlc := length_padEven (cs.length :: cs)
  have hld := length_padEven (ds.length :: ds)
  have hbytes := List.append_inj h.2 (by simp only [length_byteWords]; omega)
  have hpad := byteWords_inj (by omega) (by omega)
    (mem_padEven_lt fun b hb => by
      rcases List.mem_cons.mp hb with rfl | hb
      · omega
      · exact hcb b hb)
    (mem_padEven_lt fun b hb => by
      rcases List.mem_cons.mp hb with rfl | hb
      · omega
      · exact hdb b hb) hbytes.1
  -- the padded lists begin with the lengths, which say where the characters end
  have hp := padEven_prefix (cs.length :: cs)
  have hq := padEven_prefix (ds.length :: ds)
  rw [hpad] at hp
  have hlen : cs.length = ds.length := by
    obtain ⟨t, ht⟩ := hp
    obtain ⟨u, hu⟩ := hq
    rw [← hu, List.cons_append, List.cons_append, List.cons.injEq] at ht
    exact ht.1
  have he := (List.prefix_of_prefix_length_le hp hq (by simp [hlen])).eq_of_length (by simp [hlen])
  exact ⟨(List.cons.inj he).2, hbytes.2⟩

/-! ## Items -/

/-- The words that begin an item of a kind. -/
def Item.Leads : Item → ℕ → Prop
  | .token _, w => 0x2000 ≤ w ∧ w < 0x4000
  | .ident .., w => 0xC000 ≤ w
  | .const _, w => 0x1000 ≤ w ∧ w < 0x2000 ∨ 0x4000 ≤ w ∧ w < 0xC000
  | .string _, w => w < 0x100

/-- The first word of an item tells its kind. -/
theorem words_head (hi : i.Valid) : ∃ w ws, i.words = w :: ws ∧ i.Leads w := by
  cases i with
  | token t =>
    obtain ⟨k, hk, rfl⟩ := hi
    exact ⟨_, _, rfl, id_ge_of_mem k hk, id_lt_of_mem k hk⟩
  | ident name isString isArray =>
    obtain ⟨c, r, rfl, -⟩ := hi.1.head
    have hge := identWords_ge isString isArray (padEven ((c :: r).map convert))
    have hne : (Item.ident (c :: r) isString isArray).words ≠ [] := by
      cases r with
      | nil => simp [Item.words, identWords_single]
      | cons d r => simp [Item.words, identWords_cons_cons]
    obtain ⟨w, ws, hw⟩ := List.exists_cons_of_ne_nil hne
    refine ⟨w, ws, hw, hge w ?_⟩
    rw [show identWords isString isArray (padEven ((c :: r).map convert)) = w :: ws from hw]
    simp
  | const v =>
    have hv : v < 0x8000000 := hi
    by_cases h : 32768 ≤ v
    · refine ⟨_, _, by rw [Item.words, constWords, if_pos h]; rfl, ?_⟩
      rw [shift_eq hv]
      exact .inl ⟨by omega, by omega⟩
    · refine ⟨_, _, by rw [Item.words, constWords, if_neg h]; rfl, ?_⟩
      exact .inr ⟨by omega, by omega⟩
  | string chars =>
    refine ⟨_, _, rfl, ?_⟩
    have hl := hi.2.1
    rw [Item.Leads, length_padEven, List.length_cons]
    omega

/-- **The first item** of a line of words is determined, and so is the rest. -/
theorem words_append_inj (hi : i.Valid) (hj : j.Valid) (h : i.words ++ r = j.words ++ r') :
    i = j ∧ r = r' := by
  obtain ⟨w, ws, hw, hleads⟩ := words_head hi
  obtain ⟨w', ws', hw', hleads'⟩ := words_head hj
  have hhead : w = w' := by
    rw [hw, hw', List.cons_append, List.cons_append] at h
    exact (List.cons.inj h).1
  subst hhead
  cases i with
  | token t =>
    cases j with
    | token u =>
      simp only [Item.words, List.singleton_append, List.cons.injEq] at h
      exact ⟨by rw [h.1], h.2⟩
    | _ => simp only [Item.Leads] at hleads hleads'; omega
  | ident name isString isArray =>
    cases j with
    | ident name' isString' isArray' =>
      obtain ⟨c, s, rfl, -⟩ := hi.1.head
      obtain ⟨d, s', rfl, -⟩ := hj.1.head
      have hcode : ∀ {w : List ℕ}, Named w → ∀ x ∈ w.map convert, IsCode x := fun hw x hx => by
        obtain ⟨y, hy, rfl⟩ := List.mem_map.mp hx
        exact convert_isCode (hw.chars y hy)
      obtain ⟨hmap, rfl, rfl, hr⟩ := identWords_append_inj (by simp) (by simp) (hcode hi.1)
        (hcode hj.1) h
      exact ⟨by rw [map_convert_inj hi.1.chars hj.1.chars hmap], hr⟩
    | _ => simp only [Item.Leads] at hleads hleads'; omega
  | const v =>
    cases j with
    | const v' =>
      obtain ⟨rfl, hr⟩ := constWords_append_inj hi hj h
      exact ⟨rfl, hr⟩
    | _ => simp only [Item.Leads] at hleads hleads'; omega
  | string cs =>
    cases j with
    | string ds =>
      obtain ⟨rfl, hr⟩ := stringWords_append_inj hi hj h
      exact ⟨rfl, hr⟩
    | _ => simp only [Item.Leads] at hleads hleads'; omega

/-- **The items of a line of words** are determined. -/
theorem wordsOf_inj (his : ∀ i ∈ is, i.Valid) (hjs : ∀ j ∈ js, j.Valid)
    (h : wordsOf is = wordsOf js) : is = js := by
  induction is generalizing js with
  | nil =>
    cases js with
    | nil => rfl
    | cons j js =>
      obtain ⟨w, ws, hw, -⟩ := words_head (hjs j (by simp))
      simp [hw] at h
  | cons i is ih =>
    cases js with
    | nil =>
      obtain ⟨w, ws, hw, -⟩ := words_head (his i (by simp))
      simp [hw] at h
    | cons j js =>
      obtain ⟨rfl, hr⟩ := words_append_inj (his i (by simp)) (hjs j (by simp)) h
      rw [ih (fun i hi => his i (by simp [hi])) (fun j hj => hjs j (by simp [hj])) hr]

/-! ## Word bounds -/

theorem identWords_lt (isString isArray : Bool) {cs : List ℕ} (hcs : ∀ c ∈ cs, IsCode c) :
    ∀ w ∈ identWords isString isArray (padEven cs), w < 0x10000 := by
  match cs with
  | [] => simp [padEven, identWords]
  | [a] =>
    have ha := hcs a (by simp)
    have ht := (typeBits_mod isString isArray).2
    unfold IsCode at ha
    intro w hw
    rw [identWords_single, List.mem_singleton] at hw
    omega
  | a :: b :: cs =>
    have ha := hcs a (by simp)
    have hb := hcs b (by simp)
    have ht := (typeBits_mod isString isArray).2
    unfold IsCode at ha hb
    intro w hw
    rw [identWords_cons_cons, List.mem_cons] at hw
    rcases hw with rfl | hw
    · split_ifs <;> omega
    · exact identWords_lt isString isArray (fun c hc => hcs c (by simp [hc])) w hw

theorem byteWords_lt {bs : List ℕ} (hb : ∀ b ∈ bs, b < 256) : ∀ w ∈ byteWords bs, w < 0x10000 := by
  match bs with
  | [] | [_] => simp [byteWords]
  | a :: b :: bs =>
    have ha := hb a (by simp)
    have hb' := hb b (by simp)
    intro w hw
    rw [byteWords, List.mem_cons] at hw
    rcases hw with rfl | hw
    · omega
    · exact byteWords_lt (fun b hc => hb b (by simp [hc])) w hw

/-- The words of an item are words. -/
theorem words_lt (hi : i.Valid) : ∀ w ∈ i.words, w < 0x10000 := by
  cases i with
  | token t =>
    obtain ⟨k, hk, rfl⟩ := hi
    intro w hw
    have := id_lt_of_mem k hk
    rw [List.mem_singleton.mp hw]
    omega
  | ident name isString isArray =>
    exact identWords_lt isString isArray fun x hx => by
      obtain ⟨y, hy, rfl⟩ := List.mem_map.mp hx
      exact convert_isCode (hi.1.chars y hy)
  | const v =>
    have hv : v < 0x8000000 := hi
    intro w hw
    rw [Item.words, constWords, shift_eq hv] at hw
    split_ifs at hw <;>
      simp only [List.cons_append, List.nil_append, List.mem_cons, List.not_mem_nil, or_false] at hw
    · rcases hw with rfl | rfl <;> omega
    · omega
  | string chars =>
    obtain ⟨-, hl, hb⟩ := hi
    intro w hw
    rw [Item.words, stringWords, List.mem_cons] at hw
    rcases hw with rfl | hw
    · rw [length_padEven, List.length_cons]
      omega
    · refine byteWords_lt (mem_padEven_lt fun b hc => ?_) w hw
      rcases List.mem_cons.mp hc with rfl | hc
      · omega
      · exact hb b hc

theorem wordsOf_lt (his : ∀ i ∈ is, i.Valid) : ∀ w ∈ wordsOf is, w < 0x10000 := by
  intro w hw
  obtain ⟨i, hi, hw⟩ := List.mem_flatMap.mp hw
  exact words_lt (his i hi) w hw

end Basic65816
