import Basic65816.Lexer.Words
import Basic65816.Machine.List
import Basic65816.Strings.Numeral

/-!
# The text of a listed line

A listed line is its number, spaces up to the indentation and the text of its items. Identifiers are
in lower case, tokens as they stand in the token text; only keywords have spaces around them, and
none in front where a space or a colon is already there.

## Main definitions

* `Item.listed`, `lineText`: the text of an item, and of a line
* `Narrow`: the text of a line fits in the buffer

## Main results

* `listItems_length`: every item adds characters
* `dtkdEntry_mem`: the token text of a token is its name
-/

namespace Basic65816

/-- The keywords among the tokens. -/
def isKeyword (t : ℕ) : Prop := (t &&& 0x1800) ^^^ 0x1800 = 0

instance (t : ℕ) : Decidable (isKeyword t) := inferInstanceAs (Decidable (_ = _))

/-- The text of an item in a listing, behind the character `last`. -/
def Item.listed (last : ℕ) : Item → List ℕ
  | .token t =>
    if isKeyword t then (if last = 32 ∨ last = 58 then [] else [32]) ++ tokenName t ++ [32]
    else tokenName t
  | .ident name isString isArray => name.map lowerChar ++ suffixes isString isArray
  | .const value => decimal value
  | .string chars => 34 :: (chars ++ [34])

/-- The items `is` listed behind the text `s`. -/
def listItems : List ℕ → List Item → List ℕ
  | s, [] => s
  | s, i :: is => listItems (s ++ i.listed (s.getLastD 0)) is

/-- The number of a line, and spaces up to the tokens. -/
def lineStart (n indent : ℕ) : List ℕ :=
  decimal n ++ List.replicate (6 + 2 * indent - (decimal n).length) 32

/-- The text of the line `n` with the items `is`. -/
def lineText (n indent : ℕ) (is : List Item) : List ℕ := listItems (lineStart n indent) is

/-- The number routine clears the byte behind a constant. -/
def Item.slack : Item → ℕ
  | .const _ => 1
  | _ => 0

/-- The text of the line `n` fits in the buffer of 256 bytes, which begins with the length. -/
def Narrow (n indent : ℕ) (is : List Item) : Prop :=
  (lineText n indent is).length + is.getLast?.elim 0 Item.slack ≤ 255

instance (n indent : ℕ) (is : List Item) : Decidable (Narrow n indent is) :=
  inferInstanceAs (Decidable (_ ≤ _))

/-! ## Lengths -/

section

variable {i : Item} {is : List Item} {s : List ℕ} {n : ℕ}

theorem name_ne_nil_of_mem : ∀ k ∈ tokenList, k.name.map upperChar ≠ [] := by decide

theorem decimal_ne_nil (n : ℕ) : decimal n ≠ [] := (decimal_spec n).2.1

theorem listed_ne_nil (hi : i.Valid) (last : ℕ) : i.listed last ≠ [] := by
  cases i with
  | token t =>
    obtain ⟨k, hk, rfl⟩ := hi
    dsimp only [Item.listed]
    rw [tokenName_id hk]
    split_ifs
    · simp
    · simp
    · exact name_ne_nil_of_mem k hk
  | ident name isString isArray =>
    obtain ⟨⟨-, c, r, rfl, -⟩, -⟩ := hi
    simp [Item.listed]
  | const value => exact decimal_ne_nil value
  | string chars => simp [Item.listed]

theorem length_le_listItems (s : List ℕ) (is : List Item) : s.length ≤ (listItems s is).length := by
  induction is generalizing s with
  | nil => exact le_refl _
  | cons i is ih =>
    refine le_trans ?_ (ih _)
    rw [List.length_append]
    exact Nat.le_add_right _ _

/-- Every item adds characters. -/
theorem length_lt_listItems (his : ∀ i ∈ is, i.Valid) (hne : is ≠ []) (s : List ℕ) :
    s.length < (listItems s is).length := by
  obtain ⟨i, js, rfl⟩ := List.exists_cons_of_ne_nil hne
  refine lt_of_lt_of_le ?_ (length_le_listItems _ js)
  rw [List.length_append]
  exact Nat.lt_add_of_pos_right (List.length_pos_iff.mpr (listed_ne_nil (his i (by simp)) _))

end

/-! ## Tokens -/

/-- The entries of the token text are the tokens, counted from 1. -/
theorem id_of_mem_zipIdx : ∀ k ∈ tokenList.zipIdx, k.1.id &&& 0x01FF = k.2 + 1 := by decide

theorem dtkdWorkThrough_get (es : List TokenEntry) (m : Machine) (y x : ℕ) {e : TokenEntry}
    (h : es[y]? = some e) :
    ∃ d, dtkdWorkThrough es m (y + 1) x = .ok (e, { m with dTemp1 := d }) := by
  induction es generalizing m y x with
  | nil => cases h
  | cons e' es ih =>
    cases y with
    | zero =>
      obtain rfl := Option.some.inj h
      exact ⟨m.dTemp1, if_pos rfl⟩
    | succ y =>
      obtain ⟨d, hd⟩ := ih { m with dTemp1 := x } y (x + e'.byte % 16) (by simpa using h)
      refine ⟨d, ?_⟩
      rw [dtkdWorkThrough, if_neg (by omega), Nat.add_sub_cancel, hd]

/-- The token text of a token is its name. -/
theorem dtkdEntry_mem {k : Token} (hk : k ∈ tokenList) :
    ∃ e : TokenEntry, e.text = tokenName k.id ∧
      ∀ m, ∃ d, dtkdEntry m k.id = .ok (e, { m with dTemp1 := d }) := by
  obtain ⟨y, hy, rfl⟩ := List.getElem_of_mem hk
  have hid := id_of_mem_zipIdx (tokenList[y], y) (List.mk_mem_zipIdx_iff_getElem?.mpr (by simp [hy]))
  dsimp only at hid
  have hget : tokenText[y]? = some ⟨(tokenList[y].name.length + 1) + tokenList[y].type * 16,
      tokenList[y].name.map upperChar⟩ := by
    unfold tokenText
    rw [List.getElem?_map, List.getElem?_eq_getElem hy]
    rfl
  refine ⟨⟨(tokenList[y].name.length + 1) + tokenList[y].type * 16,
    tokenList[y].name.map upperChar⟩, (tokenName_id (List.getElem_mem hy)).symm, fun m => ?_⟩
  obtain ⟨d, hd⟩ := dtkdWorkThrough_get tokenText m y 0 hget
  refine ⟨d, ?_⟩
  rw [dtkdEntry, hid, if_neg (Nat.succ_ne_zero y), hd]

end Basic65816
