import Basic65816.Lexer.Item

/-!
# Token lines

The interpreter walks over tokens without knowing what they mean: a word below `$100` is the header
of a quoted string and gives the distance to the token behind it, every other word is a token of its
own.

## Main results

* `tokenLine_tokenise`: the words of a tokenised line have this form
-/

namespace Basic65816

/-- A sequence of tokens and quoted strings. -/
inductive TokenLine : List ℕ → Prop
  | nil : TokenLine []
  | token {t : ℕ} {ts : List ℕ} : 0x100 ≤ t → TokenLine ts → TokenLine (t :: ts)
  | string {header : ℕ} {body ts : List ℕ} : header = 2 * (body.length + 1) → header < 0x100 →
      TokenLine ts → TokenLine (header :: (body ++ ts))

open Builder

variable {s ts us : List ℕ}

theorem TokenLine.append (h : TokenLine ts) (h' : TokenLine us) : TokenLine (ts ++ us) := by
  induction h with
  | nil => exact h'
  | token ht _ ih => exact .token ht ih
  | string hh hlt _ ih =>
    rw [List.cons_append, List.append_assoc]
    exact .string hh hlt ih

theorem TokenLine.of_forall (h : ∀ t ∈ ts, 0x100 ≤ t) : TokenLine ts := by
  induction ts with
  | nil => exact .nil
  | cons t ts ih => exact .token (h t (by simp)) (ih fun u hu => h u (by simp [hu]))

theorem id_ge_of_mem : ∀ t ∈ tokenList, 0x2000 ≤ t.id := by decide

theorem identWords_ge (isString isArray : Bool) (cs : List ℕ) :
    ∀ w ∈ identWords isString isArray cs, 0xC000 ≤ w := by
  induction cs using identWords.induct isString isArray with
  | case1 a b rest ih =>
    intro w hw
    simp only [identWords, List.mem_cons] at hw
    rcases hw with rfl | hw
    · split_ifs <;> omega
    · exact ih w hw
  | case2 cs hcs =>
    intro w hw
    rw [identWords] at hw
    · simp at hw
    · exact hcs

theorem length_byteWords (bs : List ℕ) : (byteWords bs).length = bs.length / 2 := by
  induction bs using byteWords.induct with
  | case1 b₀ b₁ bs ih => simp only [byteWords, List.length_cons, ih]; omega
  | case2 bs hbs =>
    cases bs with
    | nil => rfl
    | cons b bs => cases bs with
      | nil => simp [byteWords]
      | cons b' bs => exact absurd rfl (hbs b b' bs)

theorem length_padEven (bs : List ℕ) : (padEven bs).length = (bs.length + 1) / 2 * 2 := by
  unfold padEven
  split_ifs
  · omega
  · simp only [List.length_append, List.length_singleton]
    omega

theorem tokenLine_constWords (value : ℕ) : TokenLine (constWords value) := by
  refine .of_forall fun t ht => ?_
  have h : 0x1000 ≤ value / 0x8000 ||| 0x1000 := Nat.right_le_or
  unfold constWords at ht
  split_ifs at ht
  · simp only [List.cons_append, List.nil_append, List.mem_cons, List.not_mem_nil, or_false] at ht
    rcases ht with rfl | rfl <;> omega
  · simp only [List.nil_append, List.mem_singleton] at ht
    omega

/-- The header of a string gives the distance to its end. -/
theorem tokenLine_stringWords {chars : List ℕ} (hl : chars.length < 252) :
    TokenLine (stringWords chars) := by
  have h : TokenLine (((padEven (chars.length :: chars)).length / 2 * 2 + 2) ::
      (byteWords (padEven (chars.length :: chars)) ++ [])) :=
    .string (by rw [length_byteWords]; omega) (by rw [length_padEven, List.length_cons]; omega) .nil
  rwa [List.append_nil] at h

theorem tokenLine_tokeniseOne {ws rest : List ℕ} (h : tokeniseOne s = some (ws, rest)) :
    TokenLine ws := by
  have hid : ∀ {s : List ℕ} {t : Token} {b : Bool}, findToken s b = some t → TokenLine [t.id] :=
    fun hf => .of_forall fun u hu => by
      have hmem := (List.mem_insertionSort _).mp (List.mem_of_find?_eq_some hf)
      have hge := id_ge_of_mem _ hmem
      rw [List.mem_singleton.mp hu]
      omega
  unfold tokeniseOne at h
  by_cases hl : (s.head?.map isLetter).getD false = true
  · rw [if_pos hl] at h
    simp only [Option.some.injEq, tokeniseIdent] at h
    split at h
    · rename_i t hf
      cases h
      exact hid hf
    · cases h
      exact .of_forall fun w hw => by
        have := identWords_ge _ _ _ w hw
        omega
  · rw [if_neg hl] at h
    split at h
    · rename_i t hf
      cases h
      exact hid hf
    · by_cases hd : (s.head?.map isDigit).getD false = true
      · rw [if_pos hd] at h
        dsimp only at h
        split_ifs at h
        cases h
        exact tokenLine_constWords _
      · rw [if_neg hd] at h
        split at h
        · unfold tokeniseString at h
          dsimp only at h
          split at h
          · cases h
          · split_ifs at h with hlen
            cases h
            exact tokenLine_stringWords hlen
        · cases h

theorem tokenLine_tokeniseLoop {n : ℕ} (h : tokeniseLoop n s = some ts) : TokenLine ts := by
  induction n generalizing s ts with
  | zero =>
    simp only [tokeniseLoop] at h
    split_ifs at h
    cases h
    exact .nil
  | succ n ih =>
    simp only [tokeniseLoop] at h
    split_ifs at h
    · cases h
      exact .nil
    · simp only [Option.bind_eq_bind, Option.bind_eq_some_iff, Option.some.injEq] at h
      obtain ⟨⟨ws, rest⟩, hone, more, hmore, rfl⟩ := h
      exact (tokenLine_tokeniseOne hone).append (ih hmore)

/-- **Tokenised lines are token lines.** -/
theorem tokenLine_tokenise (h : Builder.tokenise s = some ts) : TokenLine ts :=
  tokenLine_tokeniseLoop h

end Basic65816
