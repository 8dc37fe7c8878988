import Basic65816.Lib.Bytes

/-!
# Programs

A program is a list of lines with ascending numbers. Entering a line removes the old line of that
number and, when tokens follow the number, adds the new one in its place. Seen as a map from line
numbers to tokens this is the update of one key.

## Main definitions

* `Line`, `Program`: a program as a list of lines
* `Program.edit`: the effect of entering a line
* `Line.words`, `wordsOfLines`: the stored form

## Main results

* `Program.find?_edit`: an edit changes the entered line only
* `Program.ext_find?`: a program is determined by its lines
-/

namespace Basic65816

/-- A program line. -/
structure Line where
  number : ℕ
  tokens : List ℕ
  deriving DecidableEq, Repr

/-- A program: the line numbers are in range and ascend. -/
structure Program where
  lines : List Line
  ascending : lines.Pairwise fun k l => k.number < l.number
  numbered : ∀ l ∈ lines, 1 ≤ l.number ∧ l.number ≤ 32767

namespace Program

/-- The program without lines. -/
def empty : Program := ⟨[], .nil, by simp⟩

/-- The tokens of line `n`. -/
def find? (p : Program) (n : ℕ) : Option (List ℕ) :=
  (p.lines.find? fun l => l.number == n).map Line.tokens

/-- Remove line `n`. -/
def delete (p : Program) (n : ℕ) : Program where
  lines := p.lines.filter fun l => l.number ≠ n
  ascending := p.ascending.filter _
  numbered l hl := p.numbered l (List.mem_of_mem_filter hl)

/-- The lines with `l` added before the first line of a greater number. -/
def insertLine (l : Line) (ls : List Line) : List Line :=
  ls.takeWhile (fun k => k.number < l.number) ++
    l :: ls.dropWhile fun k => k.number < l.number

variable {p q : Program} {n k : ℕ} {ts : List ℕ} {l : Line} {ls : List Line}

theorem mem_insertLine {k : Line} : k ∈ insertLine l ls ↔ k = l ∨ k ∈ ls := by
  have h : k ∈ ls ↔ k ∈ ls.takeWhile (fun k => k.number < l.number) ∨
      k ∈ ls.dropWhile fun k => k.number < l.number := by
    rw [← List.mem_append, List.takeWhile_append_dropWhile]
  rw [insertLine, List.mem_append, List.mem_cons, h]
  tauto

theorem pairwise_insertLine (hls : ls.Pairwise fun k l => k.number < l.number)
    (hl : ∀ k ∈ ls, k.number ≠ l.number) :
    (insertLine l ls).Pairwise fun k l => k.number < l.number := by
  induction ls with
  | nil => simp [insertLine]
  | cons k ls ih =>
    rw [List.pairwise_cons] at hls
    have hk := hl k (by simp)
    by_cases h : k.number < l.number
    · have hins : insertLine l (k :: ls) = k :: insertLine l ls := by
        simp [insertLine, h]
      rw [hins, List.pairwise_cons]
      refine ⟨fun j hj => ?_, ih hls.2 fun j hj => hl j (by simp [hj])⟩
      rcases mem_insertLine.mp hj with rfl | hj
      · exact h
      · exact hls.1 j hj
    · have hins : insertLine l (k :: ls) = l :: k :: ls := by
        simp [insertLine, h]
      rw [hins, List.pairwise_cons, List.pairwise_cons]
      refine ⟨fun j hj => ?_, hls⟩
      rcases List.mem_cons.mp hj with rfl | hj
      · omega
      · have := hls.1 j hj
        omega

/-- Add the line `l`, whose number must be free. -/
def insert (p : Program) (l : Line) (hl : 1 ≤ l.number ∧ l.number ≤ 32767)
    (hfree : ∀ k ∈ p.lines, k.number ≠ l.number) : Program where
  lines := insertLine l p.lines
  ascending := pairwise_insertLine p.ascending hfree
  numbered k hk := by
    rcases mem_insertLine.mp hk with rfl | hk
    · exact hl
    · exact p.numbered k hk

theorem number_ne_of_mem_delete {l : Line} (h : l ∈ (p.delete n).lines) : l.number ≠ n := by
  simpa using (List.mem_filter.mp h).2

/-- Enter the line `n` with the tokens `ts`. -/
def edit (p : Program) (n : ℕ) (ts : List ℕ) (hn : 1 ≤ n ∧ n ≤ 32767) : Program :=
  if ts = [] then p.delete n
  else (p.delete n).insert ⟨n, ts⟩ hn fun _ hk => number_ne_of_mem_delete hk

/-! ## A program as a map -/

theorem nodup_numbers (p : Program) : (p.lines.map Line.number).Nodup :=
  List.pairwise_map.mpr (p.ascending.imp Nat.ne_of_lt)

theorem find?_eq_some_iff : p.find? n = some ts ↔ ⟨n, ts⟩ ∈ p.lines := by
  rw [find?, Option.map_eq_some_iff]
  constructor
  · rintro ⟨l, hl, rfl⟩
    have hn : l.number = n := by simpa using List.find?_some hl
    subst hn
    exact List.mem_of_find?_eq_some hl
  · intro hmem
    cases hf : p.lines.find? fun l => l.number == n with
    | none =>
      have := List.find?_eq_none.mp hf _ hmem
      simp at this
    | some l =>
      have hn : l.number = n := by simpa using List.find?_some hf
      exact ⟨l, rfl, by
        rw [List.inj_on_of_nodup_map p.nodup_numbers (List.mem_of_find?_eq_some hf) hmem hn]⟩

theorem mem_edit_iff {l : Line} {hn : 1 ≤ n ∧ n ≤ 32767} :
    l ∈ (p.edit n ts hn).lines ↔ (l.number ≠ n ∧ l ∈ p.lines) ∨ (ts ≠ [] ∧ l = ⟨n, ts⟩) := by
  have hdel : l ∈ (p.delete n).lines ↔ l.number ≠ n ∧ l ∈ p.lines := by
    simp [delete, and_comm]
  unfold edit
  split_ifs with hts
  · rw [hdel]
    tauto
  · rw [insert, mem_insertLine, hdel]
    tauto

/-- **An edit is the update of one key**: the entered line is set, or removed when there are no
tokens, and every other line is as before. -/
theorem find?_edit (p : Program) (ts : List ℕ) (hn : 1 ≤ n ∧ n ≤ 32767) (k : ℕ) :
    (p.edit n ts hn).find? k =
      if k = n then (if ts = [] then none else some ts) else p.find? k := by
  refine Option.ext fun us => ?_
  rw [find?_eq_some_iff, mem_edit_iff]
  split_ifs with hk hts
  · simp [hk, hts]
  · subst hk
    simp [hts, eq_comm]
  · rw [find?_eq_some_iff]
    simp [hk]

/-- A program is determined by its map. -/
theorem ext_find? (h : ∀ n, p.find? n = q.find? n) : p = q := by
  have hmem : ∀ l, l ∈ p.lines ↔ l ∈ q.lines := fun l => by
    rw [← find?_eq_some_iff (n := l.number), h, find?_eq_some_iff]
  have hirrefl : Std.Irrefl fun k l : Line => k.number < l.number := ⟨fun l => Nat.lt_irrefl _⟩
  have hasymm : Std.Antisymm fun k l : Line => k.number < l.number :=
    ⟨fun k l h h' => absurd h (Nat.lt_asymm h')⟩
  have hlines : p.lines = q.lines := p.ascending.eq_of_mem_iff q.ascending hmem
  cases p
  cases q
  cases hlines
  rfl

end Program

/-! ## The stored form -/

/-- A stored line: the offset to the next line, the line number, the tokens and a zero. -/
def Line.words (l : Line) : List ℕ := (2 * l.tokens.length + 6) :: l.number :: (l.tokens ++ [0x0000])

/-- The stored lines, without the closing zero offset. -/
def wordsOfLines (ls : List Line) : List ℕ := ls.flatMap Line.words

/-- The number of bytes the lines take. -/
def sizeOfLines (ls : List Line) : ℕ := 2 * (wordsOfLines ls).length

theorem Line.length_words (l : Line) : 2 * l.words.length = 2 * l.tokens.length + 6 := by
  simp only [words, List.length_cons, List.length_append, List.length_nil]
  omega

@[simp] theorem wordsOfLines_nil : wordsOfLines [] = [] := rfl

@[simp] theorem wordsOfLines_cons (l : Line) (ls : List Line) :
    wordsOfLines (l :: ls) = l.words ++ wordsOfLines ls := rfl

@[simp] theorem wordsOfLines_append (ks ls : List Line) :
    wordsOfLines (ks ++ ls) = wordsOfLines ks ++ wordsOfLines ls := by
  simp [wordsOfLines]

@[simp] theorem sizeOfLines_nil : sizeOfLines [] = 0 := rfl

@[simp] theorem sizeOfLines_cons (l : Line) (ls : List Line) :
    sizeOfLines (l :: ls) = 2 * l.tokens.length + 6 + sizeOfLines ls := by
  have := l.length_words
  simp only [sizeOfLines, wordsOfLines_cons, List.length_append]
  omega

@[simp] theorem sizeOfLines_append (ks ls : List Line) :
    sizeOfLines (ks ++ ls) = sizeOfLines ks + sizeOfLines ls := by
  simp only [sizeOfLines, wordsOfLines_append, List.length_append]
  omega

end Basic65816
