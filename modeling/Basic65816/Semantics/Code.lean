import Basic65816.Loops.Scan

/-!
# The text of a program

A program is executed at a position: an address and the number of the line it is in. Its text is a list
of tokens and line ends. A loop that jumps back comes to the same text again, because the text depends
on nothing but the memory of the program.

## Main definitions

* `CodeAt`: a text between two positions
* `codeOf`: the text of the lines of a program
* `skims`: a scan along a text that neither finds a token nor leaves its level

## Main results

* `StoredAt.codeAt`: a stored program has the text of its lines
* `sflLoop_code`: the forward scanner passes over a text
-/

namespace Basic65816

/-- Between two positions is this text: tokens, and `none` for the end of a line with another line behind
it. The memory from `lo` to `hi` is looked at. -/
inductive CodeAt (mem : Memory) (lo hi : ℕ) : ℕ → ℕ → List (Option ℕ) → ℕ → ℕ → Prop
  | nil {p n : ℕ} : CodeAt mem lo hi p n [] p n
  | token {p n t q k : ℕ} {cs : List (Option ℕ)} (hlo : lo ≤ p) (hhi : p + 2 ≤ hi)
      (hword : mem.word p = t) (ht : 0x100 ≤ t) (h : CodeAt mem lo hi (p + 2) n cs q k) :
      CodeAt mem lo hi p n (some t :: cs) q k
  | line {p n j q k : ℕ} {cs : List (Option ℕ)} (hlo : lo ≤ p) (hhi : p + 6 ≤ hi)
      (hend : mem.word p = 0) (hlink : mem.word (p + 2) ≠ 0) (hnumber : mem.word (p + 4) = j)
      (hj : j ≠ 0) (h : CodeAt mem lo hi (p + 6) j cs q k) : CodeAt mem lo hi p n (none :: cs) q k

section

variable {mem : Memory} {lo hi p n q k r j a b x : ℕ} {cs ds : List (Option ℕ)} {ts : List ℕ}

theorem CodeAt.append (h : CodeAt mem lo hi p n cs q k) (h' : CodeAt mem lo hi q k ds r j) :
    CodeAt mem lo hi p n (cs ++ ds) r j := by
  induction h with
  | nil => exact h'
  | token hlo hhi hword ht _ ih => exact .token hlo hhi hword ht (ih h')
  | line hlo hhi hend hlink hnumber hj _ ih => exact .line hlo hhi hend hlink hnumber hj (ih h')

theorem CodeAt.split (h : CodeAt mem lo hi p n (cs ++ ds) r j) :
    ∃ q k, CodeAt mem lo hi p n cs q k ∧ CodeAt mem lo hi q k ds r j := by
  induction cs generalizing p n with
  | nil => exact ⟨p, n, .nil, h⟩
  | cons c cs ih =>
    cases h with
    | token hlo hhi hword ht h =>
      obtain ⟨q, k, h₁, h₂⟩ := ih h
      exact ⟨q, k, .token hlo hhi hword ht h₁, h₂⟩
    | line hlo hhi hend hlink hnumber hj h =>
      obtain ⟨q, k, h₁, h₂⟩ := ih h
      exact ⟨q, k, .line hlo hhi hend hlink hnumber hj h₁, h₂⟩

/-- Tokens of one line. -/
theorem CodeAt.tokens (h : CodeAt mem lo hi p n (ts.map some) q k) :
    mem.WordsAt p ts ∧ q = p + 2 * ts.length ∧ k = n := by
  induction ts generalizing p with
  | nil =>
    cases h
    exact ⟨trivial, rfl, rfl⟩
  | cons t ts ih =>
    cases h with
    | token hlo hhi hword ht h =>
      obtain ⟨h₁, rfl, rfl⟩ := ih h
      refine ⟨⟨hword, h₁⟩, ?_, rfl⟩
      rw [List.length_cons]
      omega

theorem CodeAt.of_tokens (hlo : lo ≤ p) (hhi : p + 2 * ts.length ≤ hi) (h : mem.WordsAt p ts)
    (ht : ∀ t ∈ ts, 0x100 ≤ t) : CodeAt mem lo hi p n (ts.map some) (p + 2 * ts.length) n := by
  induction ts generalizing p with
  | nil => exact .nil
  | cons t ts ih =>
    rw [List.length_cons] at hhi ⊢
    have htail := ih (p := p + 2) (by omega) (by omega) h.2 fun t ht' => ht t (by simp [ht'])
    rw [show p + 2 + 2 * ts.length = p + 2 * (ts.length + 1) by omega] at htail
    exact .token hlo (by omega) h.1 (ht t (by simp)) htail

theorem CodeAt.bounds (h : CodeAt mem lo hi p n cs q k) (hne : cs ≠ []) : lo ≤ p ∧ p + 2 ≤ hi := by
  cases h with
  | nil => exact (hne rfl).elim
  | token hlo hhi => exact ⟨hlo, hhi⟩
  | line hlo hhi => exact ⟨hlo, by omega⟩

theorem CodeAt.le (h : CodeAt mem lo hi p n cs q k) : p ≤ q ∧ (lo ≤ p → lo ≤ q) ∧ (p ≤ hi → q ≤ hi) := by
  induction h with
  | nil => exact ⟨Nat.le_refl _, id, id⟩
  | token => omega
  | line => omega

/-- The word at a position is the first token, or zero at the end of a line. -/
theorem CodeAt.word {c : Option ℕ} (h : CodeAt mem lo hi p n (c :: cs) q k) :
    mem.word p = c.getD 0 := by
  cases h with
  | token _ _ hword => exact hword
  | line _ _ hend => exact hend

theorem CodeAt.number (h : CodeAt mem lo hi p n cs q k) (hn : n ≠ 0 ∧ n < 0x10000) :
    k ≠ 0 ∧ k < 0x10000 := by
  induction h with
  | nil => exact hn
  | token _ _ _ _ _ ih => exact ih hn
  | line _ _ _ _ hnumber hj _ ih => exact ih ⟨hj, hnumber ▸ mem.word_lt _⟩

theorem CodeAt.lt (h : CodeAt mem lo hi p n cs q k) : ∀ t, some t ∈ cs → t < 0x10000 := by
  induction h with
  | nil =>
    intro t ht
    cases ht
  | token _ _ hword _ _ ih =>
    intro t ht
    rcases List.mem_cons.mp ht with he | ht
    · rw [Option.some.inj he, ← hword]
      exact mem.word_lt _
    · exact ih t ht
  | line _ _ _ _ _ _ _ ih =>
    intro t ht
    rcases List.mem_cons.mp ht with he | ht
    · cases he
    · exact ih t ht

/-! ## Stored programs -/

/-- The text of the lines of a program. -/
def codeOf : List Line → List (Option ℕ)
  | [] => []
  | [l] => l.tokens.map some
  | l :: ls => l.tokens.map some ++ none :: codeOf ls

/-- **A stored program** has the text of its lines; the program ends behind it. -/
theorem StoredAt.codeAt {l : Line} {ls : List Line} (h : StoredAt mem a (l :: ls)) (hlo : lo ≤ a)
    (hhi : a + sizeOfLines (l :: ls) + 2 ≤ hi)
    (hls : ∀ l' ∈ l :: ls, l'.number ≠ 0 ∧ ∀ t ∈ l'.tokens, 0x100 ≤ t) :
    ∃ q k, CodeAt mem lo hi (a + 4) l.number (codeOf (l :: ls)) q k ∧ mem.word q = 0 ∧
      mem.word (q + 2) = 0 ∧ q + 4 ≤ hi := by
  induction ls generalizing a l with
  | nil =>
    have hw := h.words
    rw [sizeOfLines_cons] at hhi
    have hlink := h.next.word_nil
    simp only [wordsOfLines, List.flatMap_cons, List.flatMap_nil, Line.words, List.append_nil,
      List.cons_append, List.append_assoc, Memory.wordsAt_cons, Memory.wordsAt_append] at hw
    obtain ⟨-, -, htokens, hend, -⟩ := hw
    refine ⟨a + 4 + 2 * l.tokens.length, l.number, ?_, hend, ?_, ?_⟩
    · exact .of_tokens (by omega) (by omega) htokens (hls l (by simp)).2
    · rw [← hlink]
      congr 1
      omega
    · omega
  | cons l' ls ih =>
    obtain ⟨q, k, hcode, hq, hq', hbound⟩ := ih h.next (by omega)
      (by rw [sizeOfLines_cons] at hhi; omega) fun s hs => hls s (List.mem_cons_of_mem l hs)
    have hw := h.words
    rw [sizeOfLines_cons, sizeOfLines_cons] at hhi
    simp only [wordsOfLines, List.flatMap_cons, Line.words, List.cons_append, List.append_assoc,
      Memory.wordsAt_cons, Memory.wordsAt_append] at hw
    obtain ⟨-, -, htokens, hend, -⟩ := hw
    have hoffset := h.next.word_offset
    have hnumber := h.next.word_number
    refine ⟨q, k, (CodeAt.of_tokens (by omega) (by omega) htokens (hls l (by simp)).2).append
      (.line (j := l'.number) (by omega) (by omega) hend ?_ ?_ (hls l' (by simp)).1 ?_),
      hq, hq', hbound⟩
    · rw [show a + 2 + 2 + 2 * l.tokens.length + 2 = a + (2 * l.tokens.length + 6) by omega, hoffset]
      omega
    · rw [← hnumber]
      congr 1
      omega
    · rw [show a + 2 + 2 + 2 * l.tokens.length + 6 = a + (2 * l.tokens.length + 6) + 4 by omega]
      exact hcode

/-! ## Scanning -/

/-- The level behind a text, from the level `x` on, if no token `a` or `b` is found on level 0 and the
level does not become negative. -/
def skims (a b : ℕ) : ℕ → List (Option ℕ) → Option ℕ
  | x, [] => some x
  | x, none :: cs => skims a b x cs
  | x, some t :: cs =>
    if (x : ℤ) = 0 ∧ (t = a ∨ t = b) then none
    else if (x : ℤ) + keywordLevel t < 0 then none
    else skims a b ((x : ℤ) + keywordLevel t).toNat cs

theorem skims_append : skims a b x (cs ++ ds) = (skims a b x cs).bind fun y => skims a b y ds := by
  induction cs generalizing x with
  | nil => rfl
  | cons c cs ih =>
    cases c with
    | none => exact ih
    | some t =>
      rw [List.cons_append, skims, skims]
      split_ifs
      · rfl
      · rfl
      · exact ih

/-- Tokens that leave the level alone. -/
theorem skims_tokens (h : ∀ t ∈ ts, keywordLevel t = 0 ∧ t ≠ a ∧ t ≠ b) :
    skims a b x (ts.map some) = some x := by
  induction ts with
  | nil => rfl
  | cons t ts ih =>
    obtain ⟨hlevel, ha, hb⟩ := h t (by simp)
    rw [List.map_cons, skims, if_neg (by simp [ha, hb]), hlevel, add_zero, if_neg (by omega),
      Int.toNat_natCast]
    exact ih fun t ht => h t (List.mem_cons_of_mem _ ht)

/-- **The forward scanner passes over a text** that is skimmed. By induction on the text; the level is
never above the code pointer, so that it does not wrap. -/
theorem sflLoop_code {m : Machine} {y : ℕ} (line : ℕ) (h : CodeAt mem lo hi p n cs q k)
    (hmem : mem.EqOn lo hi m.bank) (hhi : hi < 0x10000) (hskims : skims a b x cs = some y)
    (hx : x ≤ p) (hcode : m.dCodePtr = p) (hline : m.dLineNumber = n) :
    y ≤ q ∧ ∀ r, Settles (fun fuel => sflLoop a b line fuel
        { m with dCodePtr := q, dLineNumber := k } y) r →
      Settles (fun fuel => sflLoop a b line fuel m x) r := by
  induction h generalizing m x with
  | nil =>
    obtain rfl := Option.some.inj hskims
    subst hcode hline
    exact ⟨hx, fun r hr => hr⟩
  | @token p n t q k cs hlo hp hword ht h ih =>
    have hlevel := keywordLevel_le t
    have htoken : m.token = t := m.token_eq hcode ((hmem.word hlo hp).trans hword)
    have hsize : tokenSize t = 2 := if_neg (by omega)
    rw [skims] at hskims
    split_ifs at hskims with hfound hbelow
    have hstep := sflStep_token a b line htoken (by omega) (x := x) (by omega)
      (by rw [hsize]; omega)
    rw [if_neg hfound, if_neg hbelow, hsize, hcode] at hstep
    obtain ⟨hy, hrest⟩ := ih (m := { m with dCodePtr := p + 2 }) hmem hskims (by omega) rfl hline
    refine ⟨hy, fun r hr => (hrest r hr).unfold fun fuel => ?_⟩
    rw [sflLoop_succ, hstep]
  | @line p n j q k cs hlo hp hend hlink hnumber hj h ih =>
    have htoken : m.token = 0 := m.token_eq hcode ((hmem.word hlo (by omega)).trans hend)
    have hstep := sflStep_end a b line x htoken
    rw [hcode, hmem.word (by omega) (by omega), if_neg hlink, hmem.word (by omega) (by omega),
      hnumber, add16_eq (by omega)] at hstep
    obtain ⟨hy, hrest⟩ := ih (m := { m with dLineNumber := j, dCodePtr := p + 6 }) hmem hskims
      (by omega) rfl rfl
    refine ⟨hy, fun r hr => (hrest r hr).unfold fun fuel => ?_⟩
    rw [sflLoop_succ, hstep]

end

end Basic65816
