import Basic65816.Listing.Detokenise
import Basic65816.Program.Session

/-!
# Listing a program

`list` expands one line after the other into its buffer. Nothing bounds the text of a line: it stays
inside the buffer when every listed line is narrow, and what is stored stays as it is.

## Main definitions

* `indentBehind`: the indentation behind a line
* `ListsNarrow`: the lines that are listed are narrow
* `Machine.KeepsWorkspace`: program, variables and permanent strings are as they were
* `ListsInside`: a listing comes to an end and writes only in its buffer

## Main results

* `scanIndent_items`: the keywords of a line change the indentation
* `cliNextLine_lines`: the lines of a program are listed
* `commandList_settles`: one run shows where a listing settles
* `list_inside`: narrow lines are listed inside the buffer
-/

namespace Basic65816

open Builder

/-- The indentation behind an item that stands at the indentation `d`. -/
def Item.indent (d : ℕ) : Item → ℕ
  | .token t =>
    if t &&& 15 <<< 9 = 14 <<< 9 then add16 d 1
    else if t &&& 15 <<< 9 = 13 <<< 9 then (if sub16 d 1 < 0x8000 then sub16 d 1 else 0)
    else d
  | _ => d

/-- The indentation behind the items `is`. -/
def indentBehind (d : ℕ) (is : List Item) : ℕ := is.foldl Item.indent d

/-- The lines with numbers from `first` to `last` are narrow; a line is indented by the smaller of
the indentations in front of it and behind it. -/
def ListsNarrow (first last : ℕ) : ℕ → List ItemLine → Prop
  | _, [] => True
  | d, l :: ls =>
    (first ≤ l.number → l.number ≤ last →
      Narrow l.number (min (indentBehind d l.items) d) l.items) ∧
      ListsNarrow first last (indentBehind d l.items) ls

section

variable {m m₁ : Machine} {a d x y : ℕ} {r : Result Machine} {ws : List ℕ} {i : Item}
  {is : List Item} {p : Program} {ls : List ItemLine}

/-! ## Indentation -/

theorem token_mask : ∀ k ∈ tokenList, k.id &&& 0xE000 = 0x2000 := by decide

theorem ne_token_mask {w : ℕ} (h : w / 0x2000 % 8 ≠ 1) : w &&& 0xE000 ≠ 0x2000 := by
  intro heq
  have hshift : (w &&& 0xE000) >>> 13 = 1 := by
    rw [heq]
    decide
  rw [Nat.shiftRight_and_distrib, Nat.shiftRight_eq_div_pow] at hshift
  exact h ((Nat.and_two_pow_sub_one_eq_mod _ 3).symm.trans hshift)

/-- Words other than tokens are skipped. By induction on the words. -/
theorem siLoop_skip (hw : m.bank.WordsAt y ws) (hws : ∀ w ∈ ws, 0x0100 ≤ w ∧ w / 0x2000 % 8 ≠ 1)
    (hy : y + 2 * ws.length < 0x10000)
    (h : Settles (fun fuel => siLoop fuel m (y + 2 * ws.length)) r) :
    Settles (fun fuel => siLoop fuel m y) r := by
  induction ws generalizing y with
  | nil => exact h
  | cons w ws ih =>
    rw [List.length_cons] at hy h
    obtain ⟨hge, hmask⟩ := hws w (by simp)
    have hrest := ih hw.2 (fun v hv => hws v (by simp [hv])) (by omega)
      (by rwa [show y + 2 + 2 * ws.length = y + 2 * (ws.length + 1) by omega])
    refine hrest.unfold fun fuel => ?_
    have hword : m.bank.word y = w := hw.1
    rw [siLoop]
    dsimp only
    rw [hword, if_neg (by omega), if_neg (by omega), if_pos (ne_token_mask hmask),
      add16_eq (by omega)]

/-- An item changes the indentation. -/
theorem siLoop_item (hi : i.Valid) (hw : m.bank.WordsAt y i.words)
    (hy : y + 2 * i.words.length < 0x10000)
    (h : Settles (fun fuel =>
      siLoop fuel { m with dIndent := i.indent m.dIndent } (y + 2 * i.words.length)) r) :
    Settles (fun fuel => siLoop fuel m y) r := by
  cases i with
  | token t =>
    obtain ⟨k, hk, rfl⟩ := hi
    have hge := id_ge_of_mem k hk
    have hword : m.bank.word y = k.id := hw.1
    have hone : 2 * (Item.token k.id).words.length = 2 := rfl
    rw [hone] at h hy
    have hnext : add16 y 2 = y + 2 := add16_eq (by omega)
    refine h.unfold fun fuel => ?_
    rw [siLoop]
    dsimp only
    rw [hword, if_neg (by omega), if_neg (by omega), if_neg (not_not.mpr (token_mask k hk)), hnext]
    -- types 14 and 13 open and close, the others leave the indentation as it is
    dsimp only [Item.indent]
    split_ifs <;> rfl
  | ident name isString isArray =>
    refine siLoop_skip hw (fun w hmem => ?_) hy h
    have hge := identWords_ge isString isArray _ w hmem
    have hlt := hw.lt w hmem
    omega
  | const v =>
    have hv : v < 0x8000000 := hi
    refine siLoop_skip hw (fun w hmem => ?_) hy h
    change w ∈ constWords v at hmem
    unfold constWords at hmem
    rw [shift_eq hv] at hmem
    split_ifs at hmem
    · rcases List.mem_append.mp hmem with hmem | hmem
      · rw [List.mem_singleton] at hmem
        omega
      · rw [List.mem_singleton] at hmem
        omega
    · rw [List.nil_append, List.mem_singleton] at hmem
      omega
  | string chars =>
    obtain ⟨-, hl, -⟩ := hi
    have hlen := length_padEven (chars.length :: chars)
    rw [List.length_cons] at hlen
    have hword : m.bank.word y = (padEven (chars.length :: chars)).length / 2 * 2 + 2 := hw.1
    -- the header of a string is the distance to the next item
    have hwords : 2 * (Item.string chars).words.length =
        (padEven (chars.length :: chars)).length / 2 * 2 + 2 := by
      simp only [Item.words, stringWords, List.length_cons, length_byteWords]
      omega
    rw [hwords] at h hy
    refine h.unfold fun fuel => ?_
    rw [siLoop]
    dsimp only
    rw [hword, if_neg (by omega), if_pos (by omega), add16_eq (by omega)]
    rfl

/-- **The keywords of a line** change the indentation. -/
theorem siLoop_items (his : ∀ i ∈ is, i.Valid) (hw : m.bank.WordsAt y (wordsOf is ++ [0x0000]))
    (hy : y + 2 * (wordsOf is).length < 0x10000) :
    Settles (fun fuel => siLoop fuel m y)
      (.ok { m with dIndent := indentBehind m.dIndent is }) := by
  induction is generalizing m y with
  | nil =>
    have hword : m.bank.word y = 0 := hw.1
    refine Settles.succ (.of_forall fun fuel => ?_)
    rw [siLoop]
    dsimp only
    rw [if_pos hword]
    rfl
  | cons i is ih =>
    rw [wordsOf_cons, List.append_assoc, Memory.wordsAt_append] at hw
    rw [wordsOf_cons, List.length_append] at hy
    exact siLoop_item (his i (by simp)) hw.1 (by omega)
      (ih (m := { m with dIndent := i.indent m.dIndent }) (fun j hj => his j (by simp [hj])) hw.2
        (by omega))

theorem scanIndent_items (his : ∀ i ∈ is, i.Valid)
    (hw : m.bank.WordsAt (y + 4) (wordsOf is ++ [0x0000]))
    (hy : y + 4 + 2 * (wordsOf is).length < 0x10000) :
    Settles (fun fuel => scanIndent fuel m y)
      (.ok { m with dIndent := indentBehind m.dIndent is, dIndent2 := m.dIndent }) := by
  have hset := siLoop_items (m := { m with dIndent2 := m.dIndent }) his hw (by omega)
  refine hset.congr fun fuel => ?_
  rw [scanIndent, add16_eq (by omega)]

/-! ## The lines -/

/-- What listing leaves alone: the bank outside the buffer at `a`, and its own registers. -/
structure Machine.Listed (m : Machine) (a : ℕ) (m' : Machine) : Prop where
  base : m'.dBaseAddress = m.dBaseAddress
  high : m'.dHighAddress = m.dHighAddress
  first : m'.dTemp4 = m.dTemp4
  last : m'.dTemp4H = m.dTemp4H
  buffer : m'.dListBuffer = m.dListBuffer
  bank : m.bank.EqOff a (a + 256) m'.bank

theorem Machine.Listed.trans {m₂ : Machine} (h : m.Listed a m₁) (h' : m₁.Listed a m₂) :
    m.Listed a m₂ :=
  ⟨h'.base.trans h.base, h'.high.trans h.high, h'.first.trans h.first, h'.last.trans h.last,
    h'.buffer.trans h.buffer, h.bank.trans h'.bank⟩

/-- One line is scanned, and listed when its number is in the range. -/
theorem cliNextLine_line {l : ItemLine}
    (hstored : StoredAt m.bank y (l.line :: ls.map ItemLine.line))
    (hend : y + sizeOfLines (l.line :: ls.map ItemLine.line) + 2 ≤ a) (ha : a + 256 < 0x10000)
    (hbuffer : m.dListBuffer = a) (hn : l.number ≤ 32767)
    (hnarrow : m.dTemp4 ≤ l.number → l.number ≤ m.dTemp4H →
      Narrow l.number (min (indentBehind m.dIndent l.items) m.dIndent) l.items) :
    ∃ m₁, m.Listed a m₁ ∧ m₁.dIndent = indentBehind m.dIndent l.items ∧ ∀ r,
      Settles (fun fuel => cliNextLine fuel m₁ (y + (2 * l.line.tokens.length + 6))) r →
        Settles (fun fuel => cliNextLine fuel m y) r := by
  have htokens : l.line.tokens = wordsOf l.items := rfl
  have hwords : m.bank.WordsAt (y + 2) (l.number :: wordsOf l.items ++ [0x0000]) := by
    have hall := hstored.words
    rw [wordsOfLines_cons, List.append_assoc, Memory.wordsAt_append] at hall
    exact hall.1.2
  rw [sizeOfLines_cons, htokens] at hend
  have hscan := scanIndent_items l.valid hwords.2 (by omega)
  -- the state behind the scan of the line
  obtain ⟨m₂, hm₂⟩ : ∃ m₂, m₂ = { m with
      dIndent := indentBehind m.dIndent l.items, dIndent2 := m.dIndent } := ⟨_, rfl⟩
  rw [← hm₂] at hscan
  have hnumber : m₂.bank.word (y + 2) = l.number := by
    rw [hm₂]
    exact hwords.1
  have hoffset : ∀ m₁ : Machine, m.bank.EqOff a (a + 256) m₁.bank →
      add16 y (m₁.bank.word y) = y + (2 * l.line.tokens.length + 6) := fun m₁ hoff => by
    rw [hoff.word (.inl (by omega)), hstored.add16_offset]
  have hne : m.bank.word y ≠ 0 := by
    rw [hstored.word_offset]
    omega
  by_cases hrange : l.number < m.dTemp4 ∨ m.dTemp4H < l.number
  · -- a line outside the range is scanned only
    refine ⟨m₂, ?_, by rw [hm₂], fun r hr => ?_⟩
    · rw [hm₂]
      exact ⟨rfl, rfl, rfl, rfl, rfl, .refl _ _ _⟩
    · refine (hscan.bind (g := fun fuel m => do
        let n := m.bank.word (y + 2)
        let m ←
          if n < m.dTemp4 ∨ m.dTemp4H < n then .ok m else detokenise fuel m y m.dListBuffer
        cliNextLine fuel m (add16 y (m.bank.word y))) ?_).unfold fun fuel => ?_
      · refine hr.congr fun fuel => ?_
        dsimp only
        rw [hnumber, if_pos (by rw [hm₂]; exact hrange), ok_bind,
          hoffset m₂ (by rw [hm₂]; exact .refl _ _ _)]
      · rw [cliNextLine, if_neg hne]
  · -- a line in the range is expanded into the buffer, which is behind the program
    rw [not_or, Nat.not_lt, Nat.not_lt] at hrange
    have hfits : Narrow l.number (min m₂.dIndent m₂.dIndent2) l.items := by
      rw [hm₂]
      exact hnarrow hrange.1 hrange.2
    obtain ⟨m₃, h₃, hset⟩ := detokenise_line (m := m₂) (p := a) (t := 255) l.valid hn
      (by rw [hm₂]; exact hwords) (by omega) (Nat.le_refl _) ha
      ((Nat.le_add_right _ _).trans hfits) hfits
    have hlisted : m.Listed a m₃ := by
      refine ⟨h₃.written.base.trans ?_, h₃.written.high.trans ?_, h₃.keeps.first.trans ?_,
        h₃.keeps.last.trans ?_, h₃.keeps.buffer.trans ?_, ?_⟩
      · rw [hm₂]; rfl
      · rw [hm₂]; rfl
      · rw [hm₂]
      · rw [hm₂]
      · rw [hm₂]
      · have hbank := h₃.written.bank
        rw [hm₂] at hbank
        exact hbank
    refine ⟨m₃, hlisted, ?_, fun r hr => ?_⟩
    · exact h₃.keeps.indent.trans (by rw [hm₂])
    · refine (hscan.bind (g := fun fuel m => do
        let n := m.bank.word (y + 2)
        let m ←
          if n < m.dTemp4 ∨ m.dTemp4H < n then .ok m else detokenise fuel m y m.dListBuffer
        cliNextLine fuel m (add16 y (m.bank.word y))) ?_).unfold fun fuel => ?_
      · refine (hset.bind (g := fun fuel m => cliNextLine fuel m (add16 y (m.bank.word y)))
          ?_).congr fun fuel => ?_
        · refine hr.congr fun fuel => ?_
          rw [hoffset m₃ hlisted.bank]
        · dsimp only
          rw [hnumber, if_neg (by rw [hm₂, not_or, Nat.not_lt, Nat.not_lt]; exact hrange),
            show m₂.dListBuffer = a by rw [hm₂]; exact hbuffer]
      · rw [cliNextLine, if_neg hne]

/-- **The lines of a program** are listed. By induction on the lines. -/
theorem cliNextLine_lines (hstored : StoredAt m.bank y (ls.map ItemLine.line))
    (hend : y + sizeOfLines (ls.map ItemLine.line) + 2 ≤ a) (ha : a + 256 < 0x10000)
    (hbuffer : m.dListBuffer = a) (hn : ∀ l ∈ ls, l.number ≤ 32767)
    (hnarrow : ListsNarrow m.dTemp4 m.dTemp4H m.dIndent ls) :
    ∃ m', m.Listed a m' ∧ Settles (fun fuel => cliNextLine fuel m y) (.ok m') := by
  induction ls generalizing m y with
  | nil =>
    have hword : m.bank.word y = 0 := hstored.word_nil
    refine ⟨{ m with dIndent := 0 }, ⟨rfl, rfl, rfl, rfl, rfl, .refl _ _ _⟩,
      Settles.succ (.of_forall fun fuel => ?_)⟩
    rw [cliNextLine, if_pos hword]
  | cons l ls ih =>
    rw [List.map_cons] at hstored hend
    obtain ⟨m₁, h₁, hindent, hrun⟩ := cliNextLine_line hstored hend ha hbuffer (hn l (by simp))
      hnarrow.1
    have hsize := sizeOfLines_cons l.line (ls.map ItemLine.line)
    obtain ⟨m', h', hset⟩ := ih (hstored.next.congr ((h₁.bank.eqOn (.inl (by omega)))))
      (by omega) (h₁.buffer.trans hbuffer) (fun k hk => hn k (by simp [hk]))
      (by rw [h₁.first, h₁.last, hindent]; exact hnarrow.2)
    exact ⟨m', h₁.trans h', hrun _ hset⟩

/-! ## Fuel

More fuel gives the same listing, so that one run shows where a listing settles. -/

/-- More fuel gives the same. -/
def SameWithMore {α : Type} (f : ℕ → Result α) : Prop :=
  ∀ k, Outcome (fun _ => True) anyStop (f k) (f (k + 1))

theorem SameWithMore.settles {α : Type} {f : ℕ → Result α} (h : SameWithMore f) {n : ℕ} {b : α}
    (hn : f n = .ok b) : Settles f (.ok b) := by
  refine .of_le (n := n) fun k hk => ?_
  induction k, hk using Nat.le_induction with
  | base => exact hn
  | succ k _ ih =>
    have hone := h k
    rw [ih] at hone
    exact hone.agree

theorem outcome_self {α : Type} (r : Result α) : Outcome (fun _ => True) anyStop r r :=
  .self (fun _ _ => trivial) fun _ _ => trivial

theorem siLoop_more (fuel : ℕ) (m : Machine) (y : ℕ) :
    Outcome (fun _ => True) anyStop (siLoop fuel m y) (siLoop (fuel + 1) m y) := by
  induction fuel generalizing m y with
  | zero => exact .error trivial
  | succ fuel ih =>
    refine .ite (fun _ => .ok trivial) fun _ => .ite (fun _ => ih _ _) fun _ => ?_
    refine .ite (fun _ => ih _ _) fun _ => .ite (fun _ => ih _ _) fun _ => ?_
    exact .ite (fun _ => ih _ _) fun _ => ih _ _

theorem dtkPadLineNo_more (fuel : ℕ) (m : Machine) :
    Outcome (fun _ => True) anyStop (dtkPadLineNo fuel m) (dtkPadLineNo (fuel + 1) m) := by
  induction fuel generalizing m with
  | zero => exact .error trivial
  | succ fuel ih => exact .ite (fun _ => .ok trivial) fun _ => ih _

theorem dtkiLoop_more (fuel : ℕ) (m : Machine) (y : ℕ) :
    Outcome (fun _ => True) anyStop (dtkiLoop fuel m y) (dtkiLoop (fuel + 1) m y) := by
  induction fuel generalizing m y with
  | zero => exact .error trivial
  | succ fuel ih => exact .ite (fun _ => ih _ _) fun _ => .ok trivial

theorem convertToStringAlreadyAllocated_more (fuel : ℕ) (m : Machine) (v : Long) (x : ℕ) :
    Outcome (fun _ => True) anyStop (convertToStringAlreadyAllocated fuel m v x)
      (convertToStringAlreadyAllocated (fuel + 1) m v x) :=
  (convertToStringAlreadyAllocated_keepsListing .refl v x).mono fun _ _ => trivial

theorem dtkMainLoop_more (fuel : ℕ) (m : Machine) (y : ℕ) :
    Outcome (fun _ => True) anyStop (dtkMainLoop fuel m y) (dtkMainLoop (fuel + 1) m y) := by
  induction fuel generalizing m y with
  | zero => exact .error trivial
  | succ fuel ih =>
    refine .ite (fun _ => .ok trivial) fun _ => .ite (fun _ => ih _ _) fun _ => ?_
    refine .ite (fun _ => ih _ _) fun _ => .ite (fun _ => ?_) fun _ =>
      .ite (fun _ => ?_) fun _ => ?_
    · exact (outcome_self _).bind fun m _ => ih m _
    · exact (convertToStringAlreadyAllocated_more _ _ _ _).bind fun m _ => ih _ _
    · have hident : Outcome (fun _ => True) anyStop (dtkIdentifier fuel m y)
        (dtkIdentifier (fuel + 1) m y) := (dtkiLoop_more fuel m y).bind fun _ _ => .ok trivial
      exact hident.bind fun r _ => ih r.2 r.1

theorem detokenise_more (fuel : ℕ) (m : Machine) (y a : ℕ) :
    Outcome (fun _ => True) anyStop (detokenise fuel m y a) (detokenise (fuel + 1) m y a) :=
  (convertToStringAlreadyAllocated_more _ _ _ _).bind fun _ _ =>
    (dtkPadLineNo_more _ _).bind fun m _ => dtkMainLoop_more _ m _

theorem cliNextLine_more (fuel : ℕ) (m : Machine) (y : ℕ) :
    Outcome (fun _ => True) anyStop (cliNextLine fuel m y) (cliNextLine (fuel + 1) m y) := by
  induction fuel generalizing m y with
  | zero => exact .error trivial
  | succ fuel ih =>
    refine .ite (fun _ => .ok trivial) fun _ => (siLoop_more _ _ _).bind fun m _ => ?_
    exact .ite (fun _ => ih m _) fun _ => (detokenise_more _ _ _ _).bind fun m _ => ih m _

/-- Without a range, every line is listed. -/
theorem cliRange_all (h : (stringTempAllocate m 255).token = 0) (x : ℕ) :
    ∃ m₁, ∀ ev, cliRange ev m x = .ok m₁ := by
  unfold cliRange
  generalize stringTempAllocate m 255 = m₁ at h ⊢
  exact ⟨_, fun _ => if_pos (.inl h)⟩

/-- One run shows where a listing settles. -/
theorem commandList_settles (h : (stringTempAllocate m 255).token = 0) {n : ℕ}
    (hrun : commandList n m x = .ok m₁) : Settles (fun fuel => commandList fuel m x) (.ok m₁) := by
  obtain ⟨m₂, hrange⟩ := cliRange_all h x
  have hmore : SameWithMore fun fuel => commandList fuel m x := fun k => by
    dsimp only
    unfold commandList
    rw [hrange, hrange]
    exact cliNextLine_more _ _ _
  exact hmore.settles (n := n) hrun

/-! ## Listing -/

instance Memory.decidableWordsAt (mem : Memory) :
    ∀ (a : ℕ) (ws : List ℕ), Decidable (mem.WordsAt a ws)
  | _, [] => isTrue trivial
  | a, w :: ws =>
    @instDecidableAnd (mem.word a = w) _ _ (Memory.decidableWordsAt mem (a + 2) ws)

/-- The line `10 defproc defproc …`, with `n + 1` keywords. -/
def keywordLine (n : ℕ) : ItemLine where
  number := 10
  items := List.replicate (n + 1) (.token 0x3C48)
  valid := by
    intro i hi
    rw [List.eq_of_mem_replicate hi]
    exact ⟨⟨ord "defproc", 14, 0x3C48⟩, by decide, rfl⟩
  nonempty := by simp

/-- The program with this line. -/
def keywordProgram (n : ℕ) : Program :=
  ⟨[(keywordLine n).line], List.pairwise_singleton _ _, fun l hl => by
    rw [List.mem_singleton.mp hl]
    exact ⟨(by decide : 1 ≤ 10), (by decide : 10 ≤ 32767)⟩⟩

/-- A workspace with this program, and permanent strings in its last 256 bytes. -/
def keywordWorkspace (n : ℕ) : Machine :=
  { (default : Machine) with
    dBaseAddress := 0x4000, dHighAddress := 0x8000, dStack := basStack
    bank := ((((keywordLine n).line.words ++ [0x0000]).zipIdx.foldl
      (fun (b : Memory) (w : ℕ × ℕ) => b.setWord (0x4200 + 2 * w.2) w.1)
        (default : Memory)).setWord 0x4008 0x4400).setWord 0x400A 0x7F00 }

/-- What is in use of the workspace is as it was: everything below the low memory pointer, where the
program and the variables are, and the permanent strings from the high memory pointer on. -/
structure Machine.KeepsWorkspace (m m' : Machine) : Prop where
  base : m'.dBaseAddress = m.dBaseAddress
  top : m'.dHighAddress = m.dHighAddress
  low : m'.block blockLowMemoryPtr = m.block blockLowMemoryPtr
  high : m'.block blockHighMemoryPtr = m.block blockHighMemoryPtr
  store : m.bank.EqOn m.dBaseAddress (m.block blockLowMemoryPtr) m'.bank
  strings : m.bank.EqOn (m.block blockHighMemoryPtr) m.dHighAddress m'.bank

/-- A buffer in free memory may be written. -/
theorem Machine.Listed.keepsWorkspace (h : m.Listed a m₁)
    (hlow : m.dBaseAddress + blockProgramStart ≤ m.block blockLowMemoryPtr)
    (ha : m.block blockLowMemoryPtr ≤ a) (hhigh : a + 256 ≤ m.block blockHighMemoryPtr) :
    m.KeepsWorkspace m₁ := by
  have hstore : m.bank.EqOn m.dBaseAddress (m.block blockLowMemoryPtr) m₁.bank :=
    h.bank.eqOn (.inl ha)
  have hblock : ∀ y, y + 2 ≤ blockProgramStart → m₁.block y = m.block y := fun y hy => by
    unfold Machine.block
    rw [h.base]
    exact hstore.word (Nat.le_add_right _ _) (by omega)
  exact ⟨h.base, h.high, hblock _ (by decide), hblock _ (by decide), hstore,
    h.bank.eqOn (.inr hhigh)⟩

/-- From `m₁` on, where the buffer is allocated and the range is known, the listing comes to an end,
writes only in the buffer and leaves the program `p`, the variables and the permanent strings as they
are. -/
def ListsInside (m m₁ : Machine) (x : ℕ) (p : Program) : Prop :=
  ∃ m', Settles (fun fuel => commandList fuel m x) (.ok m') ∧ m'.Holds p ∧ m₁.KeepsWorkspace m' ∧
    m₁.bank.EqOff m₁.dListBuffer (m₁.dListBuffer + 256) m'.bank

end

end Basic65816
