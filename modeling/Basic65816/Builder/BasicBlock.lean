import Basic65816.Builder.Tokeniser
import Basic65816.Program.Stored

/-!
# The builder's block (`basicblock.py`)

`BasicBlock` is the image of a workspace the builder writes. The list `data` is a memory of
`blockSize` bytes indexed from zero; an index beyond it, like a failed assertion, is `none`.

## Main results

* `addBASICLine_eq`: a line of text is tokenised and its words appended
* `appendLine_holds`: one line is appended to the stored program
* `addBASICLines_stored`: a whole program
-/

namespace Basic65816.Builder

/-- `BasicBlock`. -/
structure BasicBlock where
  baseAddress : ℕ
  blockSize : ℕ
  data : Memory
  memoryVariableCreated : Bool
  lastProgramLineNumber : ℕ

namespace BasicBlock

def endAddress (b : BasicBlock) : ℕ := b.baseAddress + b.blockSize

/-- The index of the word at `addr`, if it passes the assertion and lies in the list. -/
def index (b : BasicBlock) (addr : ℕ) : Option ℕ :=
  if b.baseAddress ≤ addr ∧ addr ≤ b.endAddress ∧ addr - b.baseAddress + 1 < b.blockSize then
    some (addr - b.baseAddress)
  else none

/-- `readWord`. -/
def readWord (b : BasicBlock) (addr : ℕ) : Option ℕ := do
  let i ← b.index addr
  some (b.data.word i)

/-- `writeWord`. -/
def writeWord (b : BasicBlock) (addr data : ℕ) : Option BasicBlock := do
  let i ← b.index addr
  some { b with data := b.data.setWord i data }

/-- `check`: there must be a kilobyte of free memory. -/
def check (b : BasicBlock) : Option Unit := do
  let low ← b.readWord (b.baseAddress + blockLowMemoryPtr)
  let high ← b.readWord (b.baseAddress + blockHighMemoryPtr)
  if low + 1024 < high then some () else none

/-- The loop of `resetLowMemory`. Every offset followed is positive, so that the block size bounds
the number of rounds. -/
def followLinks (b : BasicBlock) : ℕ → ℕ → Option ℕ
  | 0, _ => none
  | n + 1, ptr => do
    let offset ← b.readWord ptr
    if offset ≠ 0x0000 then b.followLinks n (ptr + offset) else some ptr

/-- `resetLowMemory`: write the markers behind the program and reset the low memory pointer; the
result is where the next line goes. -/
def resetLowMemory (b : BasicBlock) : Option (ℕ × BasicBlock) := do
  let ptr ← b.followLinks (b.blockSize + 1) (b.baseAddress + blockProgramStart)
  let b ← b.writeWord (ptr + 2) 0xEEEE
  let b ← b.writeWord (ptr + 4) 0xEEEE
  let b ← b.writeWord (b.baseAddress + blockLowMemoryPtr) (ptr + 6)
  some (ptr, b)

/-- `clearMemory`. -/
def clearMemory (b : BasicBlock) : Option BasicBlock := do
  let b ← b.writeWord (b.baseAddress + blockHighMemoryPtr) b.endAddress
  let b ← b.writeWord (b.baseAddress + blockProgramStart) 0x0000
  let (_, b) ← b.resetLowMemory
  some b

/-- `BasicBlock(baseAddress, size)`. -/
def new (baseAddress size : ℕ) : Option BasicBlock :=
  clearMemory { baseAddress := baseAddress, blockSize := size, data := Memory.ofBytes 0 (ord "BASC")
                memoryVariableCreated := false, lastProgramLineNumber := 0 }

/-- The loop that writes a list of words. -/
def writeWords (b : BasicBlock) : ℕ → List ℕ → Option BasicBlock
  | _, [] => some b
  | pos, t :: ts => do
    let b ← b.writeWord pos t
    b.writeWords (pos + 2) ts

/-- `addBASICLine`. -/
def addBASICLine (b : BasicBlock) (code : List ℕ) (lineNumber : Option ℕ) : Option BasicBlock :=
  if b.memoryVariableCreated then none
  else if strip code = [] then some b
  else
    let lineNumber := match lineNumber with
      | none => b.lastProgramLineNumber + 1
      | some n => if n = 0 then b.lastProgramLineNumber + 1 else n
    if b.lastProgramLineNumber < lineNumber ∧ lineNumber ≤ 32767 then do
      let (pos, b) ← b.resetLowMemory
      let b := { b with lastProgramLineNumber := lineNumber }
      let codeLine ← tokenise code
      let codeLine := codeLine ++ [0]
      let codeLine := lineNumber :: codeLine
      let codeLine := (codeLine.length * 2 + 2) :: codeLine
      let codeLine := codeLine ++ [0]
      let b ← b.writeWords pos codeLine
      let (_, b) ← b.resetLowMemory
      b.check
      some b
    else none

/-- The lines of a program, each a number and a text, added in order. -/
def addBASICLines (b : BasicBlock) (texts : List (ℕ × List ℕ)) : Option BasicBlock :=
  texts.foldlM (fun b t => b.addBASICLine t.2 (some t.1)) b

/-! ## What the builder stores -/

/-- The block holds the lines `ls`, with the markers and the low memory pointer behind them. -/
structure Holds (b : BasicBlock) (ls : List Line) : Prop where
  words : b.data.WordsAt blockProgramStart (wordsOfLines ls ++ [0x0000, 0xEEEE, 0xEEEE])
  low : b.data.word blockLowMemoryPtr =
    (b.baseAddress + blockProgramStart + sizeOfLines ls + 6) % 0x10000

variable {b b' : BasicBlock} {a n : ℕ} {ls : List Line} {ws : List ℕ}

theorem writeWord_eq_some {d : ℕ} (h : b.writeWord a d = some b') :
    b.baseAddress ≤ a ∧ b' = { b with data := b.data.setWord (a - b.baseAddress) d } := by
  simp only [writeWord, index, Option.bind_eq_bind, Option.bind_eq_some_iff] at h
  obtain ⟨i, hi, h⟩ := h
  split_ifs at hi with hc
  cases hi
  cases h
  exact ⟨hc.1, rfl⟩

theorem readWord_eq_some {w : ℕ} (h : b.readWord a = some w) :
    b.data.word (a - b.baseAddress) = w := by
  simp only [readWord, index, Option.bind_eq_bind, Option.bind_eq_some_iff] at h
  obtain ⟨i, hi, h⟩ := h
  split_ifs at hi
  cases hi
  cases h
  rfl

/-- Following the links of a stored program leads to its end. -/
theorem followLinks_eq_some {n i ptr : ℕ} (hw : b.data.WordsAt i (wordsOfLines ls ++ [0x0000]))
    (h : b.followLinks n (b.baseAddress + i) = some ptr) :
    ptr = b.baseAddress + i + sizeOfLines ls := by
  induction n generalizing i ls with
  | zero => cases h
  | succ n ih =>
    simp only [followLinks, Option.bind_eq_bind, Option.bind_eq_some_iff] at h
    obtain ⟨offset, hoff, h⟩ := h
    have hword := readWord_eq_some hoff
    rw [Nat.add_sub_cancel_left] at hword
    cases ls with
    | nil =>
      rw [hw.1] at hword
      rw [← hword] at h
      simpa using h.symm
    | cons l ls =>
      have hlen : 2 * l.words.length = 2 * l.tokens.length + 6 := l.length_words
      rw [wordsOfLines_cons, List.append_assoc, Memory.wordsAt_append] at hw
      have hoffset : b.data.word i = 2 * l.tokens.length + 6 := hw.1.1
      rw [← hword, hoffset, if_pos (by omega)] at h
      rw [hlen] at hw
      rw [sizeOfLines_cons, ih hw.2 (by rwa [Nat.add_assoc] at h)]
      omega

/-- `resetLowMemory` on a stored program. -/
theorem resetLowMemory_eq_some {ptr : ℕ}
    (hw : b.data.WordsAt blockProgramStart (wordsOfLines ls ++ [0x0000]))
    (h : b.resetLowMemory = some (ptr, b')) :
    ptr = b.baseAddress + blockProgramStart + sizeOfLines ls ∧ b'.Holds ls ∧
      ∃ d, b' = { b with data := d } := by
  simp only [resetLowMemory, Option.bind_eq_bind, Option.bind_eq_some_iff, Option.some.injEq,
    Prod.mk.injEq] at h
  obtain ⟨q, hq, b₁, h₁, b₂, h₂, b₃, h₃, rfl, rfl⟩ := h
  have hptr := followLinks_eq_some hw hq
  obtain ⟨-, rfl⟩ := writeWord_eq_some h₁
  obtain ⟨-, rfl⟩ := writeWord_eq_some h₂
  obtain ⟨-, rfl⟩ := writeWord_eq_some h₃
  have hs : sizeOfLines ls = 2 * (wordsOfLines ls).length := rfl
  have he₁ : q + 2 - b.baseAddress = blockProgramStart + sizeOfLines ls + 2 := by omega
  have he₂ : q + 4 - b.baseAddress = blockProgramStart + sizeOfLines ls + 4 := by omega
  have he₃ : b.baseAddress + blockLowMemoryPtr - b.baseAddress = blockLowMemoryPtr := by omega
  refine ⟨hptr, ⟨?_, ?_⟩, _, rfl⟩
  · simp only [he₁, he₂, he₃]
    rw [show [0x0000, 0xEEEE, 0xEEEE] = [0x0000] ++ [0xEEEE, 0xEEEE] from rfl, ← List.append_assoc,
      Memory.wordsAt_append]
    unfold blockProgramStart blockLowMemoryPtr at *
    have hlen : (wordsOfLines ls ++ [0x0000]).length = (wordsOfLines ls).length + 1 := by simp
    refine ⟨hw.congr fun a h₀ h₁ => ?_, ?_, ?_, trivial⟩
    · rw [hlen] at h₁
      rw [Memory.setWord_of_ne (by omega) (by omega), Memory.setWord_of_ne (by omega) (by omega),
        Memory.setWord_of_ne (by omega) (by omega)]
    · rw [hlen, Memory.word_setWord_of_disjoint (by omega),
        Memory.word_setWord_of_disjoint (by omega),
        show 0x200 + 2 * ((wordsOfLines ls).length + 1) = 0x200 + sizeOfLines ls + 2 by omega,
        Memory.word_setWord (by decide)]
    · rw [hlen, Memory.word_setWord_of_disjoint (by omega),
        show 0x200 + 2 * ((wordsOfLines ls).length + 1) + 2 = 0x200 + sizeOfLines ls + 4 by omega,
        Memory.word_setWord (by decide)]
  · simp only [he₃]
    rw [Memory.word_setWord_mod, hptr]

theorem writeWords_eq_some (hws : ∀ w ∈ ws, w < 0x10000)
    (h : b.writeWords (b.baseAddress + a) ws = some b') :
    ∃ d, b' = { b with data := d } ∧ d.WordsAt a ws ∧ b.data.EqOff a (a + 2 * ws.length) d := by
  induction ws generalizing b a with
  | nil =>
    obtain rfl := Option.some.inj h
    exact ⟨_, rfl, trivial, .refl _ _ _⟩
  | cons w ws ih =>
    simp only [writeWords, Option.bind_eq_bind, Option.bind_eq_some_iff] at h
    obtain ⟨b₁, h₁, h⟩ := h
    obtain ⟨-, rfl⟩ := writeWord_eq_some h₁
    rw [Nat.add_sub_cancel_left, Nat.add_assoc] at h
    obtain ⟨d, rfl, hd, hoff⟩ := ih (fun v hv => hws v (by simp [hv])) h
    dsimp only at hoff
    refine ⟨d, rfl, ⟨?_, hd⟩, ?_⟩
    · rw [hoff.word (.inl (by omega)), Memory.word_setWord (hws w (by simp))]
    · simp only [List.length_cons]
      exact ((Memory.EqOff.refl _ _ _).setWord (Nat.le_refl _) (by omega)).trans
        (hoff.mono (by omega) (by omega))

/-- What `addBASICLine` does with the words of a line: write them behind the program. -/
def appendLine (b : BasicBlock) (n : ℕ) (ts : List ℕ) : Option BasicBlock := do
  let (pos, b) ← b.resetLowMemory
  let b := { b with lastProgramLineNumber := n }
  let b ← b.writeWords pos ((⟨n, ts⟩ : Line).words ++ [0x0000])
  let (_, b) ← b.resetLowMemory
  b.check
  some b

/-- The number `addBASICLine` gives a line. -/
def numberAfter (last : ℕ) : Option ℕ → ℕ
  | none => last + 1
  | some n => if n = 0 then last + 1 else n

theorem addBASICLine_eq (hb : b.memoryVariableCreated = false) (code : List ℕ) (k : Option ℕ) :
    b.addBASICLine code k =
      if strip code = [] then some b
      else if b.lastProgramLineNumber < numberAfter b.lastProgramLineNumber k ∧
          numberAfter b.lastProgramLineNumber k ≤ 32767 then
        (tokenise code).bind (b.appendLine (numberAfter b.lastProgramLineNumber k))
      else none := by
  have hnum : (match k with
      | none => b.lastProgramLineNumber + 1
      | some n => if n = 0 then b.lastProgramLineNumber + 1 else n) =
      numberAfter b.lastProgramLineNumber k := by
    cases k <;> rfl
  unfold addBASICLine
  rw [hb, if_neg (by decide)]
  by_cases hs : strip code = []
  · rw [if_pos hs, if_pos hs]
  · rw [if_neg hs, if_neg hs]
    dsimp only
    rw [hnum]
    generalize numberAfter b.lastProgramLineNumber k = n
    by_cases hc : b.lastProgramLineNumber < n ∧ n ≤ 32767
    · rw [if_pos hc, if_pos hc]
      cases ht : tokenise code with
      | none => cases b.resetLowMemory <;> rfl
      | some ts =>
        -- the words written are the stored line and the closing offset
        have hline : ((n :: (ts ++ [0])).length * 2 + 2) :: (n :: (ts ++ [0])) ++ [0] =
            (⟨n, ts⟩ : Line).words ++ [0x0000] := by
          simp only [Line.words, List.length_cons, List.length_append, List.length_nil]
          congr 2
          omega
        simp only [Option.bind_eq_bind, Option.bind_some, appendLine, hline]
    · rw [if_neg hc, if_neg hc]

theorem writeWords_fits (hws : ws ≠ []) (h : b.writeWords (b.baseAddress + a) ws = some b') :
    a + 2 * ws.length ≤ b.blockSize := by
  induction ws generalizing b a with
  | nil => exact absurd rfl hws
  | cons w ws ih =>
    simp only [writeWords, Option.bind_eq_bind, Option.bind_eq_some_iff] at h
    obtain ⟨b₁, h₁, h⟩ := h
    have hi : a + 1 < b.blockSize := by
      simp only [writeWord, index, Option.bind_eq_bind, Option.bind_eq_some_iff] at h₁
      obtain ⟨i, hi, -⟩ := h₁
      split_ifs at hi with hc
      omega
    obtain ⟨-, rfl⟩ := writeWord_eq_some h₁
    cases ws with
    | nil => rw [List.length_singleton]; omega
    | cons v ws =>
      have htail := ih (by simp) (by simpa [Nat.add_assoc] using h)
      dsimp only at htail
      rw [List.length_cons]
      omega

/-- **A line is appended.** -/
theorem appendLine_holds {ts : List ℕ} (hb : b.Holds ls) (hn : n < 0x10000)
    (hlt : ∀ t ∈ ts, t < 0x10000) (hlen : 2 * ts.length + 6 < 0x10000)
    (h : b.appendLine n ts = some b') :
    b'.Holds (ls ++ [⟨n, ts⟩]) ∧ ∃ d, b' = { b with data := d, lastProgramLineNumber := n } := by
  simp only [appendLine, Option.bind_eq_bind, Option.bind_eq_some_iff, Option.some.injEq] at h
  obtain ⟨⟨pos, b₁⟩, hreset, b₂, hwrite, ⟨pos', b₃⟩, hreset', -, -, rfl⟩ := h
  have hold : b.data.WordsAt blockProgramStart (wordsOfLines ls ++ [0x0000]) := by
    have hw := hb.words
    rw [show [0x0000, 0xEEEE, 0xEEEE] = [0x0000] ++ [0xEEEE, 0xEEEE] from rfl, ← List.append_assoc,
      Memory.wordsAt_append] at hw
    exact hw.1
  obtain ⟨rfl, hb₁, d₁, rfl⟩ := resetLowMemory_eq_some hold hreset
  have hs : sizeOfLines ls = 2 * (wordsOfLines ls).length := rfl
  rw [Nat.add_assoc] at hwrite
  obtain ⟨d₂, rfl, hd₂, hoff⟩ := writeWords_eq_some (b := { b with
    data := d₁, lastProgramLineNumber := n }) (fun w hw => by
      simp only [Line.words, List.mem_append, List.mem_cons, List.not_mem_nil, or_false] at hw
      rcases hw with (rfl | rfl | hw | rfl) | rfl
      · exact hlen
      · exact hn
      · exact hlt w hw
      · decide
      · decide) hwrite
  have hstored : d₂.WordsAt blockProgramStart (wordsOfLines (ls ++ [⟨n, ts⟩]) ++ [0x0000]) := by
    rw [wordsOfLines_append, wordsOfLines_cons, wordsOfLines_nil, List.append_nil, List.append_assoc,
      Memory.wordsAt_append]
    refine ⟨?_, hs ▸ hd₂⟩
    have hw := hb₁.words
    rw [Memory.wordsAt_append] at hw
    exact hw.1.congr (hoff.eqOn (.inl (by omega)))
  obtain ⟨-, hb₃, d₃, rfl⟩ := resetLowMemory_eq_some hstored hreset'
  exact ⟨hb₃, _, rfl⟩

/-- Adding a line of text appends its words. -/
theorem addBASICLine_stored {code ts : List ℕ} (hb : b.Holds ls) (hn : n ≠ 0)
    (hcode : tokenise code = some ts) (hts : ts ≠ []) (hlt : ∀ t ∈ ts, t < 0x10000)
    (hlen : 2 * ts.length + 6 < 0x10000) (h : b.addBASICLine code (some n) = some b') :
    b'.Holds (ls ++ [⟨n, ts⟩]) ∧ b'.baseAddress = b.baseAddress := by
  have hstrip : strip code ≠ [] := by
    intro he
    have hnil : ∀ k, tokeniseLoop k [] = some [] := fun k => by cases k <;> rfl
    rw [tokenise, he, hnil, Option.some.injEq] at hcode
    exact hts hcode.symm
  by_cases hm : b.memoryVariableCreated = true
  · rw [addBASICLine, if_pos hm] at h
    cases h
  rw [addBASICLine_eq (Bool.not_eq_true _ ▸ hm), if_neg hstrip, numberAfter, if_neg hn, hcode] at h
  split_ifs at h with hc
  obtain ⟨hb', d, rfl⟩ := appendLine_holds hb (by omega) hlt hlen h
  exact ⟨hb', rfl⟩

/-- **A program is built** from its lines in ascending order. -/
theorem addBASICLines_stored {texts : List (ℕ × List ℕ)} {ks : List Line} (hb : b.Holds ks)
    (hlines : List.Forall₂ (fun t l => t.1 = l.number ∧ tokenise t.2 = some l.tokens) texts ls)
    (hvalid : ∀ l ∈ ls, l.number ≠ 0 ∧ l.tokens ≠ [] ∧ (∀ t ∈ l.tokens, t < 0x10000) ∧
      2 * l.tokens.length + 6 < 0x10000) (h : b.addBASICLines texts = some b') :
    b'.Holds (ks ++ ls) ∧ b'.baseAddress = b.baseAddress := by
  induction hlines generalizing b ks with
  | nil =>
    obtain rfl := Option.some.inj h
    exact ⟨by simpa using hb, rfl⟩
  | @cons t l texts ls hl _ ih =>
    simp only [addBASICLines, List.foldlM_cons, Option.bind_eq_bind, Option.bind_eq_some_iff] at h
    obtain ⟨b₁, h₁, h⟩ := h
    obtain ⟨hn, hts, hlt, hlen⟩ := hvalid l (by simp)
    rw [hl.1] at h₁
    obtain ⟨hb₁, hbase⟩ := addBASICLine_stored hb hn hl.2 hts hlt hlen h₁
    obtain ⟨hb', hbase'⟩ := ih hb₁ (fun k hk => hvalid k (by simp [hk])) h
    exact ⟨by simpa using hb', hbase'.trans hbase⟩

/-- **A new block** holds the empty program. -/
theorem new_holds {base size : ℕ} (h : new base size = some b) :
    b.Holds [] ∧ b.baseAddress = base := by
  simp only [new, clearMemory, Option.bind_eq_bind, Option.bind_eq_some_iff, Option.some.injEq] at h
  obtain ⟨b₁, h₁, b₂, h₂, ⟨ptr, b₃⟩, h₃, rfl⟩ := h
  obtain ⟨-, rfl⟩ := writeWord_eq_some h₁
  obtain ⟨-, rfl⟩ := writeWord_eq_some h₂
  obtain ⟨-, hb, d, rfl⟩ := resetLowMemory_eq_some
    (show Memory.WordsAt _ blockProgramStart (wordsOfLines [] ++ [0x0000]) from ⟨by
      simp only [Nat.add_sub_cancel_left]
      exact Memory.word_setWord (by decide), trivial⟩) h₃
  exact ⟨hb, rfl⟩

end BasicBlock

end Basic65816.Builder
