import Basic65816.Builder.BasicBlock
import Basic65816.Program.Edit

/-!
# Editing sessions

A session enters one numbered line after the other. Each edit is the update of one key of the
program, and what the workspace holds in the end is, byte for byte, the block the builder makes of
the surviving lines in ascending order.

## Main results

* `Session.clear`: the program after a session
* `Session.exists_of_typed`: lines that can be typed make a session
* `edit_session`: one edit, a session, and the builder's block
-/

namespace Basic65816

/-- A line as it is entered: a number in range, and tokens. -/
structure Entry where
  number : ℕ
  tokens : List ℕ
  valid : 1 ≤ number ∧ number ≤ 32767

/-- The effect of entering lines one after the other. -/
def Program.edits (p : Program) (es : List Entry) : Program :=
  es.foldl (fun p e => p.edit e.number e.tokens e.valid) p

/-- Lines are entered one after the other. Before each, the line is tokenised, which changes the
token buffer only; then the token buffer is executed. -/
inductive Session : Machine → List Entry → Machine → Prop
  | done {m : Machine} : Session m [] m
  | enter {m m₁ m₂ m' : Machine} {e : Entry} {es : List Entry} :
      m₁.dBaseAddress = m.dBaseAddress → m₁.dHighAddress = m.dHighAddress →
      m.bank.EqOff (m.dBaseAddress + blockTokenBuffer) (m.dBaseAddress + blockProgramStart)
        m₁.bank →
      m₁.Entered e.number e.tokens →
      Settles (fun fuel => executeTokenBuffer fuel m₁) (.ok (.nextCommand, m₂)) →
      Session m₂ es m' → Session m (e :: es) m'

/-- After each line of the session the program ends below the top of the workspace. -/
def FitsAll (m : Machine) (p : Program) (es : List Entry) : Prop :=
  ∀ k ≤ es.length, m.dBaseAddress + blockProgramStart + sizeOfLines (p.edits (es.take k)).lines + 6 ≤
    m.dHighAddress

variable {m m' : Machine} {p : Program} {e : Entry} {es : List Entry}

theorem FitsAll.head (h : FitsAll m p (e :: es)) : m.dBaseAddress + blockProgramStart +
    sizeOfLines (p.edit e.number e.tokens e.valid).lines + 6 ≤ m.dHighAddress :=
  h 1 (Nat.succ_le_succ (Nat.zero_le _))

theorem FitsAll.tail (h : FitsAll m p (e :: es)) (hbase : m'.dBaseAddress = m.dBaseAddress)
    (hhigh : m'.dHighAddress = m.dHighAddress) :
    FitsAll m' (p.edit e.number e.tokens e.valid) es := by
  intro k hk
  rw [hbase, hhigh]
  exact h (k + 1) (Nat.succ_le_succ hk)

/-- **The program after a session.** -/
theorem Session.clear (h : Session m es m') (hm : m.Clear p) (hfits : FitsAll m p es) :
    m'.Clear (p.edits es) ∧ m'.dBaseAddress = m.dBaseAddress := by
  induction h generalizing p with
  | done => exact ⟨hm, rfl⟩
  | @enter m m₁ m₂ m' e es hbase hhigh hoff he hset _ ih =>
    have h₁ : m₁.Holds p := by
      refine ⟨?_, by rw [hbase, hhigh]; exact hm.room, by rw [hhigh]; exact hm.top⟩
      rw [hbase]
      exact hm.stored.congr (hoff.eqOn (.inr (Nat.le_refl _)))
    obtain ⟨m₃, hset', hclear, hbase', hhigh', -⟩ :=
      executeTokenBuffer_spec h₁ he (by rw [hbase, hhigh]; exact hfits.head)
    obtain ⟨-, rfl⟩ := Prod.mk.inj (Except.ok.inj (hset.unique hset'))
    obtain ⟨hc, hb⟩ := ih hclear (hfits.tail (hbase'.trans hbase) (hhigh'.trans hhigh))
    exact ⟨hc, hb.trans (hbase'.trans hbase)⟩

/-- The tokeniser makes this line of a text, and it fits into the token buffer. -/
structure Entry.Typed (e : Entry) : Prop where
  tokenised : ∃ s, Builder.tokenise s = some ((e.number + 0x4000) :: e.tokens)
  words : ∀ t ∈ e.tokens, t < 0x10000
  fits : e.tokens.length + 1 ≤ 126

/-- **Typing a line** fills the token buffer, and then the line is entered. -/
theorem Machine.Clear.enter (hm : m.Clear p) (he : e.Typed)
    (hroom : m.dBaseAddress + blockProgramStart + sizeOfLines (p.edit e.number e.tokens e.valid).lines +
      6 ≤ m.dHighAddress) :
    ∃ m₁ m₂ : Machine, m₁.dBaseAddress = m.dBaseAddress ∧ m₁.dHighAddress = m.dHighAddress ∧
      m.bank.EqOff (m.dBaseAddress + blockTokenBuffer) (m.dBaseAddress + blockProgramStart) m₁.bank ∧
      m₁.Entered e.number e.tokens ∧
      Settles (fun fuel => executeTokenBuffer fuel m₁) (.ok (.nextCommand, m₂)) ∧
      m₂.Clear (p.edit e.number e.tokens e.valid) ∧ m₂.dBaseAddress = m.dBaseAddress ∧
      m₂.dHighAddress = m.dHighAddress := by
  have hfits := he.fits
  have hnumber := e.valid
  obtain ⟨b, hb, hoff⟩ := Memory.exists_wordsAt m.bank (m.dBaseAddress + blockTokenBuffer)
    ((e.number + 0x4000) :: (e.tokens ++ [0x0000])) (by
      intro w hw
      simp only [List.mem_cons, List.mem_append, List.not_mem_nil, or_false] at hw
      rcases hw with rfl | hw | rfl
      · omega
      · exact he.words w hw
      · decide)
  replace hoff : m.bank.EqOff (m.dBaseAddress + blockTokenBuffer)
      (m.dBaseAddress + blockProgramStart) b := by
    refine hoff.mono (Nat.le_refl _) ?_
    unfold blockTokenBuffer blockProgramStart
    simp only [List.length_cons, List.length_append, List.length_nil]
    omega
  -- the program is behind the token buffer, and stays
  have hentered : Machine.Entered { m with bank := b } e.number e.tokens :=
    ⟨e.valid, hb, he.tokenised, he.fits⟩
  have hholds : Machine.Holds { m with bank := b } p :=
    ⟨hm.stored.congr (hoff.eqOn (.inr (Nat.le_refl _))), hm.room, hm.top⟩
  obtain ⟨m₂, hset, hclear, hbase, hhigh, -⟩ := executeTokenBuffer_spec hholds hentered hroom
  exact ⟨{ m with bank := b }, m₂, rfl, rfl, hoff, hentered, hset, hclear, hbase, hhigh⟩

/-- Lines that can be typed make a session. -/
theorem Session.exists_of_typed (hm : m.Clear p) (hes : ∀ e ∈ es, e.Typed) (hfits : FitsAll m p es) :
    ∃ m', Session m es m' := by
  induction es generalizing m p with
  | nil => exact ⟨m, .done⟩
  | cons e es ih =>
    obtain ⟨m₁, m₂, hbase, hhigh, hoff, hentered, hset, hclear, hbase₂, hhigh₂⟩ :=
      hm.enter (hes e (by simp)) hfits.head
    obtain ⟨m', hrest⟩ := ih hclear (fun e he => hes e (by simp [he])) (hfits.tail hbase₂ hhigh₂)
    exact ⟨m', .enter hbase hhigh hoff hentered hset hrest⟩

/-- The lines that a session leaves have tokens. -/
theorem Program.tokens_ne_nil_edits (hp : ∀ l ∈ p.lines, l.tokens ≠ []) :
    ∀ l ∈ (p.edits es).lines, l.tokens ≠ [] := by
  induction es generalizing p with
  | nil => exact hp
  | cons e es ih =>
    refine ih (p := p.edit e.number e.tokens e.valid) fun l hl => ?_
    rcases mem_edit_iff.mp hl with ⟨-, hl⟩ | ⟨hts, rfl⟩
    · exact hp l hl
    · exact hts

/-- **Editing.** Entering a line sets or removes that line of the program and keeps every other one;
after a session that begins with the empty program, the program area, the markers and the low memory
pointer are those of the block the builder makes of the surviving lines, whenever it makes one. -/
theorem edit_session :
    (∀ (m : Machine) (p : Program) (n : ℕ) (ts : List ℕ) (he : m.Entered n ts), m.Holds p →
      m.dBaseAddress + blockProgramStart + sizeOfLines (p.edit n ts he.number).lines + 6 ≤
        m.dHighAddress →
      (∃ m', Settles (fun fuel => executeTokenBuffer fuel m) (.ok (.nextCommand, m')) ∧
        m'.Clear (p.edit n ts he.number)) ∧
      ∀ k, (p.edit n ts he.number).find? k =
        if k = n then (if ts = [] then none else some ts) else p.find? k) ∧
    ∀ (m m' : Machine) (es : List Entry), m.Clear .empty → Session m es m' → FitsAll m .empty es →
      m'.Clear (Program.empty.edits es) ∧
      ∀ (size : ℕ) (texts : List (ℕ × List ℕ)) (b b' : Builder.BasicBlock),
        List.Forall₂ (fun t l => t.1 = l.number ∧ Builder.tokenise t.2 = some l.tokens) texts
          (Program.empty.edits es).lines →
        Builder.BasicBlock.new m.dBaseAddress size = some b → b.addBASICLines texts = some b' →
        (∀ i, blockProgramStart ≤ i →
          i < blockProgramStart + sizeOfLines (Program.empty.edits es).lines + 6 →
          m'.bank (m.dBaseAddress + i) = b'.data i) ∧
        m'.block blockLowMemoryPtr = b'.data.word blockLowMemoryPtr := by
  refine ⟨fun m p n ts he hm hroom => ⟨?_, p.find?_edit ts he.number⟩,
    fun m m' es hm hs hfits => ?_⟩
  · obtain ⟨m', hset, hclear, -⟩ := executeTokenBuffer_spec hm he hroom
    exact ⟨m', hset, hclear⟩
  · obtain ⟨hclear, hbase⟩ := hs.clear hm hfits
    refine ⟨hclear, fun size texts b b' htexts hnew hadd => ?_⟩
    obtain ⟨hb, hbb⟩ := Builder.BasicBlock.new_holds hnew
    have hst := hclear.stored
    have hroom := hclear.room
    have htop := hclear.top
    have hsize : sizeOfLines (Program.empty.edits es).lines =
        2 * (wordsOfLines (Program.empty.edits es).lines).length := rfl
    have hvalid : ∀ l ∈ (Program.empty.edits es).lines, l.number ≠ 0 ∧ l.tokens ≠ [] ∧
        (∀ t ∈ l.tokens, t < 0x10000) ∧ 2 * l.tokens.length + 6 < 0x10000 := fun l hl => by
      have hmem : ∀ t ∈ l.words, t < 0x10000 := fun t ht =>
        hst.words.lt t (List.mem_append_left _ (List.mem_flatMap.mpr ⟨l, hl, ht⟩))
      refine ⟨?_, Program.tokens_ne_nil_edits (by simp [Program.empty]) l hl, fun t ht => ?_, ?_⟩
      · have := (Program.empty.edits es).numbered l hl
        omega
      · exact hmem t (by simp [Line.words, ht])
      · exact hmem _ (by simp [Line.words])
    obtain ⟨hb', hbb'⟩ := Builder.BasicBlock.addBASICLines_stored hb htexts hvalid hadd
    rw [List.nil_append] at hb'
    -- both hold the lines, the closing offset and the markers
    have hwords : m'.bank.WordsAt (m.dBaseAddress + blockProgramStart)
        (wordsOfLines (Program.empty.edits es).lines ++ [0x0000, 0xEEEE, 0xEEEE]) := by
      rw [show [0x0000, 0xEEEE, 0xEEEE] = [0x0000] ++ [0xEEEE, 0xEEEE] from rfl, ← List.append_assoc,
        Memory.wordsAt_append]
      have hmark := hclear.markers
      rw [← hbase]
      refine ⟨hst.words, ?_⟩
      rw [Machine.codeEnd, hsize] at hmark
      rwa [List.length_append, List.length_singleton, Nat.mul_add, ← Nat.add_assoc]
    refine ⟨fun i h₀ h₁ => ?_, ?_⟩
    · have hbyte := hwords.bytes_eq hb'.words (i - blockProgramStart) (by
        simp only [List.length_append, List.length_cons, List.length_nil]
        omega)
      rwa [show m.dBaseAddress + blockProgramStart + (i - blockProgramStart) =
        m.dBaseAddress + i by omega, Nat.add_sub_cancel' h₀] at hbyte
    · rw [hclear.low, hb'.low, hbb', hbb, Machine.codeEnd, hbase]
      rw [hbase] at hroom
      exact (Nat.mod_eq_of_lt (by omega)).symm

/-- A workspace from `$4000` to `$8000` with the empty program. -/
def emptyWorkspace : Machine :=
  { (default : Machine) with
    dBaseAddress := 0x4000, dHighAddress := 0x8000, dStack := basStack
    bank := ((((default : Memory).setWord 0x4008 0x4206).setWord 0x400A 0x8000).setWord
      0x4202 0xEEEE).setWord 0x4204 0xEEEE }

theorem emptyWorkspace_clear : emptyWorkspace.Clear .empty where
  stored := ⟨⟨by decide, trivial⟩, by decide⟩
  room := by decide
  top := by decide
  markers := ⟨by decide, by decide, trivial⟩
  low := by decide
  high := by decide
  null := by decide
  table := by decide
  stack := rfl
  bottom := by decide
  temp := rfl

/-- The empty workspace when the line `10 a=1` has been tokenised. -/
def emptyWorkspaceTokenised : Machine :=
  { emptyWorkspace with
    bank := ((((emptyWorkspace.bank.setWord 0x4100 0x400A).setWord 0x4102 0xC001).setWord
      0x4104 0x2206).setWord 0x4106 0x4001).setWord 0x4108 0x0000 }

theorem emptyWorkspaceTokenised_eqOff :
    emptyWorkspace.bank.EqOff 0x4100 0x4200 emptyWorkspaceTokenised.bank :=
  (((((Memory.EqOff.refl _ _ _).setWord (by decide) (by decide)).setWord (by decide)
    (by decide)).setWord (by decide) (by decide)).setWord (by decide) (by decide)).setWord
    (by decide) (by decide)

theorem emptyWorkspaceTokenised_entered :
    emptyWorkspaceTokenised.Entered 10 [0xC001, 0x2206, 0x4001] :=
  ⟨by decide, ⟨by decide, by decide, by decide, by decide, by decide, trivial⟩,
    ⟨ord "10 a=1", by decide⟩, by decide⟩

theorem emptyWorkspaceTokenised_holds : emptyWorkspaceTokenised.Holds .empty :=
  ⟨emptyWorkspace_clear.stored.congr (emptyWorkspaceTokenised_eqOff.eqOn (.inr (by decide))),
    by decide, by decide⟩

/-- The lines `10 a=1`, `5 b=2` in front of it and `10 a=3` in its place. -/
def threeEntries : List Entry :=
  [⟨10, [0xC001, 0x2206, 0x4001], by decide⟩, ⟨5, [0xC002, 0x2206, 0x4002], by decide⟩,
    ⟨10, [0xC001, 0x2206, 0x4003], by decide⟩]

theorem threeEntries_typed : ∀ e ∈ threeEntries, e.Typed := by
  intro e he
  simp only [threeEntries, List.mem_cons, List.not_mem_nil, or_false] at he
  rcases he with rfl | rfl | rfl
  · exact ⟨⟨ord "10 a=1", by decide⟩, by decide, by decide⟩
  · exact ⟨⟨ord "5 b=2", by decide⟩, by decide, by decide⟩
  · exact ⟨⟨ord "10 a=3", by decide⟩, by decide, by decide⟩

theorem threeEntries_fits : FitsAll emptyWorkspace .empty threeEntries := by
  intro k hk
  change k ≤ 3 at hk
  interval_cases k <;> decide

/-- The line `10 a=1` is entered; and after the three lines the workspace is the block that the builder
makes of the two that are left. -/
theorem edit_session_three_lines :
    (∃ m', Settles (fun fuel => executeTokenBuffer fuel emptyWorkspaceTokenised)
        (.ok (.nextCommand, m')) ∧
      m'.Clear (Program.empty.edit 10 [0xC001, 0x2206, 0x4001] (by decide))) ∧
    ∃ m' b b', Session emptyWorkspace threeEntries m' ∧
      m'.Clear (Program.empty.edits threeEntries) ∧
      Builder.BasicBlock.new 0x4000 0x1000 = some b ∧
      b.addBASICLines [(5, ord "b=2"), (10, ord "a=3")] = some b' ∧
      (∀ i, 0x200 ≤ i → i < 0x200 + 24 + 6 → m'.bank (0x4000 + i) = b'.data i) ∧
      m'.block blockLowMemoryPtr = b'.data.word blockLowMemoryPtr := by
  obtain ⟨hedit, hsession⟩ := edit_session
  refine ⟨(hedit emptyWorkspaceTokenised .empty 10 [0xC001, 0x2206, 0x4001]
    emptyWorkspaceTokenised_entered emptyWorkspaceTokenised_holds (by decide)).1, ?_⟩
  obtain ⟨m', hs⟩ :=
    Session.exists_of_typed emptyWorkspace_clear threeEntries_typed threeEntries_fits
  -- the builder makes the block of the two lines
  have hbuilt : ((Builder.BasicBlock.new 0x4000 0x1000).bind fun b =>
      b.addBASICLines [(5, ord "b=2"), (10, ord "a=3")]).isSome = true := by rfl
  obtain ⟨b', hb'⟩ := Option.isSome_iff_exists.mp hbuilt
  obtain ⟨b, hnew, hadd⟩ := Option.bind_eq_some_iff.mp hb'
  obtain ⟨hclear, hblock⟩ :=
    hsession emptyWorkspace m' threeEntries emptyWorkspace_clear hs threeEntries_fits
  have hlines : (Program.empty.edits threeEntries).lines =
      [⟨5, [0xC002, 0x2206, 0x4002]⟩, ⟨10, [0xC001, 0x2206, 0x4003]⟩] := by decide
  have hsame := hblock 0x1000 [(5, ord "b=2"), (10, ord "a=3")] b b' (by
    rw [hlines]
    exact .cons ⟨rfl, by decide⟩ (.cons ⟨rfl, by decide⟩ .nil)) hnew hadd
  rw [hlines] at hsame
  exact ⟨m', b, b', hs, hclear, hnew, hadd, hsame⟩

end Basic65816
