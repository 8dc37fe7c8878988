import Basic65816.Machine.Commands
import Basic65816.Program.Session

/-!
# At the prompt

At the prompt lines are entered, and `new`, `clear`, `run` and other statements are executed. The
workspace holds at any time the program that the entered lines make, whatever has been run in
between.

## Main definitions

* `PromptRun`: the states that are reached at the prompt, with the program

## Main results

* `PromptRun.holds`: the workspace holds the program
* `prompt_commands`: what is entered in a state that is reached
-/

namespace Basic65816

/-- The states that are reached at the prompt from an image, with the program that the workspace
holds. In between statements that are executed can change all but the program. -/
inductive PromptRun : Machine → Program → Prop
  | start {m : Machine} {p : Program} (h : m.Holds p) : PromptRun m p
  | line {m m' : Machine} {p : Program} {n : ℕ} {ts : List ℕ} (h : PromptRun m p)
      (he : m.Entered n ts)
      (hroom : m.dBaseAddress + blockProgramStart + sizeOfLines (p.edit n ts he.number).lines + 6 ≤
        m.dHighAddress)
      (hset : Settles (fun fuel => executeTokenBuffer fuel m) (.ok (.nextCommand, m'))) :
      PromptRun m' (p.edit n ts he.number)
  | new {m m' : Machine} {p : Program} (h : PromptRun m p)
      (hset : Settles (fun fuel => commandNew fuel m) (.ok m')) : PromptRun m' .empty
  | clear {m m' : Machine} {p : Program} (h : PromptRun m p)
      (hset : Settles (fun fuel => commandClear fuel m) (.ok m')) : PromptRun m' p
  | run {m m' : Machine} {p : Program} (h : PromptRun m p)
      (hset : Settles (fun fuel => commandRun fuel m) (.ok m')) : PromptRun m' p
  | other {m m' : Machine} {p : Program} (h : PromptRun m p)
      (hbase : m'.dBaseAddress = m.dBaseAddress) (hhigh : m'.dHighAddress = m.dHighAddress)
      (hmem : m.bank.EqOn (m.dBaseAddress + blockProgramStart) (m.codeEnd p + 2) m'.bank) :
      PromptRun m' p

section

variable {m m' : Machine} {p : Program} {l : Line} {ls : List Line}

theorem Machine.Holds.congr (h : m.Holds p) (hbase : m'.dBaseAddress = m.dBaseAddress)
    (hhigh : m'.dHighAddress = m.dHighAddress)
    (hmem : m.bank.EqOn (m.dBaseAddress + blockProgramStart) (m.codeEnd p + 2) m'.bank) :
    m'.Holds p := by
  refine ⟨?_, by rw [hbase, hhigh]; exact h.room, by rw [hhigh]; exact h.top⟩
  rw [hbase]
  exact h.stored.congr hmem

/-- **`new`** leaves the empty program. -/
theorem commandNew_spec (h : m.Holds p) :
    ∃ m', Settles (fun fuel => commandNew fuel m) (.ok m') ∧ m'.Clear .empty := by
  have hroom := h.room
  -- the zero offset at the start of the program area closes the empty program
  have hempty : Machine.Holds { m with bank := m.bank.setWord m.programStart 0x0000 } .empty := by
    rw [h.programStart_eq]
    refine ⟨⟨⟨Memory.word_setWord (by decide), trivial⟩, ?_⟩, ?_, h.top⟩
    · have hbound := h.stored.bound
      simp only [Program.empty, sizeOfLines_nil]
      omega
    · simp only [Program.empty, sizeOfLines_nil]
      omega
  obtain ⟨m', hset, hclear, -⟩ := clearVariablesPointersAndStacks_spec hempty
  exact ⟨m', hset, hclear⟩

/-- **`run`** of the empty program ends at once. -/
theorem commandRun_empty (h : m.Holds p) (hp : p.lines = []) :
    Settles (fun fuel => commandRun fuel m) (.error .leaves) := by
  obtain ⟨m₀, hset, hc, -⟩ := clearVariablesPointersAndStacks_spec h
  refine Settles.bind hset (.of_forall fun fuel => ?_)
  have hstored := hc.stored
  rw [hp] at hstored
  have hroom := hc.room
  have htop := hc.top
  unfold frunNextLineNumber
  rw [add16_eq (by omega), if_pos hstored.word_nil]

/-- **`run`** clears the variables and begins with the first line. -/
theorem commandRun_first (h : m.Holds p) (hp : p.lines = l :: ls) :
    ∃ m', Settles (fun fuel => commandRun fuel m) (.ok m') ∧ m'.Clear p ∧
      m'.dLineNumber = l.number ∧ m'.bank.WordsAt m'.dCodePtr (l.tokens ++ [0x0000]) := by
  obtain ⟨m₀, hset, hc, -⟩ := clearVariablesPointersAndStacks_spec h
  have hstored := hc.stored
  rw [hp] at hstored
  have hroom := hc.room
  have htop := hc.top
  have hstart : add16 m₀.dBaseAddress blockProgramStart = m₀.dBaseAddress + blockProgramStart :=
    add16_eq (by omega)
  have hnext : add16 (m₀.dBaseAddress + blockProgramStart) 4 =
      m₀.dBaseAddress + blockProgramStart + 4 := by
    have hbound := hstored.bound
    rw [sizeOfLines_cons] at hbound
    exact add16_eq (by omega)
  refine ⟨{ m₀ with
    dLineNumber := l.number, dCodePtr := m₀.dBaseAddress + blockProgramStart + 4 }, ?_,
    ⟨⟨hc.stored, hc.room, hc.top⟩, hc.markers, hc.low, hc.high, hc.null, hc.table, hc.stack, hc.bottom,
      hc.temp⟩, rfl, ?_⟩
  -- the offset of the first line is not zero, so that `run` does not end
  · refine Settles.bind hset (.of_forall fun fuel => ?_)
    unfold frunNextLineNumber
    rw [hstart, if_neg (by rw [hstored.word_offset]; omega), hstored.word_number, hnext]
  · have hwords := hstored.words
    rw [wordsOfLines_cons, List.append_assoc, Memory.wordsAt_append] at hwords
    exact hwords.1.2.2

/-- **The program in the workspace.** By induction on what is entered. -/
theorem PromptRun.holds (h : PromptRun m p) : m.Holds p := by
  induction h with
  | start h => exact h
  | line _ he hroom hset ih =>
    obtain ⟨m₁, hset', hclear, -⟩ := executeTokenBuffer_spec ih he hroom
    obtain ⟨-, rfl⟩ := Prod.mk.inj (Except.ok.inj (hset.unique hset'))
    exact hclear.toHolds
  | new _ hset ih =>
    obtain ⟨m₁, hset', hclear⟩ := commandNew_spec ih
    obtain rfl := Except.ok.inj (hset.unique hset')
    exact hclear.toHolds
  | clear _ hset ih =>
    obtain ⟨m₁, hset', hclear, -⟩ := clearVariablesPointersAndStacks_spec ih
    obtain rfl := Except.ok.inj (hset.unique hset')
    exact hclear.toHolds
  | @run m m' p _ hset ih =>
    -- `run` goes on only where there is a line
    cases hp : p.lines with
    | nil => cases hset.unique (commandRun_empty ih hp)
    | cons l ls =>
      obtain ⟨m₁, hset', hclear, -⟩ := commandRun_first ih hp
      obtain rfl := Except.ok.inj (hset.unique hset')
      exact hclear.toHolds
  | other _ hbase hhigh hmem ih => exact ih.congr hbase hhigh hmem

/-- An editing session is a run at the prompt. -/
theorem PromptRun.session {es : List Entry} (h : PromptRun m p) (hs : Session m es m')
    (hfits : FitsAll m p es) : PromptRun m' (p.edits es) := by
  induction hs generalizing p with
  | done => exact h
  | @enter m m₁ m₂ m' e es hbase hhigh hoff he hset _ ih =>
    have h₁ := h.other hbase hhigh (hoff.eqOn (.inr (Nat.le_refl _)))
    have hroom := hfits.head
    rw [← hbase, ← hhigh] at hroom
    obtain ⟨m₃, hset', -, hbase', hhigh', -⟩ := executeTokenBuffer_spec h₁.holds he hroom
    obtain ⟨-, rfl⟩ := Prod.mk.inj (Except.ok.inj (hset.unique hset'))
    exact ih (h₁.line he hroom hset) (hfits.tail (hbase'.trans hbase) (hhigh'.trans hhigh))

/-- **What is entered at the prompt**, in every state that is reached: the workspace holds the program;
a line sets or removes that line of the program, `new` leaves the empty program, `clear` keeps the
program, and `run` begins with its first line; all of them leave nothing in the workspace but the
program. -/
theorem prompt_commands (h : PromptRun m p) : m.Holds p ∧
    (∀ (n : ℕ) (ts : List ℕ) (he : m.Entered n ts),
      m.dBaseAddress + blockProgramStart + sizeOfLines (p.edit n ts he.number).lines + 6 ≤
        m.dHighAddress →
      ∃ m', Settles (fun fuel => executeTokenBuffer fuel m) (.ok (.nextCommand, m')) ∧
        m'.Clear (p.edit n ts he.number)) ∧
    (∃ m', Settles (fun fuel => commandNew fuel m) (.ok m') ∧ m'.Clear .empty) ∧
    (∃ m', Settles (fun fuel => commandClear fuel m) (.ok m') ∧ m'.Clear p) ∧
    (p.lines = [] → Settles (fun fuel => commandRun fuel m) (.error .leaves)) ∧
    ∀ l ls, p.lines = l :: ls → ∃ m', Settles (fun fuel => commandRun fuel m) (.ok m') ∧
      m'.Clear p ∧ m'.dLineNumber = l.number ∧
        m'.bank.WordsAt m'.dCodePtr (l.tokens ++ [0x0000]) := by
  have hholds := h.holds
  refine ⟨hholds, fun n ts he hroom => ?_, commandNew_spec hholds, ?_, commandRun_empty hholds,
    fun l ls => commandRun_first hholds⟩
  · obtain ⟨m', hset, hclear, -⟩ := executeTokenBuffer_spec hholds he hroom
    exact ⟨m', hset, hclear⟩
  · obtain ⟨m', hset, hclear, -⟩ := clearVariablesPointersAndStacks_spec hholds
    exact ⟨m', hset, hclear⟩

/-- `5 b=2` and `10 a=3` are in the workspace after the session. `run` begins with line 5 and keeps them,
`new` leaves nothing, and then `run` ends at once. -/
theorem prompt_commands_session : ∃ m m₁ m₂ : Machine,
    Session emptyWorkspace threeEntries m ∧ m.Holds (Program.empty.edits threeEntries) ∧
    Settles (fun fuel => commandRun fuel m) (.ok m₁) ∧ m₁.dLineNumber = 5 ∧
    m₁.Holds (Program.empty.edits threeEntries) ∧
    Settles (fun fuel => commandNew fuel m₁) (.ok m₂) ∧ m₂.Holds .empty ∧
    Settles (fun fuel => commandRun fuel m₂) (.error .leaves) := by
  obtain ⟨m, hs⟩ :=
    Session.exists_of_typed emptyWorkspace_clear threeEntries_typed threeEntries_fits
  have hrun : PromptRun m (Program.empty.edits threeEntries) :=
    PromptRun.session (.start emptyWorkspace_clear.toHolds) hs threeEntries_fits
  obtain ⟨hholds, -, -, -, -, hfirst⟩ := prompt_commands hrun
  obtain ⟨m₁, hset₁, -, hline, -⟩ := hfirst ⟨5, [0xC002, 0x2206, 0x4002]⟩
    [⟨10, [0xC001, 0x2206, 0x4003]⟩] (by decide)
  obtain ⟨hholds₁, -, ⟨m₂, hset₂, -⟩, -⟩ := prompt_commands (hrun.run hset₁)
  obtain ⟨hholds₂, -, -, -, hleaves, -⟩ := prompt_commands ((hrun.run hset₁).new hset₂)
  exact ⟨m, m₁, m₂, hs, hholds, hset₁, hline, hholds₁, hset₂, hholds₂, hleaves rfl⟩

end

end Basic65816
