import Basic65816.Lib.Outcome
import Basic65816.Program.Session
import Basic65816.Storage.Record

/-!
# Room for a line

Entering a line opens a gap in the stored program, whatever is behind it. Nothing in the editor looks
at the high memory pointer.

## Main definitions

* `Machine.KeepsProgram`: a program ends below the high memory pointer
* `EditsInside`: entering a line stays in the workspace or fails

## Main results

* `executeTokenBuffer_outcome`: entering a line cannot fail
* `edit_inside`: when the program stays in the workspace
-/

namespace Basic65816

/-- The lines `ls` are stored, and their end and the markers are below the high memory pointer, as is
the low memory pointer. -/
structure Machine.KeepsProgram (m : Machine) (ls : List Line) : Prop where
  stored : StoredAt m.bank (m.dBaseAddress + blockProgramStart) ls
  markers : m.bank.WordsAt (m.dBaseAddress + blockProgramStart + sizeOfLines ls + 2) [0xEEEE, 0xEEEE]
  below : m.dBaseAddress + blockProgramStart + sizeOfLines ls + 6 ≤ m.block blockHighMemoryPtr
  low : m.block blockLowMemoryPtr ≤ m.block blockHighMemoryPtr

/-- Entering the line `n` with the tokens `ts` leaves the edited program in the workspace, or it is an
error and the program stays as it is; no byte outside the workspace changes. -/
def EditsInside (m : Machine) (p : Program) (n : ℕ) (ts : List ℕ) (hn : 1 ≤ n ∧ n ≤ 32767) : Prop :=
  (∃ m', Settles (fun fuel => executeTokenBuffer fuel m) (.ok (.nextCommand, m')) ∧
    m'.dBaseAddress = m.dBaseAddress ∧ m'.dHighAddress = m.dHighAddress ∧
    m'.KeepsProgram (p.edit n ts hn).lines ∧
    m.bank.EqOff m.dBaseAddress m.dHighAddress m'.bank) ∨
  ∃ e m', Settles (fun fuel => executeTokenBuffer fuel m) (fail m' e) ∧
    StoredAt m'.bank (m.dBaseAddress + blockProgramStart) p.lines ∧
    m.bank.EqOff m.dBaseAddress m.dHighAddress m'.bank

/-! ## No errors -/

/-- The bounds of the workspace are as they were. -/
def Machine.SameBounds (m m' : Machine) : Prop :=
  m'.dBaseAddress = m.dBaseAddress ∧ m'.dHighAddress = m.dHighAddress

/-- Only fuel is wanting. -/
def outOfFuelOnly (s : Stop) : Prop := s = .outOfFuel

section

variable {m m₁ : Machine} {p : Program} {ts : List ℕ} {a n x y fuel : ℕ}

theorem Machine.SameBounds.same {m₂ : Machine} (h : m.SameBounds m₁)
    (hbase : m₂.dBaseAddress = m₁.dBaseAddress) (hhigh : m₂.dHighAddress = m₁.dHighAddress) :
    m.SameBounds m₂ :=
  ⟨hbase.trans h.1, hhigh.trans h.2⟩

theorem fceLoop_outcome (m : Machine) (y : ℕ) :
    Outcome (fun _ => True) outOfFuelOnly (fceLoop fuel m y) (fceLoop fuel m y) := by
  induction fuel generalizing y with
  | zero => exact .error rfl
  | succ fuel ih => exact .ite (fun _ => .ok trivial) fun _ => ih _

theorem ldLoop_outcome (m : Machine) (x y : ℕ) :
    Outcome (fun _ => True) outOfFuelOnly (ldLoop fuel m x y) (ldLoop fuel m x y) := by
  induction fuel generalizing y with
  | zero => exact .error rfl
  | succ fuel ih =>
    exact .ite (fun _ => .ok trivial) fun _ => .ite (fun _ => .ok trivial) fun _ => ih _

theorem liFindLength_outcome (m : Machine) (y : ℕ) :
    Outcome (fun _ => True) outOfFuelOnly (liFindLength fuel m y) (liFindLength fuel m y) := by
  induction fuel generalizing y with
  | zero => exact .error rfl
  | succ fuel ih => exact .ite (fun _ => .ok trivial) fun _ => .ite (fun _ => ih _) fun _ => ih _

theorem liFindInsertPoint_outcome (m : Machine) (y : ℕ) :
    Outcome (fun _ => True) outOfFuelOnly (liFindInsertPoint fuel m y)
      (liFindInsertPoint fuel m y) := by
  induction fuel generalizing y with
  | zero => exact .error rfl
  | succ fuel ih =>
    exact .ite (fun _ => .ok trivial) fun _ => .ite (fun _ => .ok trivial) fun _ => ih _

theorem ldCopy_outcome (h : m.SameBounds m₁) (x y : ℕ) :
    Outcome m.SameBounds outOfFuelOnly (ldCopy fuel m₁ x y) (ldCopy fuel m₁ x y) := by
  induction fuel generalizing m₁ x y with
  | zero => exact .error rfl
  | succ fuel ih =>
    rw [ldCopy]
    generalize sub16 x 2 = x
    refine .ite (fun _ => .ok ?_) fun _ => ih ?_ _ _
    · exact h.same rfl rfl
    · exact h.same rfl rfl

theorem liCopyMove_outcome (h : m.SameBounds m₁) :
    Outcome m.SameBounds outOfFuelOnly (liCopyMove fuel m₁) (liCopyMove fuel m₁) := by
  induction fuel generalizing m₁ with
  | zero => exact .error rfl
  | succ fuel ih =>
    rw [liCopyMove]
    dsimp only
    refine .ite (fun _ => .ok ?_) fun _ => ih ?_
    · exact h.same rfl rfl
    · exact h.same rfl rfl

theorem liCopyTokens_outcome (h : m.SameBounds m₁) (y : ℕ) :
    Outcome m.SameBounds outOfFuelOnly (liCopyTokens fuel m₁ y) (liCopyTokens fuel m₁ y) := by
  induction fuel generalizing m₁ y with
  | zero => exact .error rfl
  | succ fuel ih =>
    rw [liCopyTokens]
    generalize sub16 m₁.dTemp3 2 = c
    split_ifs
    · exact .ok (h.same rfl rfl)
    · apply ih
      exact h.same rfl rfl

theorem lineDelete_outcome (h : m.SameBounds m₁) (a : ℕ) :
    Outcome m.SameBounds outOfFuelOnly (lineDelete fuel m₁ a) (lineDelete fuel m₁ a) := by
  refine (ldLoop_outcome m₁ a m₁.programStart).bind ?_
  rintro (_ | y) -
  · exact .ok h
  · refine (fceLoop_outcome _ _).bind fun codeEnd _ => ldCopy_outcome ?_ _ _
    exact h.same rfl rfl

theorem lineInsert_outcome (h : m.SameBounds m₁) (a y : ℕ) :
    Outcome m.SameBounds outOfFuelOnly (lineInsert fuel m₁ a y) (lineInsert fuel m₁ a y) := by
  refine (liFindLength_outcome _ _).bind fun length _ => ?_
  refine (liFindInsertPoint_outcome _ _).bind fun point _ => ?_
  refine (fceLoop_outcome _ _).bind fun codeEnd _ => ?_
  refine (liCopyMove_outcome (m := m) ?_).bind fun m₂ h₂ => liCopyTokens_outcome ?_ _
  · exact h.same rfl rfl
  · exact h₂.same rfl rfl

theorem fcLoop_sameBounds (h : m.SameBounds m₁) : m.SameBounds (fcLoop m₁) := by
  unfold fcLoop
  generalize List.range (blockHashTableEntrySize * 4) = is
  induction is generalizing m₁ with
  | nil => exact h
  | cons i is ih => exact ih (h.same rfl rfl)

theorem stringResetPermanent_high (h : m.SameBounds m₁) (htop : m.dHighAddress < 0x10000) :
    m.SameBounds (stringResetPermanent m₁) ∧
      (stringResetPermanent m₁).block blockHighMemoryPtr = m.dHighAddress := by
  refine ⟨h.same rfl rfl, ?_⟩
  unfold stringResetPermanent
  rw [Machine.block_setBlock]
  · exact h.2
  · exact h.2 ▸ htop

/-- After clearing, the high memory pointer is at the top of the workspace. -/
theorem clearVariablesPointersAndStacks_outcome (h : m.SameBounds m₁)
    (htop : m.dHighAddress < 0x10000) :
    Outcome (fun m' => m.SameBounds m' ∧ m'.block blockHighMemoryPtr = m.dHighAddress) outOfFuelOnly
      (clearVariablesPointersAndStacks fuel m₁) (clearVariablesPointersAndStacks fuel m₁) := by
  refine (fceLoop_outcome _ _).bind fun y _ => .ok ?_
  generalize hloop : fcLoop _ = m₂
  have h₂ : m.SameBounds m₂ := by
    rw [← hloop]
    apply fcLoop_sameBounds
    exact h.same rfl rfl
  exact stringResetPermanent_high (h₂.same rfl rfl) htop

/-- **Entering a line** does not fail, and leaves the high memory pointer at the top. -/
theorem executeTokenBuffer_outcome (he : m.Entered n ts) (htop : m.dHighAddress < 0x10000) :
    Outcome (fun r => m.SameBounds r.2 ∧ r.2.block blockHighMemoryPtr = m.dHighAddress) outOfFuelOnly
      (executeTokenBuffer fuel m) (executeTokenBuffer fuel m) := by
  have hfirst : m.block blockTokenBuffer = n + 0x4000 := he.buffer.1
  obtain ⟨h₁, h₂⟩ := he.number
  unfold executeTokenBuffer
  dsimp only
  rw [hfirst, if_neg (by omega), if_neg (by omega), if_neg (by omega)]
  refine (lineDelete_outcome ⟨rfl, rfl⟩ _).bind fun m₂ hm₂ => ?_
  refine (clearVariablesPointersAndStacks_outcome hm₂ htop).bind fun m₃ hm₃ => ?_
  refine .ite (fun _ => .ok hm₃) fun _ => ?_
  refine (lineInsert_outcome hm₃.1 _ _).bind fun m₄ hm₄ => ?_
  exact (clearVariablesPointersAndStacks_outcome hm₄ htop).bind fun m₅ hm₅ => .ok hm₅

/-! ## Entering a line -/

/-- A program that stays in the workspace has room there. -/
theorem EditsInside.room (he : m.Entered n ts) (htop : m.dHighAddress < 0x10000)
    (h : EditsInside m p n ts he.number) : m.dBaseAddress + blockProgramStart +
      sizeOfLines (p.edit n ts he.number).lines + 6 ≤ m.dHighAddress := by
  rcases h with ⟨m', hset, hbase, -, hkeeps, -⟩ | ⟨e, m', hset, -⟩
  · obtain ⟨k, hk⟩ := hset.exists_fuel
    have hrun : Outcome _ _ (executeTokenBuffer k m) (executeTokenBuffer k m) :=
      executeTokenBuffer_outcome he htop
    rw [hk] at hrun
    have hbelow := hkeeps.below
    rw [hrun.post.2, hbase] at hbelow
    exact hbelow
  · obtain ⟨k, hk⟩ := hset.exists_fuel
    have hrun : Outcome _ _ (executeTokenBuffer k m) (executeTokenBuffer k m) :=
      executeTokenBuffer_outcome he htop
    rw [hk] at hrun
    cases hrun.stop

/-- Entering a line keeps the program in the workspace if and only if the edited program ends, with
its markers, below the top. -/
theorem edit_inside (h : m.Holds p) (he : m.Entered n ts) :
    EditsInside m p n ts he.number ↔ m.dBaseAddress + blockProgramStart +
      sizeOfLines (p.edit n ts he.number).lines + 6 ≤ m.dHighAddress := by
  refine ⟨fun hinside => hinside.room he h.top, fun hroom => ?_⟩
  obtain ⟨m', hset, hclear, hbase, hhigh, hoff⟩ := executeTokenBuffer_spec h he hroom
  refine .inl ⟨m', hset, hbase, hhigh, ⟨hclear.stored, hclear.markers, ?_, ?_⟩, hoff⟩
  · rw [hclear.high]
    exact hclear.room
  · rw [hclear.high, hclear.low]
    exact hclear.room

/-- The line `10 a=1` entered in the empty workspace. -/
theorem edit_inside_one_line :
    EditsInside emptyWorkspaceTokenised .empty 10 [0xC001, 0x2206, 0x4001] (by decide) ↔
      0x4000 + blockProgramStart +
        sizeOfLines (Program.empty.edit 10 [0xC001, 0x2206, 0x4001] (by decide)).lines + 6 ≤
          0x8000 :=
  edit_inside emptyWorkspaceTokenised_holds emptyWorkspaceTokenised_entered

/-- The same workspace, if it ends two bytes behind the markers. -/
def fullWorkspaceTokenised : Machine :=
  { emptyWorkspaceTokenised with
    dHighAddress := 0x4208, bank := emptyWorkspaceTokenised.bank.setWord 0x400A 0x4208 }

/-- The line `10 a=1` entered in the full workspace: the low memory pointer is above the high one, and
the word behind the workspace is no longer what it was. -/
theorem edit_outside : fullWorkspaceTokenised.Holds .empty ∧
    fullWorkspaceTokenised.Entered 10 [0xC001, 0x2206, 0x4001] ∧
    (∃ m', executeTokenBuffer 9 fullWorkspaceTokenised = .ok (.nextCommand, m') ∧
      m'.block blockHighMemoryPtr = 0x4208 ∧ m'.block blockLowMemoryPtr = 0x4212 ∧
      m'.bank.word 0x4208 ≠ fullWorkspaceTokenised.bank.word 0x4208) ∧
    ¬EditsInside fullWorkspaceTokenised .empty 10 [0xC001, 0x2206, 0x4001] (by decide) := by
  have hentered : fullWorkspaceTokenised.Entered 10 [0xC001, 0x2206, 0x4001] :=
    ⟨by decide, ⟨by decide, by decide, by decide, by decide, by decide, trivial⟩,
      ⟨ord "10 a=1", by decide⟩, by decide⟩
  refine ⟨⟨⟨⟨by decide, trivial⟩, by decide⟩, by decide, by decide⟩, hentered, ?_, fun h => ?_⟩
  · obtain ⟨⟨c, m'⟩, hrun, rfl, hrest⟩ := Except.exists_of_check
      (r := executeTokenBuffer 9 fullWorkspaceTokenised)
      (P := fun r => r.1 = .nextCommand ∧ r.2.block blockHighMemoryPtr = 0x4208 ∧
        r.2.block blockLowMemoryPtr = 0x4212 ∧
        r.2.bank.word 0x4208 ≠ fullWorkspaceTokenised.bank.word 0x4208) (by decide +kernel)
    exact ⟨m', hrun, hrest⟩
  · have hroom : 0x4000 + blockProgramStart + sizeOfLines (Program.empty.edit 10
        [0xC001, 0x2206, 0x4001] (by decide)).lines + 6 ≤ 0x4208 := h.room hentered (by decide)
    exact absurd hroom (by decide)

end

end Basic65816
