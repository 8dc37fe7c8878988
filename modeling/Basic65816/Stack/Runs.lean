import Basic65816.Stack.Discipline

/-!
# The stack along a run

From an empty stack on, the stack can always be read as a list of frames, in one way only, and every
statement acts on that list.

## Main definitions

* `Machine.statement`: the statement at the code pointer
* `StackRun`: the runs of the interpreter

## Main results

* `stack_discipline`: the discipline of the BASIC stack
-/

namespace Basic65816

/-- The statement at the code pointer: the routine that executes it, and the state it begins in. At a
colon and at the end of a line there is none. -/
def Machine.statement (m : Machine) : Option (Machine × Command) :=
  let m := { m with dTempStringPointer := 0 }
  let t := m.token
  if t = 0 ∨ t = colonTokenID then none
  else if t &&& 0xE800 = 0x2800 then
    match commandJumpTable[t &&& 0x01FF]? with
    | some (.command c) => some (m.skipToken, c)
    | _ => none
  else if t < 0xC000 then none
  else some (m, .commandLet)

/-- The runs of the interpreter that stay within the stack space, and call procedures without
parameters only. -/
inductive StackRun : Machine → Machine → Prop
  | refl {m : Machine} : StackRun m m
  | step {m m₁ m₂ : Machine} {fuel : ℕ} (h : StackRun m m₁)
      (hadmits : ∀ m' c, m₁.statement = some (m', c) → m'.Admits fuel c)
      (hstep : frunNextInstruction fuel m₁ = .ok m₂) : StackRun m m₂

section

variable {m m₁ m₂ : Machine} {c : Command} {fs : List StackFrame} {fuel : ℕ}

/-- The interpreter executes the statement at the code pointer. -/
theorem frunNextInstruction_statement (fuel : ℕ) (h : m.statement = some (m₁, c)) :
    frunNextInstruction fuel m = runCommand fuel m₁ c ∧ m₁.dStack = m.dStack ∧
      m₁.page = m.page ∧ m₁.dLineNumber = m.dLineNumber := by
  simp only [Machine.statement] at h
  simp only [frunNextInstruction]
  split at h
  · cases h
  rename_i hne
  rw [not_or] at hne
  rw [if_neg hne.1, if_neg hne.2]
  -- a keyword is executed from the vector table, an identifier begins an assignment
  split at h
  · rename_i hkey
    rw [if_pos hkey]
    split at h
    · rename_i hc
      cases h
      rw [hc]
      exact ⟨rfl, rfl, rfl, rfl⟩
    · cases h
  · rename_i hkey
    rw [if_neg hkey]
    split at h
    · cases h
    · rename_i hid
      cases h
      rw [if_neg hid]
      exact ⟨rfl, rfl, rfl, rfl⟩

/-- Without a statement the stack stays as it is. -/
theorem frunNextInstruction_keepsStack (fuel : ℕ) (h : m.statement = none) :
    Outcome m.KeepsStack anyStop (frunNextInstruction fuel m) (frunNextInstruction fuel m) := by
  simp only [Machine.statement] at h
  simp only [frunNextInstruction]
  -- the end of a line and a colon only move the code pointer
  have hline : ∀ (m₁ : Machine) a, m.KeepsStack m₁ →
      Outcome m.KeepsStack anyStop (frunNextLineNumber m₁ a) (frunNextLineNumber m₁ a) :=
    fun m₁ a h => .ite (fun _ => .error trivial) fun _ => .ok (h.same rfl rfl)
  refine .ite (fun _ => .ite (fun _ => .error trivial) fun _ => ?_) fun hzero => ?_
  · exact hline _ _ ⟨rfl, fun _ _ => rfl⟩
  refine .ite (fun _ => .ok ⟨rfl, fun _ _ => rfl⟩) fun hcolon => ?_
  rw [if_neg (not_or.mpr ⟨hzero, hcolon⟩)] at h
  refine .ite (fun hkey => ?_) fun hkey => .ite (fun _ => .error trivial) fun hid => ?_
  · rw [if_pos hkey] at h
    split at h
    · cases h
    · split
      · rename_i hne _ c hc
        exact absurd hc (hne c)
      · exact .error trivial
      · exact .error trivial
  · rw [if_neg hkey, if_neg hid] at h
    cases h

/-- **One step keeps the stack a list of frames.** -/
theorem frames_step (hf : m.Frames fs) (hadmits : ∀ m' c, m.statement = some (m', c) → m'.Admits fuel c)
    (h : frunNextInstruction fuel m = .ok m₁) : ∃ fs', m₁.Frames fs' := by
  cases hs : m.statement with
  | none =>
    have hkeep := frunNextInstruction_keepsStack fuel hs
    rw [h] at hkeep
    exact ⟨fs, hkeep.post.frames hf⟩
  | some p =>
    obtain ⟨hrun, hstack, hpage, -⟩ := frunNextInstruction_statement fuel hs
    have hf' : p.1.Frames fs := by
      unfold Machine.Frames
      rw [hstack, hpage]
      exact hf
    have heffect := command_effect p.2 hf' (hadmits p.1 p.2 hs)
    rw [← hrun, h] at heffect
    obtain ⟨fs', -, hf₁⟩ := heffect.post
    exact ⟨fs', hf₁⟩

/-- The stack is a list of frames in every state that is reached. By induction on the run. -/
theorem StackRun.frames (h : StackRun m m₁) (hf : m.Frames []) : ∃ fs, m₁.Frames fs := by
  induction h with
  | refl => exact ⟨[], hf⟩
  | step h hadmits hstep ih =>
    obtain ⟨fs, hfs⟩ := ih
    exact frames_step hfs hadmits hstep

/-- A statement that is neither `local` nor `proc` is admitted within the stack space. -/
theorem Machine.admits_of_statement (fuel : ℕ) (h : m.statement = some (m₁, c)) (hm : m.dStack < 0x200)
    (hl : c ≠ .commandLocal) (hp : c ≠ .commandProc) :
    ∀ m' c', m.statement = some (m', c') → m'.Admits fuel c' := by
  intro m' c' h'
  have hstack := (frunNextInstruction_statement fuel h).2.1
  cases h.symm.trans h'
  exact ⟨by unfold Machine.InSpace; omega, fun hc => absurd hc hl, fun hc => absurd hc hp⟩

end

/-- **The discipline of the BASIC stack.** In every state that is reached from an empty stack the
stack is a list of frames in one way only and does not end below the sentinel; a statement that
succeeds has its effect on that list, and a closing statement that does not find the frame of its
opener ends in its error. -/
theorem stack_discipline {m m₁ : Machine} (hs : m.dStack = basStack) (hz : m.dp basStack = 0)
    (h : StackRun m m₁) :
    ∃ fs, m₁.Frames fs ∧ (∀ fs', m₁.Frames fs' → fs' = fs) ∧ basStack ≤ m₁.dStack ∧
      ∀ fuel m₂ c, m₁.statement = some (m₂, c) → m₂.Admits fuel c →
        (∀ m₃, frunNextInstruction fuel m₁ = .ok m₃ →
          ∃ fs', Effect c m₂ m₃ fs fs' ∧ m₃.Frames fs') ∧
        ∀ k e, c.closes = some (k, e) → (∀ f fs', c.sees fs = f :: fs' → f.kind ≠ k) →
          fs.length < fuel →
            ∃ m₃, frunNextInstruction fuel m₁ = fail m₃ e ∧ m₃.dLineNumber = m₁.dLineNumber := by
  obtain ⟨fs, hf⟩ := h.frames (⟨hs, hs ▸ hz⟩ : m.Frames [])
  refine ⟨fs, hf, fun fs' hf' => Memory.Frames.unique hf' hf, hf.le, ?_⟩
  intro fuel m₂ c hstat hadmits
  obtain ⟨hrun, hstack, hpage, hline⟩ := frunNextInstruction_statement fuel hstat
  have hf₂ : m₂.Frames fs := by
    unfold Machine.Frames
    rw [hstack, hpage]
    exact hf
  rw [hrun]
  refine ⟨fun m₃ h₃ => ?_, fun k e hc htop hfuel => ?_⟩
  -- the effect of a statement that succeeds, and the error of a closing one
  · have heffect := command_effect c hf₂ hadmits
    rw [h₃] at heffect
    exact heffect.post
  · obtain ⟨m₃, h₃, hl⟩ := closing_fails hf₂ hadmits.space hfuel hc htop
    exact ⟨m₃, h₃, hl.trans hline⟩

/-- The command line `repeat until 1 until 1`: the first `until` finds the frame of the `repeat`, the
second one finds none. -/
theorem stack_discipline_until : ∃ m₁ m₂ m₃ f,
    frunNextInstruction 3 (commandMachine
      [repeatTokenID, 0x3a4a, 0x4001, 0x3a4a, 0x4001, 0]) = .ok m₁ ∧
    m₁.Frames [f] ∧ f.kind = .block .repeat ∧
    frunNextInstruction 3 m₁ = .ok m₂ ∧ m₂.Frames [] ∧
    frunNextInstruction 3 m₂ = fail m₃ .untilWithoutRepeat := by
  obtain ⟨m₀, hm₀⟩ : ∃ m₀, m₀ = commandMachine
    [repeatTokenID, 0x3a4a, 0x4001, 0x3a4a, 0x4001, 0] := ⟨_, rfl⟩
  obtain ⟨m₁, m₂, k₀, k₁, hstep₁, hstep₂, hrepeat, huntil₁, huntil₂, hcode, hs₁, hs₂⟩ :
      ∃ m₁ m₂ k₀ k₁, frunNextInstruction 3 m₀ = .ok m₁ ∧ frunNextInstruction 3 m₁ = .ok m₂ ∧
        m₀.statement = some (k₀, .commandRepeat) ∧ m₁.statement = some (k₁, .commandUntil) ∧
        m₂.statement.map Prod.snd = some .commandUntil ∧ m₂.dCodePtr ≠ word16 k₀.dCodePtr ∧
        m₁.dStack < 0x200 ∧ m₂.dStack < 0x200 := by
    rw [hm₀]
    exact ⟨_, _, _, _, rfl, rfl, rfl, rfl, by decide +kernel, by decide, by decide, by decide⟩
  obtain ⟨⟨k₂, -⟩, huntil₂, rfl⟩ := Option.map_eq_some_iff.mp huntil₂
  have hs : m₀.dStack = basStack := by
    rw [hm₀]
    rfl
  have hz : m₀.dp basStack = 0 := by
    rw [hm₀]
    rfl
  rw [← hm₀]
  have hadmits₀ := Machine.admits_of_statement 3 hrepeat (by rw [hs]; decide) nofun nofun
  have hadmits₁ := Machine.admits_of_statement 3 huntil₁ hs₁ nofun nofun
  have hadmits₂ := Machine.admits_of_statement 3 huntil₂ hs₂ nofun nofun
  -- the `repeat` puts its frame on the empty stack
  obtain ⟨fs, -, hu, -, hstat⟩ := stack_discipline hs hz .refl
  cases hu [] ⟨hs, hs ▸ hz⟩
  obtain ⟨fs₁, heffect, hf₁⟩ := (hstat 3 k₀ _ hrepeat (hadmits₀ _ _ hrepeat)).1 m₁ hstep₁
  cases heffect
  -- the first `until` drops it
  have hrun₁ : StackRun m₀ m₁ := .step .refl hadmits₀ hstep₁
  obtain ⟨fs₁, -, hu₁, -, hstat₁⟩ := stack_discipline hs hz hrun₁
  cases hu₁ _ hf₁
  obtain ⟨fs₂, heffect, hf₂⟩ := (hstat₁ 3 k₁ _ huntil₁ (hadmits₁ _ _ huntil₁)).1 m₂ hstep₂
  cases heffect with
  | untilAgain hc => exact absurd hc hcode
  | untilDone =>
    -- the second one finds none
    have hrun₂ : StackRun m₀ m₂ := .step hrun₁ hadmits₁ hstep₂
    obtain ⟨fs₂, -, hu₂, -, hstat₂⟩ := stack_discipline hs hz hrun₂
    cases hu₂ _ hf₂
    obtain ⟨m₃, hfails, -⟩ :=
      (hstat₂ 3 k₂ _ huntil₂ (hadmits₂ _ _ huntil₂)).2 _ _ rfl nofun (by decide)
    exact ⟨m₁, m₂, m₃, _, hstep₁, hf₁, rfl, hstep₂, hf₂, hfails⟩

end Basic65816
