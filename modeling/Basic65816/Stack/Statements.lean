import Basic65816.Stack.Frames
import Basic65816.Storage.StringAssign

/-!
# What the statements do to the stack

## Main definitions

* `Machine.KeepsStack`: the frames stay as they are
* `Effect`: what a statement does to the frames, and where it continues

## Main results

* `Command.effect`: every statement has its effect on the frames
* `Command.fails`: a closing statement without the frame it needs ends in its error
-/

namespace Basic65816

/-! ## Keeping the stack -/

/-- The stack pointer and the page up to the word it points at are the same. -/
structure Machine.KeepsStack (m m' : Machine) : Prop where
  stack : m'.dStack = m.dStack
  page : ∀ a < m.dStack + 2, m'.page a = m.page a

section

variable {m m₁ m₂ m' : Machine} {fs : List StackFrame} {fuel : ℕ}

theorem Machine.KeepsStack.refl : m.KeepsStack m := ⟨rfl, fun _ _ => rfl⟩

theorem Machine.KeepsStack.trans (h : m.KeepsStack m₁) (h' : m₁.KeepsStack m₂) :
    m.KeepsStack m₂ where
  stack := h'.stack.trans h.stack
  page a ha := (h'.page a (by rwa [h.stack])).trans (h.page a ha)

theorem Machine.KeepsStack.same (h : m.KeepsStack m₁) (hs : m₂.dStack = m₁.dStack)
    (hp : m₂.page = m₁.page) : m.KeepsStack m₂ :=
  h.trans ⟨hs, fun a _ => congrFun hp a⟩

/-- The frames of the stack. -/
def Machine.Frames (m : Machine) (fs : List StackFrame) : Prop := m.page.Frames m.dStack fs

/-- The stack is within its space. -/
def Machine.InSpace (m : Machine) : Prop := m.dStack < 0x200

theorem Machine.KeepsStack.frames (h : m.KeepsStack m') (hf : m.Frames fs) : m'.Frames fs := by
  have := Memory.Frames.congr hf h.page
  rwa [← h.stack] at this

theorem Machine.KeepsStack.inSpace (h : m.KeepsStack m') (hm : m.InSpace) : m'.InSpace := by
  unfold Machine.InSpace
  rw [h.stack]
  exact hm

theorem Machine.Workspace.keepsStack (h : m.Workspace m') : m.KeepsStack m' :=
  ⟨h.stack, fun a _ => congrFun h.page a⟩

theorem Machine.Around.keepsStack {x : ℕ} (h : m.Around x m') (hx : m.dStack + 2 ≤ x) :
    m.KeepsStack m' :=
  ⟨h.stack, fun a ha => h.page a (by omega)⟩

/-- The stack pointer is near enough to its space for an expression above it. -/
def Machine.NearSpace (m : Machine) : Prop := m.dStack < 0x300

theorem Machine.InSpace.near (h : m.InSpace) : m.NearSpace := h.trans (by decide)

/-- Any error will do. -/
abbrev anyStop : Stop → Prop := fun _ => True

/-! ## Routines that keep the stack -/

theorem evaluateInteger_keepsStack (h : m.KeepsStack m₁) (hm : m.NearSpace) :
    Outcome (fun r => m.KeepsStack r.2) anyStop (evaluateInteger fuel m₁)
      (evaluateInteger fuel m₁) := by
  refine (evaluateInteger_around fuel).imp (fun r hr => h.trans (hr.keepsStack ?_))
    fun _ _ => trivial
  have hs : m.dStack < 0x300 := hm
  have := h.stack
  rw [add16_eq (by omega)]
  omega

theorem evaluateString_keepsStack (h : m.KeepsStack m₁) (hm : m.NearSpace) :
    Outcome (fun r => m.KeepsStack r.2) anyStop (evaluateString fuel m₁)
      (evaluateString fuel m₁) := by
  refine (evaluateString_around fuel).imp (fun r hr => h.trans (hr.keepsStack ?_))
    fun _ _ => trivial
  have hs : m.dStack < 0x300 := hm
  have := h.stack
  rw [add16_eq (by omega)]
  omega

theorem expectToken_keepsStack (h : m.KeepsStack m₁) (a : ℕ) :
    Outcome m.KeepsStack anyStop (expectToken m₁ a) (expectToken m₁ a) :=
  .ite (fun _ => .ok (h.trans ⟨rfl, fun _ _ => rfl⟩)) fun _ => .error trivial

theorem variableFind_keepsStack (h : m.KeepsStack m₁) :
    Outcome (fun r => m.KeepsStack r.2) anyStop (variableFind fuel m₁) (variableFind fuel m₁) := by
  have hfind := frame_around.find (m := m₁) (x := m₁.dStack + 2) fuel .refl
  exact hfind.imp (fun r hr => h.trans (hr.keepsStack (Nat.le_refl _))) fun _ _ => trivial

theorem vcCloneLoop_workspace (h : m.Workspace m₁) (x : ℕ) :
    Outcome m.Workspace anyStop (vcCloneLoop fuel m₁ x) (vcCloneLoop fuel m₁ x) := by
  induction fuel generalizing m₁ x with
  | zero => exact .error trivial
  | succ fuel ih =>
    have h₁ : m.Workspace { m₁.setBlock blockLowMemoryPtr (add16 (m₁.block blockLowMemoryPtr) 2) with
        bank := (m₁.setBlock blockLowMemoryPtr (add16 (m₁.block blockLowMemoryPtr) 2)).bank.setWord
          (m₁.block blockLowMemoryPtr) ((m₁.setBlock blockLowMemoryPtr
            (add16 (m₁.block blockLowMemoryPtr) 2)).bank.word x) } :=
      h.trans ⟨rfl, rfl, rfl, rfl, rfl, rfl, rfl⟩
    exact .ite (fun _ => ih h₁ _) fun _ => .ok h₁

theorem vcSkipToken_workspace (h : m.Workspace m₁) :
    Outcome m.Workspace anyStop (vcSkipToken fuel m₁) (vcSkipToken fuel m₁) := by
  have hskip : ∀ m₁ : Machine, m.Workspace m₁ → m.Workspace m₁.skipToken := fun m₁ h =>
    h.trans ⟨rfl, rfl, rfl, rfl, rfl, rfl, rfl⟩
  induction fuel generalizing m₁ with
  | zero => exact .error trivial
  | succ fuel ih => exact .ite (fun _ => ih (hskip _ h)) fun _ => .ok (hskip _ h)

theorem variableCreate_workspace (h : m.Workspace m₁) :
    Outcome (fun r => m.Workspace r.2) anyStop (variableCreate fuel m₁)
      (variableCreate fuel m₁) := by
  rw [variableCreate_eq]
  have hopen : m.Workspace (m₁.takeRecord.openRecord (m₁.block blockLowMemoryPtr)) :=
    h.trans ⟨rfl, rfl, rfl, rfl, rfl, rfl, rfl⟩
  have hlink : ∀ (m₂ : Machine) (y name : ℕ), m.Workspace m₂ → m.Workspace (m₂.link y name) :=
    fun m₂ y name h => h.trans ⟨rfl, rfl, rfl, rfl, rfl, rfl, rfl⟩
  refine .ite (fun _ => .error trivial) fun _ => .ite (fun _ => ?_) fun _ => ?_
  · refine Outcome.bind (P := fun r => m.Workspace r.2)
      ((vcCloneLoop_workspace hopen _).bind fun m₂ h₂ => .ok h₂) ?_
    rintro ⟨name, m₂⟩ h₂
    exact (vcSkipToken_workspace (hlink _ _ _ h₂)).bind fun m₃ h₃ => .ok h₃
  · exact (vcSkipToken_workspace (hlink _ _ _ hopen)).bind fun m₃ h₃ => .ok h₃

theorem variableCreate_keepsStack (h : m.KeepsStack m₁) :
    Outcome (fun r => m.KeepsStack r.2) anyStop (variableCreate fuel m₁)
      (variableCreate fuel m₁) :=
  (variableCreate_workspace .refl).mono fun _ hr => h.trans hr.keepsStack

/-- Finding a variable, and creating it if it is not there. -/
theorem forVariable_around {x : ℕ} (h : m.Around x m₁) :
    Outcome (fun r => m.Around x r.2) anyStop (forVariable fuel m₁) (forVariable fuel m₁) := by
  refine ((frame_around.find fuel h).imp (fun _ h => h) fun _ _ => trivial).bind ?_
  rintro ⟨data, m₂⟩ h₂
  cases data with
  | some a => exact .ok h₂
  | none => exact (variableCreate_workspace .refl).mono fun _ hw => h₂.workspace hw

theorem sflLoop_keepsStack (a b line x : ℕ) (h : m.KeepsStack m₁) :
    Outcome (fun r => m.KeepsStack r.2) anyStop (sflLoop a b line fuel m₁ x)
      (sflLoop a b line fuel m₁ x) := by
  have hregs : ∀ {m₁ : Machine} {code line : ℕ}, m.KeepsStack m₁ →
      m.KeepsStack { m₁ with dLineNumber := line, dCodePtr := code } := fun h =>
    h.trans ⟨rfl, fun _ _ => rfl⟩
  induction fuel generalizing m₁ x with
  | zero => exact .error trivial
  | succ fuel ih =>
    rw [sflLoop]
    refine .ite (fun _ => .ok h) fun _ => .ite (fun _ => ?_) fun _ => ?_
    · exact .ite (fun _ => .error trivial) fun _ => ih _ (hregs h)
    refine .ite (fun _ => ih _ (hregs h)) fun _ => ?_
    have hskip : m.KeepsStack m₁.skipToken := hregs h
    refine .ite (fun _ => ih _ hskip) fun _ => .ite (fun _ => ih _ hskip) fun _ => ?_
    refine .ite (fun _ => ih _ hskip) fun _ => ?_
    exact .ite (fun _ => .error trivial) fun _ => ih _ hskip

theorem scanForwardLevel_keepsStack (h : m.KeepsStack m₁) (a b : ℕ) :
    Outcome (fun r => m.KeepsStack r.2) anyStop (scanForwardLevel fuel m₁ a b)
      (scanForwardLevel fuel m₁ a b) :=
  sflLoop_keepsStack _ _ _ _ (h.trans ⟨rfl, fun _ _ => rfl⟩)

theorem fifEndOfLine_keepsStack (h : m.KeepsStack m₁) :
    Outcome m.KeepsStack anyStop (fifEndOfLine fuel m₁) (fifEndOfLine fuel m₁) := by
  induction fuel generalizing m₁ with
  | zero => exact .error trivial
  | succ fuel ih =>
    refine .ite (fun _ => .ok h) fun _ => .ite (fun _ => ih ?_) fun _ => ih ?_
    · exact h.trans ⟨rfl, fun _ _ => rfl⟩
    · exact h.trans ⟨rfl, fun _ _ => rfl⟩

theorem fgoSearch_keepsStack (x y : ℕ) (h : m.KeepsStack m₁) :
    Outcome m.KeepsStack anyStop (fgoSearch x fuel m₁ y) (fgoSearch x fuel m₁ y) := by
  induction fuel generalizing y with
  | zero => exact .error trivial
  | succ fuel ih =>
    refine .ite (fun _ => .error trivial) fun _ => .ite (fun _ => .ok ?_) fun _ => ih _
    exact h.trans ⟨rfl, fun _ _ => rfl⟩

theorem commandGoto_keepsStack (h : m.KeepsStack m₁) :
    Outcome m.KeepsStack anyStop (commandGoto fuel m₁) (commandGoto fuel m₁) :=
  .ite (fun _ => .error trivial) fun _ => fgoSearch_keepsStack _ _ h

theorem fogoLoop_keepsStack (x : ℕ) (h : m.KeepsStack m₁) :
    Outcome m.KeepsStack anyStop (fogoLoop fuel x m₁) (fogoLoop fuel x m₁) := by
  induction x generalizing m₁ with
  | zero => exact commandGoto_keepsStack h
  | succ x ih =>
    refine .ite (fun _ => .error trivial) fun _ => ?_
    have hskip : m.KeepsStack m₁.skipToken := h.trans ⟨rfl, fun _ _ => rfl⟩
    exact (expectToken_keepsStack hskip commaTokenID).bind fun m₂ h₂ => ih h₂

theorem commandOngoto_keepsStack (h : m.KeepsStack m₁) (hm : m.NearSpace) :
    Outcome m.KeepsStack anyStop (commandOngoto fuel m₁) (commandOngoto fuel m₁) := by
  refine (evaluateInteger_keepsStack h hm).bind ?_
  rintro ⟨v, m₂⟩ h₂
  refine .ite (fun _ => .error trivial) fun _ => ?_
  exact (expectToken_keepsStack h₂ gotoTokenID).bind fun m₃ h₃ => fogoLoop_keepsStack _ h₃

theorem forStep_keepsStack (h : m.KeepsStack m₁) (hm : m.NearSpace) :
    Outcome (fun r => m.KeepsStack r.2) anyStop (forStep fuel m₁) (forStep fuel m₁) := by
  refine .ite (fun _ => ?_) fun _ => .ok h
  have hskip : m.KeepsStack m₁.skipToken := h.trans ⟨rfl, fun _ _ => rfl⟩
  exact (evaluateInteger_keepsStack hskip hm).bind fun _ hr => .ok hr

theorem saCopyStringLoop_keepsStack (n x y : ℕ) (h : m.KeepsStack m₁) :
    m.KeepsStack (saCopyStringLoop n m₁ x y) :=
  h.trans (saCopyStringLoop_workspace n m₁ x y).keepsStack

theorem saCopyString_keepsStack (x y : ℕ) (h : m.KeepsStack m₁) :
    m.KeepsStack (saCopyString m₁ x y) := by
  rw [saCopyString]
  exact saCopyStringLoop_keepsStack _ _ _ h

theorem saAllocate_keepsStack (x y : ℕ) (h : m.KeepsStack m₁) :
    Outcome m.KeepsStack anyStop (saAllocate m₁ x y) (saAllocate m₁ x y) := by
  refine .ite (fun _ => .error trivial) fun _ => .ok (saCopyString_keepsStack _ _ ?_)
  exact h.trans ⟨rfl, fun _ _ => rfl⟩

theorem stringAssign_keepsStack (a y : ℕ) (h : m.KeepsStack m₁) :
    Outcome m.KeepsStack anyStop (stringAssign m₁ a y) (stringAssign m₁ a y) := by
  have hnew := saAllocate_keepsStack a y h
  simp only [stringAssign]
  generalize sub16 (m₁.bank.word y) 1 = old
  refine .ite (fun _ => hnew) fun _ => .ite (fun _ => hnew) fun _ => ?_
  refine .ite (fun _ => .ok (saCopyString_keepsStack _ _ h)) fun _ => .ite (fun _ => hnew) fun _ => ?_
  apply saAllocate_keepsStack
  exact h.trans ⟨rfl, fun _ _ => rfl⟩

theorem letFind_keepsStack (h : m.KeepsStack m₁) :
    Outcome m.KeepsStack anyStop (letFind fuel m₁) (letFind fuel m₁) := by
  refine (variableFind_keepsStack h).bind ?_
  rintro ⟨data, m₂⟩ h₂
  have hptr : ∀ {m₂ : Machine} {a : ℕ}, m.KeepsStack m₂ →
      m.KeepsStack { m₂ with dVariablePtr := a } := fun h => h.trans ⟨rfl, fun _ _ => rfl⟩
  cases data with
  | some a => exact .ok (hptr h₂)
  | none =>
    refine .ite (fun _ => .error trivial) fun _ => ?_
    exact (variableCreate_keepsStack (hptr h₂)).bind fun _ h₃ => .ok (hptr h₃)

theorem letTarget_keepsStack (h : m.KeepsStack m₁) (hm : m.NearSpace) :
    Outcome m.KeepsStack anyStop (letTarget fuel m₁) (letTarget fuel m₁) := by
  have hs : m.dStack < 0x300 := hm
  have hend : ∀ m₂ : Machine, m.KeepsStack m₂ → Outcome m.KeepsStack anyStop
      (if equalTokenID ≠ m₂.token then fail m₂ .missingEquals else .ok m₂.skipToken)
      (if equalTokenID ≠ m₂.token then fail m₂ .missingEquals else .ok m₂.skipToken) :=
    fun m₂ h₂ => .ite (fun _ => .error trivial) fun _ => .ok (h₂.trans ⟨rfl, fun _ _ => rfl⟩)
  refine (letFind_keepsStack h).bind fun m₂ h₂ => .ite (fun _ => hend _ h₂) fun _ => ?_
  have hx : m₂.dStack + 2 ≤ add16 m₂.dStack 2 := by
    have := h₂.stack
    rw [add16_eq (by omega)]
  have hsub := frame_around.subscript (x := add16 m₂.dStack 2) (evaluateLevel_around fuel)
    (Machine.Around.refl : m₂.Around _ m₂) m₂.dVariablePtr
  refine (hsub.imp (fun _ hr => hr) fun _ _ => trivial).bind ?_
  rintro ⟨a, m₃⟩ h₃
  exact hend _ ((h₂.trans (h₃.keepsStack hx)).trans ⟨rfl, fun _ _ => rfl⟩)

theorem commandLet_keepsStack (h : m.KeepsStack m₁) (hm : m.NearSpace) :
    Outcome m.KeepsStack anyStop (commandLet fuel m₁) (commandLet fuel m₁) := by
  refine (letTarget_keepsStack h hm).bind fun m₂ h₂ => .ite (fun _ => ?_) fun _ => ?_
  · refine (evaluateInteger_keepsStack h₂ hm).bind ?_
    rintro ⟨v, m₃⟩ h₃
    exact .ok (h₃.trans ⟨rfl, fun _ _ => rfl⟩)
  · refine (evaluateString_keepsStack h₂ hm).bind ?_
    rintro ⟨v, m₃⟩ h₃
    exact stringAssign_keepsStack _ _ h₃

theorem nextVariable_frame {R : ℕ → Machine → Machine → Prop} {x : ℕ} (hR : Frame R)
    (h : R x m m₁) : Outcome (R x m) anyStop (nextVariable fuel m₁) (nextVariable fuel m₁) := by
  refine .ite (fun _ => .ok h) fun _ => ?_
  refine ((hR.find fuel h).imp (fun _ h => h) fun _ _ => trivial).bind ?_
  rintro ⟨data, m₂⟩ h₂
  cases data with
  | some a => exact .ite (fun _ => .ok h₂) fun _ => .error trivial
  | none => exact .error trivial

/-- The surroundings, together with the workspace. -/
theorem frame_bank : Frame fun x m m' => m.Around x m' ∧ m'.bank = m.bank where
  trans h h' := ⟨h.1.trans h'.1, h'.2.trans h.2⟩
  mono h hy := ⟨h.1.mono hy, h.2⟩
  registers h := ⟨frame_around.registers h, h.bank⟩
  setDp h := ⟨frame_around.setDp h, rfl⟩

theorem dcabClear_workspace (n : ℕ) (m : Machine) (y : ℕ) : m.Workspace (dcabClear n m y) := by
  induction n generalizing m y with
  | zero => exact .refl
  | succ n ih =>
    have h₁ : m.Workspace { m with bank := m.bank.setWord y 0 } := ⟨rfl, rfl, rfl, rfl, rfl, rfl, rfl⟩
    exact h₁.trans (ih _ _)

theorem dimCreateArrayBlock_keepsStack (a : ℕ) (h : m.KeepsStack m₁) :
    Outcome (fun r => m.KeepsStack r.2) anyStop (dimCreateArrayBlock m₁ a)
      (dimCreateArrayBlock m₁ a) := by
  refine .ite (fun _ => .error trivial) fun _ => .ite (fun _ => .error trivial) fun _ => ?_
  refine .ite (fun _ => .error trivial) fun _ => .ite (fun _ => .error trivial) fun _ => .ok ?_
  have hclear : ∀ n m₂ y, m.KeepsStack m₂ → m.KeepsStack (dcabClear n m₂ y) := fun n m₂ y h =>
    h.trans (dcabClear_workspace n m₂ y).keepsStack
  refine (hclear _ _ _ ?_).same rfl rfl
  exact h.same rfl rfl

theorem dimArray_keepsStack (h : m.KeepsStack m₁) (hm : m.NearSpace) :
    Outcome m.KeepsStack anyStop (dimArray fuel m₁) (dimArray fuel m₁) := by
  refine .ite (fun _ => .error trivial) fun _ => (variableFind_keepsStack h).bind ?_
  rintro ⟨data, m₂⟩ h₂
  cases data with
  | some a => exact .error trivial
  | none =>
    refine (variableCreate_keepsStack h₂).bind ?_
    rintro ⟨a, m₃⟩ h₃
    refine (evaluateInteger_keepsStack h₃ hm).bind ?_
    rintro ⟨v, m₄⟩ h₄
    refine (expectToken_keepsStack h₄ _).bind fun m₅ h₅ => ?_
    refine .ite (fun _ => .error trivial) fun _ => .ite (fun _ => .error trivial) fun _ => ?_
    refine (dimCreateArrayBlock_keepsStack _ h₅).bind ?_
    rintro ⟨block, m₆⟩ h₆
    exact .ok (h₆.trans ⟨rfl, fun _ _ => rfl⟩)

theorem functionDim_keepsStack (h : m.KeepsStack m₁) (hm : m.NearSpace) :
    Outcome m.KeepsStack anyStop (functionDim fuel m₁) (functionDim fuel m₁) := by
  induction fuel generalizing m₁ with
  | zero => exact .error trivial
  | succ fuel ih =>
    refine (dimArray_keepsStack h hm).bind fun m₂ h₂ => .ite (fun _ => ih ?_) fun _ => .ok h₂
    exact h₂.trans ⟨rfl, fun _ _ => rfl⟩

theorem fproCompare_any (y : ℕ) : Outcome (fun _ => True) anyStop (fproCompare fuel m y)
    (fproCompare fuel m y) :=
  .self (fun _ _ => trivial) fun _ _ => trivial

theorem fproLoop_keepsStack (x : ℕ) (h : m.KeepsStack m₁) :
    Outcome (fun r => m.KeepsStack r.2 ∧ r.2.dCodePtr = m₁.dCodePtr ∧
      r.2.dLineNumber = m₁.dLineNumber) anyStop (fproLoop fuel m₁ x) (fproLoop fuel m₁ x) := by
  induction fuel generalizing m₁ x with
  | zero => exact .error trivial
  | succ fuel ih =>
    refine .ite (fun _ => .error trivial) fun _ => .ite (fun _ => ih _ h) fun _ => ?_
    refine .ite (fun _ => ih _ h) fun _ => (fproCompare_any _).bind fun r _ => ?_
    have h₁ : m.KeepsStack { m₁ with dTemp1 := add16 x 6 } := h.trans ⟨rfl, fun _ _ => rfl⟩
    cases r with
    | none => exact ih _ h₁
    | some y => exact .ok ⟨h₁, rfl, rfl⟩

end

end Basic65816
