import Basic65816.Expression.Frame
import Basic65816.Machine.Expression

/-!
# The surroundings of an evaluation

Whatever code is evaluated, the direct page below the first slot, the BASIC stack pointer, the line
number and the addresses of the workspace stay as they are, and no error is about memory.

## Main results

* `evaluate_around`: evaluation keeps its surroundings
-/

namespace Basic65816

/-- Only registers, the workspace and the temporary strings have changed. -/
structure Machine.Workspace (m m' : Machine) : Prop where
  page : m'.page = m.page
  far : m'.far = m.far
  pageNumber : m'.dPageNumber = m.dPageNumber
  base : m'.dBaseAddress = m.dBaseAddress
  high : m'.dHighAddress = m.dHighAddress
  stack : m'.dStack = m.dStack
  line : m'.dLineNumber = m.dLineNumber

section

variable {m m₁ m₂ : Machine} {x : ℕ}

theorem Machine.Workspace.refl : m.Workspace m := ⟨rfl, rfl, rfl, rfl, rfl, rfl, rfl⟩

theorem Machine.Workspace.trans (h : m.Workspace m₁) (h' : m₁.Workspace m₂) : m.Workspace m₂ where
  page := h'.page.trans h.page
  far := h'.far.trans h.far
  pageNumber := h'.pageNumber.trans h.pageNumber
  base := h'.base.trans h.base
  high := h'.high.trans h.high
  stack := h'.stack.trans h.stack
  line := h'.line.trans h.line

/-- A change of the workspace does not count. -/
theorem Machine.Around.workspace (h : m.Around x m₁) (h' : m₁.Workspace m₂) : m.Around x m₂ where
  page a ha := (congrFun h'.page a).trans (h.page a ha)
  far := h'.far.trans h.far
  pageNumber := h'.pageNumber.trans h.pageNumber
  base := h'.base.trans h.base
  high := h'.high.trans h.high
  stack := h'.stack.trans h.stack
  line := h'.line.trans h.line

/-- The surroundings are a frame. -/
theorem frame_around : Frame Machine.Around where
  trans := Machine.Around.trans
  mono := Machine.Around.mono
  registers h := Machine.Around.refl.workspace
    ⟨h.page, h.far, h.pageNumber, h.base, h.high, h.stack, h.line⟩
  setDp h := (Machine.preserved_setDp h).toAround

/-! ## Making strings -/

theorem workspace_stringTempAllocate (m : Machine) (a : ℕ) :
    m.Workspace (stringTempAllocate m a) := ⟨rfl, rfl, rfl, rfl, rfl, rfl, rfl⟩

theorem workspace_stringWriteCharacter (m : Machine) (a : ℕ) :
    m.Workspace (stringWriteCharacter m a) := ⟨rfl, rfl, rfl, rfl, rfl, rfl, rfl⟩

theorem workspace_iterate {f : Machine → Machine} (hf : ∀ m : Machine, m.Workspace (f m)) (n : ℕ)
    (m : Machine) : m.Workspace (f^[n] m) := by
  induction n generalizing m with
  | zero => exact .refl
  | succ n ih => exact (hf m).trans (ih (f m))

theorem workspace_sccCopy (n : ℕ) (m : Machine) (y : ℕ) : m.Workspace (sccCopy n m y) := by
  induction n generalizing m y with
  | zero => exact .refl
  | succ n ih => exact (workspace_stringWriteCharacter m _).trans (ih _ _)

theorem workspace_stringCreateCopy (m : Machine) (a : ℕ) : m.Workspace (stringCreateCopy m a) :=
  workspace_sccCopy _ _ _

theorem workspace_caseLoop (conv : ℕ → ℕ) (n : ℕ) (m : Machine) (y : ℕ) :
    m.Workspace (caseLoop conv n m y) := by
  induction n generalizing m y with
  | zero => exact .refl
  | succ n ih =>
    refine Machine.Workspace.trans ?_ (ih _ _)
    exact ⟨rfl, rfl, rfl, rfl, rfl, rfl, rfl⟩

theorem workspace_fnd1Loop (n : ℕ) (m : Machine) (y : ℕ) : m.Workspace (fnd1Loop n m y) := by
  induction n generalizing m y with
  | zero => exact ⟨rfl, rfl, rfl, rfl, rfl, rfl, rfl⟩
  | succ n ih => exact (workspace_stringWriteCharacter m _).trans (ih _ _)

theorem around_fnStringY (h : m.Around x m₁) (y : ℕ) : m.Around x (fnStringY m₁ x y) :=
  frame_around.dp (frame_around.dp h (Nat.le_add_right _ _)) (by unfold exsNext exsValueH; omega)

theorem around_fnStringEmpty (h : m.Around x m₁) : m.Around x (fnStringEmpty m₁ x) :=
  around_fnStringY (h.workspace (workspace_stringTempAllocate m₁ 0)) _

theorem around_fndTemp1Characters (h : m.Around x m₁) (y : ℕ) :
    m.Around x (fndTemp1Characters m₁ x y) := by
  unfold fndTemp1Characters
  split
  · exact around_fnStringEmpty h
  · refine around_fnStringY (h.workspace ?_) _
    exact (workspace_stringTempAllocate m₁ _).trans (workspace_fnd1Loop _ _ _)

/-! ## Converting a number -/

theorem workspace_ctsOutputHexDigit (m : Machine) (a : ℕ) :
    m.Workspace (ctsOutputHexDigit m a) := ⟨rfl, rfl, rfl, rfl, rfl, rfl, rfl⟩

theorem ctsMultiplySubtractor_workspace (fuel : ℕ) (h : m.Workspace m₁) (stack : List Long) :
    Outcome (fun r => m.Workspace r.2) Stop.Spares (ctsMultiplySubtractor fuel m₁ stack)
      (ctsMultiplySubtractor fuel m₁ stack) := by
  induction fuel generalizing m₁ stack with
  | zero => exact .error trivial
  | succ fuel ih =>
    refine .ite (fun _ => .ok h) fun _ => ?_
    have h₁ : m.Workspace (multiplyTemp1ByA m₁ m₁.dSignCount).2 :=
      h.trans ⟨rfl, rfl, rfl, rfl, rfl, rfl, rfl⟩
    exact .ite (fun _ => .ok h₁) fun _ => ih h₁ _

theorem ctsSubLoop_workspace (fuel : ℕ) (h : m.Workspace m₁) (n : ℕ) :
    Outcome (fun r => m.Workspace r.2) Stop.Spares (ctsSubLoop fuel m₁ n)
      (ctsSubLoop fuel m₁ n) := by
  induction fuel generalizing m₁ n with
  | zero => exact .error trivial
  | succ fuel ih =>
    refine .ite (fun _ => .ok h) fun _ => ih (h.trans ?_) _
    exact ⟨rfl, rfl, rfl, rfl, rfl, rfl, rfl⟩

theorem ctsScaledUp_workspace (fuel : ℕ) (h : m.Workspace m₁) (stack : List Long) :
    Outcome (fun m' => m.Workspace m') Stop.Spares (ctsScaledUp fuel m₁ stack)
      (ctsScaledUp fuel m₁ stack) := by
  induction stack generalizing m₁ with
  | nil => exact .error trivial
  | cons d stack ih =>
    refine .ite (fun _ => .ok (h.trans (workspace_ctsOutputHexDigit _ _))) fun _ => ?_
    have h₁ : m.Workspace { m₁ with dTemp2 := d.1, dTemp2H := d.2 } :=
      h.trans ⟨rfl, rfl, rfl, rfl, rfl, rfl, rfl⟩
    refine (ctsSubLoop_workspace fuel h₁ 0).bind ?_
    rintro ⟨n, m₂⟩ h₂
    exact ih (h₂.trans (workspace_ctsOutputHexDigit _ _))

theorem convertToStringAlreadyAllocated_workspace (fuel : ℕ) (h : m.Workspace m₁) (v : Long)
    (b : ℕ) :
    Outcome (fun m' => m.Workspace m') Stop.Spares (convertToStringAlreadyAllocated fuel m₁ v b)
      (convertToStringAlreadyAllocated fuel m₁ v b) := by
  unfold convertToStringAlreadyAllocated
  refine Outcome.bind (P := fun r => m.Workspace r.2) ?_ ?_
  · refine ctsMultiplySubtractor_workspace fuel ?_ _
    split
    · exact h.trans ⟨rfl, rfl, rfl, rfl, rfl, rfl, rfl⟩
    · exact h.trans ⟨rfl, rfl, rfl, rfl, rfl, rfl, rfl⟩
  · rintro ⟨stack, m₂⟩ h₂
    exact ctsScaledUp_workspace fuel h₂ stack

theorem convertToString_workspace (fuel : ℕ) (h : m.Workspace m₁) (v : Long) (b : ℕ) :
    Outcome (fun m' => m.Workspace m') Stop.Spares (convertToString fuel m₁ v b)
      (convertToString fuel m₁ v b) :=
  convertToStringAlreadyAllocated_workspace fuel (h.trans (workspace_stringTempAllocate m₁ 34)) v b

end

/-! ## The routines -/

theorem baConcatenateString_around {m : Machine} {x : ℕ} :
    Outcome (m.Around x) Stop.Spares (baConcatenateString m x) (baConcatenateString m x) := by
  refine .ite (fun _ => outcome_fail (by decide)) fun _ => .ok ?_
  have h₁ : m.Around x (stringTempAllocate { m with
      dTemp1 := m.dp (x + exsValueL), dTemp2 := m.dp (x + exsNext + exsValueL) }
      (m.bank.byte (m.dp (x + exsValueL)) + m.bank.byte (m.dp (x + exsNext + exsValueL)))) :=
    Machine.Around.refl.workspace ⟨rfl, rfl, rfl, rfl, rfl, rfl, rfl⟩
  have h₂ := frame_around.setValue h₁ (Nat.le_refl x) (w := ((stringTempAllocate { m with
      dTemp1 := m.dp (x + exsValueL), dTemp2 := m.dp (x + exsNext + exsValueL) }
      (m.bank.byte (m.dp (x + exsValueL)) +
        m.bank.byte (m.dp (x + exsNext + exsValueL)))).dStartTempString, 0))
  exact (h₂.workspace (workspace_sccCopy _ _ _)).workspace (workspace_sccCopy _ _ _)

theorem caseconv_around {ev ev' : Evaluator} {m : Machine} {x : ℕ}
    (hev : Evaluator.Within Machine.Around ev ev') (conv : ℕ → ℕ) :
    Outcome (m.Around x) Stop.Spares (caseconv conv ev m x) (caseconv conv ev' m x) := by
  refine frame_around.caseconv hev conv fun v m₁ m₂ _ _ h => ?_
  have h₁ := h.workspace (workspace_stringTempAllocate m₂ v.a)
  have h₂ := h₁.workspace (workspace_stringCreateCopy _ v.a)
  exact (frame_around.setValue h₂ (Nat.le_refl x)).workspace (workspace_caseLoop _ _ _ _)

theorem leftRight_around {ev ev' : Evaluator} {m : Machine} {x : ℕ}
    {start : Machine → ℕ → ℕ → ℕ × Machine} (hev : Evaluator.Within Machine.Around ev ev')
    (hstart : ∀ (m : Machine) l a, m.Workspace (start m l a).2) :
    Outcome (m.Around x) Stop.Spares (leftRight start ev m x) (leftRight start ev' m x) := by
  refine frame_around.leftRight hev fun s m₁ m₂ n m₃ m₄ _ _ _ _ _ h => ?_
  exact ⟨fun _ => around_fnStringEmpty h,
    fun _ => around_fndTemp1Characters (h.workspace (hstart _ _ _)) _⟩

theorem functionLeft_around {ev ev' : Evaluator} {m : Machine} {x : ℕ}
    (hev : Evaluator.Within Machine.Around ev ev') :
    Outcome (m.Around x) Stop.Spares (functionLeft ev m x) (functionLeft ev' m x) := by
  unfold functionLeft
  exact leftRight_around hev fun _ _ _ => .refl

theorem functionRight_around {ev ev' : Evaluator} {m : Machine} {x : ℕ}
    (hev : Evaluator.Within Machine.Around ev ev') :
    Outcome (m.Around x) Stop.Spares (functionRight ev m x) (functionRight ev' m x) := by
  unfold functionRight
  exact leftRight_around hev fun _ _ _ => ⟨rfl, rfl, rfl, rfl, rfl, rfl, rfl⟩

/-- Every function keeps its surroundings. -/
theorem UnaryFunction.respects_around (f : UnaryFunction) :
    Respects Machine.Around f.routine f.routine := by
  intro fuel ev ev' m x hev
  cases f with
  | random => exact frame_around.functionRandom
  | sgn => exact frame_around.functionSgn hev
  | abs => exact frame_around.functionAbs hev
  | len => exact frame_around.functionLen hev
  | val => exact frame_around.functionVal hev
  | str =>
    refine frame_around.functionStr hev fun v m₁ b m₂ _ _ h => ?_
    have h₁ : m₂.Workspace { m₂ with dSignCount := b } := ⟨rfl, rfl, rfl, rfl, rfl, rfl, rfl⟩
    exact (convertToString_workspace fuel h₁ _ b).mono fun m₃ h₃ => h.workspace h₃
  | chr =>
    refine frame_around.functionChr hev fun v m₁ m₂ _ _ _ h => ?_
    exact (h.workspace (workspace_stringTempAllocate _ _)).workspace
      (workspace_stringWriteCharacter _ _)
  | asc => exact frame_around.functionAsc hev
  | spc =>
    refine frame_around.functionSpc hev fun v m₁ m₂ _ _ _ h => ?_
    exact (h.workspace (workspace_stringTempAllocate _ _)).workspace
      (workspace_iterate (fun m => workspace_stringWriteCharacter m 32) _ _)
  | peek => exact frame_around.memread hev fun m => (m.longTemp1 0 % 256, 0)
  | deek => exact frame_around.memread hev fun m => (m.longTemp1 0, 0)
  | leek => exact frame_around.memread hev fun m => (m.longTemp1 0, m.longTemp1 2)
  | lower => exact caseconv_around hev fun c => if 65 ≤ c ∧ c < 91 then c + 32 else c
  | upper => exact caseconv_around hev fun c => if 97 ≤ c ∧ c < 123 then c - 32 else c
  | left => exact functionLeft_around hev
  | mid =>
    refine frame_around.functionMid hev fun s m₁ m₂ n m₃ m₄ m₅ _ _ _ _ _ _ _ h => ?_
    refine ⟨fun _ => around_fnStringEmpty (h.workspace ?_),
      fun _ => around_fndTemp1Characters (h.workspace ?_) _⟩
    · exact ⟨rfl, rfl, rfl, rfl, rfl, rfl, rfl⟩
    · exact ⟨rfl, rfl, rfl, rfl, rfl, rfl, rfl⟩
  | right => exact functionRight_around hev
  | instr => exact frame_around.functionInstr hev
  | inkey => exact frame_around.functionInkey

/-- Every routine of the vector table keeps its surroundings. -/
theorem Handler.respects_around (h : Handler) :
    Respects Machine.Around h.routine h.routine := by
  intro fuel ev ev' m x hev
  cases h with
  | illegalToken => exact outcome_fail (by decide)
  | binary op =>
    by_cases hop : op = .add
    · subst hop
      exact frame_around.binaryAdd baConcatenateString_around
    · exact frame_around.binary hop
  | unary f => exact f.respects_around fuel ev ev' m x hev
  | command c => exact .error trivial

/-- **Evaluation keeps its surroundings**, and its errors are not about memory. -/
theorem evaluateLevel_around (fuel : ℕ) : Evaluator.Within Machine.Around
    (evaluateLevel Handler.routine fuel) (evaluateLevel Handler.routine fuel) :=
  frame_around.evaluateLevel Handler.respects_around fuel

/-- What is delivered is in the slot. By induction on the fuel, along the operators of the level. -/
theorem elGotAtom_value {routine : Handler → Routine} (fuel : ℕ) (m : Machine) (x : ℕ) :
    Outcome (fun r => r = elExit r.2 x) (fun _ => True) (elGotAtom routine fuel m x)
      (elGotAtom routine fuel m x) := by
  induction fuel generalizing m with
  | zero => exact .error trivial
  | succ fuel ih =>
    rw [elGotAtom]
    refine .ite (fun _ => .ok rfl) fun _ => .ite (fun _ => .ok rfl) fun _ => ?_
    refine Outcome.bind (P := fun _ => True) (.self (fun _ _ => trivial) fun _ _ => trivial) ?_
    rintro ⟨v, m₁⟩ -
    refine Outcome.bind (P := fun _ => True) (.self (fun _ _ => trivial) fun _ _ => trivial) ?_
    rintro m₂ -
    exact ih m₂

theorem evaluateLevel_value {routine : Handler → Routine} {fuel : ℕ} {m m' : Machine} {x a : ℕ}
    {v : Value} (h : evaluateLevel routine fuel m x a = .ok (v, m')) : (v, m') = elExit m' x := by
  cases fuel with
  | zero => cases h
  | succ fuel =>
    have ho : Outcome (fun r => r = elExit r.2 x) (fun _ => True)
        (evaluateLevel routine (fuel + 1) m x a) (evaluateLevel routine (fuel + 1) m x a) := by
      rw [evaluateLevel_succ]
      refine Outcome.bind (P := fun _ => True) (.self (fun _ _ => trivial) fun _ _ => trivial) ?_
      rintro m₁ -
      exact elGotAtom_value fuel m₁ x
    rw [h] at ho
    exact ho.post

/-- What `Evaluate` delivers are words. -/
theorem evaluate_valid {fuel : ℕ} {m m₁ : Machine} {v : Value} (h : evaluate fuel m = .ok (v, m₁)) :
    Long.Valid (v.a, v.y) := by
  have hexit := evaluateLevel_value h
  obtain ⟨rfl, -⟩ := Prod.mk.inj hexit
  exact ⟨Memory.word_lt _ _, Memory.word_lt _ _⟩

section

variable {m : Machine} (fuel : ℕ)

theorem evaluate_around : Outcome (fun r => m.Around (add16 m.dStack 16) r.2) Stop.Spares
    (evaluate fuel m) (evaluate fuel m) :=
  evaluateLevel_around fuel m _ _

theorem evaluateInteger_around : Outcome (fun r => m.Around (add16 m.dStack 16) r.2) Stop.Spares
    (evaluateInteger fuel m) (evaluateInteger fuel m) := by
  refine (evaluate_around fuel).bind ?_
  rintro ⟨v, m₁⟩ h₁
  exact .ite (fun _ => outcome_fail (by decide)) fun _ => .ok h₁

theorem evaluateString_around : Outcome (fun r => m.Around (add16 m.dStack 16) r.2) Stop.Spares
    (evaluateString fuel m) (evaluateString fuel m) := by
  refine (evaluate_around fuel).bind ?_
  rintro ⟨v, m₁⟩ h₁
  exact .ite (fun _ => .ok h₁) fun _ => outcome_fail (by decide)

end

/-- `EvaluateString` leaves the address it delivers in the slot. -/
theorem evaluateString_value {fuel : ℕ} {m m' : Machine} {v : Value}
    (h : evaluateString fuel m = .ok (v, m')) : (m'.value (add16 m'.dStack 16)).1 = v.a := by
  have haround := evaluateString_around (m := m) fuel
  rw [h] at haround
  rw [haround.post.stack]
  rw [evaluateString] at h
  cases he : evaluate fuel m with
  | error e =>
    rw [he] at h
    cases h
  | ok r =>
    obtain ⟨v₁, m₁⟩ := r
    rw [he, ok_bind] at h
    dsimp only at h
    split at h
    · cases h
      exact (congrArg (fun r => r.1.a) (evaluateLevel_value he)).symm
    · cases h

end Basic65816
