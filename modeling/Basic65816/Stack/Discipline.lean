import Basic65816.Stack.Pushing

/-!
# The discipline of the BASIC stack

The statements act on a list of frames: the opening statements put a frame on it, the closing ones
need the frame of their opener on top, and take their destination from it. The interpreter's stack
always holds that list.

## Main definitions

* `Effect`: what a statement does to the frames, and where it continues
* `Command.closes`: the frame a closing statement needs on top

## Main results

* `command_effect`: every statement has its effect on the frames
* `closing_fails`: a closing statement without the frame it needs ends in its error
-/

namespace Basic65816

/-- A sixteen-bit word. -/
def word16 (a : ℕ) : ℕ := a % 0x10000

/-- What the statement `c`, executed in the state `m` with the code pointer behind its keyword, does to
the frames, and what it takes from the top frame when it ends in the state `m'`. -/
inductive Effect : Command → Machine → Machine → List StackFrame → List StackFrame → Prop
  | assign {m m' : Machine} {fs : List StackFrame} : Effect .commandLet m m' fs fs
  | dim {m m' : Machine} {fs : List StackFrame} : Effect .functionDim m m' fs fs
  | rem {m m' : Machine} {fs : List StackFrame} : Effect .commandRem m m' fs fs
  | assert {m m' : Machine} {fs : List StackFrame} : Effect .commandAssert m m' fs fs
  | goto {m m' : Machine} {fs : List StackFrame} : Effect .commandGoto m m' fs fs
  | ongoto {m m' : Machine} {fs : List StackFrame} : Effect .commandOngoto m m' fs fs
  | repeat {m m' : Machine} {fs : List StackFrame} : Effect .commandRepeat m m' fs
      (.block .repeat (word16 m.dCodePtr) (word16 m.dLineNumber) :: fs)
  | untilAgain {m m' : Machine} {fs : List StackFrame} {code line : ℕ}
      (hc : m'.dCodePtr = code) (hl : m'.dLineNumber = line) : Effect .commandUntil m m'
        (.block .repeat code line :: fs) (.block .repeat code line :: fs)
  | untilDone {m m' : Machine} {fs : List StackFrame} {code line : ℕ} :
      Effect .commandUntil m m' (.block .repeat code line :: fs) fs
  /-- The code pointer of the frame is that of the keyword. -/
  | whileBody {m m' : Machine} {fs : List StackFrame} : Effect .commandWhile m m' fs
      (.block .while (word16 (sub16 m.dCodePtr 2)) (word16 m.dLineNumber) :: fs)
  | whileSkip {m m' : Machine} {fs : List StackFrame} : Effect .commandWhile m m' fs fs
  | wend {m m' : Machine} {fs : List StackFrame} {code line : ℕ} (hc : m'.dCodePtr = code)
      (hl : m'.dLineNumber = line) : Effect .commandWend m m' (.block .while code line :: fs) fs
  | ifOpen {m m' : Machine} {fs : List StackFrame} : Effect .commandIf m m' fs (.cond :: fs)
  | ifKeep {m m' : Machine} {fs : List StackFrame} : Effect .commandIf m m' fs fs
  | else {m m' : Machine} {fs : List StackFrame} : Effect .handlerElse m m' (.cond :: fs) fs
  | endif {m m' : Machine} {fs : List StackFrame} : Effect .handlerEndif m m' (.cond :: fs) fs
  /-- The code pointer of the frame is behind the line number. -/
  | gosub {m m' : Machine} {fs : List StackFrame} : Effect .commandGosub m m' fs
      (.block .gosub (word16 (add16 m.dCodePtr 2)) (word16 m.dLineNumber) :: fs)
  | return {m m' : Machine} {fs : List StackFrame} {code line : ℕ} (hc : m'.dCodePtr = code)
      (hl : m'.dLineNumber = line) : Effect .commandReturn m m' (.block .gosub code line :: fs) fs
  /-- The code pointer of the frame is behind the name, which is `n` bytes long. -/
  | proc {m m' : Machine} {fs : List StackFrame} (n : ℕ) : Effect .commandProc m m' fs
      (.block .proc (word16 (add16 n m.dCodePtr)) (word16 m.dLineNumber) :: fs)
  | endproc {m m' : Machine} {ls fs : List StackFrame} {code line : ℕ}
      (hls : ∀ f ∈ ls, f.kind.IsLocal) (hc : m'.dCodePtr = code) (hl : m'.dLineNumber = line) :
      Effect .commandEndproc m m' (ls ++ .block .proc code line :: fs) fs
  | makeLocal {m m' : Machine} {ls fs : List StackFrame} (hls : ∀ f ∈ ls, f.kind.IsLocal) :
      Effect .commandLocal m m' fs (ls ++ fs)
  /-- The code pointer of the frame is behind `to`: the limit and the step follow it. -/
  | for {m m₁ m₂ m' : Machine} {fs : List StackFrame} {fuel code var : ℕ} {v : Value}
      {step : Option Value} (hto : m₁.bank.word code = toTokenID) (hc : m₁.dCodePtr = add16 code 2)
      (h₁ : evaluateInteger fuel m₁ = .ok (v, m₂)) (h₂ : forStep fuel m₂ = .ok (step, m')) :
      Effect .commandFor m m' fs (.loop (add16 code 2) (word16 m.dLineNumber) var :: fs)
  /-- The loop continues behind the limit and the step that stand at the code pointer of the frame. -/
  | nextAgain {m m₁ m₂ m₃ m' : Machine} {fs : List StackFrame} {fuel code line var : ℕ} {v : Value}
      {step : Option Value} (hb : m₁.bank = m.bank) (hc : m₁.dCodePtr = code)
      (h₁ : evaluateInteger fuel m₁ = .ok (v, m₂))
      (h₂ : forStep fuel { m₂ with dTemp1 := 1, dTemp1H := 0 } = .ok (step, m₃))
      (hc' : m'.dCodePtr = m₃.dCodePtr) (hl : m'.dLineNumber = line) :
      Effect .commandNext m m' (.loop code line var :: fs) (.loop code line var :: fs)
  | nextDone {m m' : Machine} {fs : List StackFrame} {code line var : ℕ} :
      Effect .commandNext m m' (.loop code line var :: fs) fs

/-- The procedure that is called has no parameters. -/
def Machine.CallsParameterless (fuel : ℕ) (m : Machine) : Prop :=
  ∀ y x m₁, fproLoop fuel m m.programStart = .ok ((y, x), m₁) →
    m₁.bank.word (sub16 (add16 y m₁.dTemp1) 2) &&& idArrayMask = 0

/-- The stack is within its space before each variable of `local`. -/
def Machine.LocalInSpace : ℕ → Machine → Prop
  | 0, _ => True
  | fuel + 1, m => m.InSpace ∧ ∀ r m₁, localProcessVariable fuel m = .ok (r, m₁) →
      m₁.token = commaTokenID → LocalInSpace fuel m₁.skipToken

/-- The statement begins within the stack space, and so does each variable of `local`; a procedure
that is called has no parameters. -/
structure Machine.Admits (fuel : ℕ) (m : Machine) (c : Command) : Prop where
  space : m.InSpace
  locals : c = .commandLocal → m.LocalInSpace fuel
  procedure : c = .commandProc → m.CallsParameterless fuel

section

variable {m m₁ m' : Machine} {fs : List StackFrame} {fuel : ℕ}

/-- The frames after a statement. -/
abbrev Machine.HasEffect (m : Machine) (c : Command) (fs : List StackFrame) (m' : Machine) : Prop :=
  ∃ fs', Effect c m m' fs fs' ∧ m'.Frames fs'

/-! ## One statement -/

theorem commandRepeat_effect (hf : m.Frames fs) (hm : m.InSpace) :
    m.HasEffect .commandRepeat fs (commandRepeat m) :=
  ⟨_, .repeat, frames_pushFrame hf hm m.dCodePtr .repeat⟩

theorem commandWend_effect (hf : m.Frames fs) (hm : m.InSpace) :
    Outcome (m.HasEffect .commandWend fs) anyStop (commandWend m) (commandWend m) := by
  refine .ite (fun _ => .error trivial) fun htop => .ok ?_
  obtain ⟨f, fs', rfl, hk⟩ := frames_top hf (k := .block .while) (not_not.mp htop)
  cases f with
  | block kind code line =>
    cases hk
    obtain ⟨hfs, hc, hl⟩ := frames_popFrame hf hm
    exact ⟨_, .wend hc hl, hfs⟩
  | _ => cases hk

theorem commandReturn_effect (hf : m.Frames fs) (hm : m.InSpace) :
    Outcome (m.HasEffect .commandReturn fs) anyStop (commandReturn m) (commandReturn m) := by
  refine .ite (fun _ => .error trivial) fun htop => .ok ?_
  obtain ⟨f, fs', rfl, hk⟩ := frames_top hf (k := .block .gosub) (not_not.mp htop)
  cases f with
  | block kind code line =>
    cases hk
    obtain ⟨hfs, hc, hl⟩ := frames_popFrame hf hm
    exact ⟨_, .return hc hl, hfs⟩
  | _ => cases hk

theorem commandGosub_effect (hf : m.Frames fs) (hm : m.InSpace) :
    Outcome (m.HasEffect .commandGosub fs) anyStop (commandGosub fuel m) (commandGosub fuel m) :=
  (commandGoto_keepsStack .refl).mono fun _ h =>
    ⟨_, .gosub, h.frames (frames_pushFrame hf hm (add16 m.dCodePtr 2) .gosub)⟩

theorem commandUntil_effect (hf : m.Frames fs) (hm : m.InSpace) :
    Outcome (m.HasEffect .commandUntil fs) anyStop (commandUntil fuel m) (commandUntil fuel m) := by
  refine .ite (fun _ => .error trivial) fun htop => ?_
  obtain ⟨f, fs', rfl, hk⟩ := frames_top hf (k := .block .repeat) (not_not.mp htop)
  refine (evaluateInteger_keepsStack .refl hm.near).bind ?_
  rintro ⟨v, m₁⟩ h₁
  have hf₁ := h₁.frames hf
  have hm₁ := h₁.inSpace hm
  cases f with
  | block kind code line =>
    cases hk
    have hsub := frames_sub hf₁ hm₁
    obtain ⟨hfs, hc, hl⟩ := frames_popFrame hf₁ hm₁
    refine .ite (fun _ => .ok ⟨_, .untilDone, frames_tail hf₁ hsub (by simp only)⟩) fun _ => .ok ?_
    exact ⟨_, .untilAgain hc hl, hf₁⟩
  | _ => cases hk

theorem commandWhile_effect (hf : m.Frames fs) (hm : m.InSpace) :
    Outcome (m.HasEffect .commandWhile fs) anyStop (commandWhile fuel m) (commandWhile fuel m) := by
  have haround := (evaluateInteger_around (m := m) fuel).imp (fun _ h => h)
    (fun _ _ => trivial : ∀ e, Stop.Spares e → anyStop e)
  refine haround.bind ?_
  rintro ⟨v, m₁⟩ ha
  have hs : m.dStack < 0x200 := hm
  have h₁ : m.KeepsStack m₁ := ha.keepsStack (by rw [add16_eq (by omega)]; omega)
  have hline : m₁.dLineNumber = m.dLineNumber := ha.line
  have hf₁ := h₁.frames hf
  refine .ite (fun _ => .ok ⟨_, .whileBody, ?_⟩) fun _ => ?_
  · rw [← hline]
    exact frames_pushFrame hf₁ (h₁.inSpace hm) (sub16 m.dCodePtr 2) .while
  · refine (scanForwardLevel_keepsStack h₁ _ _).bind ?_
    rintro ⟨t, m₂⟩ h₂
    exact .ok ⟨_, .whileSkip, h₂.frames hf⟩

theorem frames_cond (hf : m.Frames fs) (hm : m.InSpace) : Machine.Frames
    (Machine.setDp { m with dStack := add16 m.dStack 2 } (add16 m.dStack 2) ifTokenID)
      (.cond :: fs) := by
  have hs : m.dStack < 0x200 := hm
  have hd : add16 m.dStack 2 = m.dStack + 2 := add16_eq (by omega)
  rw [hd]
  refine frames_cons hf rfl (fun a ha => Machine.page_setDp _ (.inl ha)) ⟨?_, trivial⟩
  exact Machine.dp_setDp (by decide)

theorem commandIf_effect (hf : m.Frames fs) (hm : m.InSpace) :
    Outcome (m.HasEffect .commandIf fs) anyStop (commandIf fuel m) (commandIf fuel m) := by
  refine (evaluateInteger_keepsStack .refl hm.near).bind ?_
  rintro ⟨v, m₁⟩ h₁
  have h₂ : m.KeepsStack { m₁ with dTemp1 := v.y } := h₁.trans ⟨rfl, fun _ _ => rfl⟩
  have hskip : m.KeepsStack ({ m₁ with dTemp1 := v.y } : Machine).skipToken :=
    h₂.trans ⟨rfl, fun _ _ => rfl⟩
  have hkeep : ∀ m', m.KeepsStack m' → m.HasEffect .commandIf fs m' := fun m' h =>
    ⟨_, .ifKeep, h.frames hf⟩
  refine .ite (fun _ => ?_) fun _ => .ite (fun _ => ?_) fun _ => .ite (fun _ => ?_) fun _ => ?_
  · have hopen := frames_cond (h₂.frames hf) (h₂.inSpace hm)
    refine .ite (fun _ => .ok ⟨_, .ifOpen, hopen⟩) fun _ => ?_
    refine (scanForwardLevel_keepsStack .refl _ _).bind ?_
    rintro ⟨t, m₃⟩ h₃
    have hf₃ := h₃.frames hopen
    refine .ite (fun _ => .ok ⟨_, .ifKeep, ?_⟩) fun _ => .ok ⟨_, .ifOpen, hf₃⟩
    have hs : m₁.dStack < 0x200 := h₂.inSpace hm
    have hd : m₃.dStack = add16 m₁.dStack 2 := h₃.stack
    refine frames_tail hf₃ ?_ (by simp only [Machine.skipToken])
    change sub16 m₃.dStack 2 = m₃.dStack - 2
    rw [hd, add16_eq (by omega), sub16_eq (by omega) (by omega)]
  · exact (fifEndOfLine_keepsStack hskip).mono hkeep
  · exact (commandGoto_keepsStack hskip).mono hkeep
  · exact .ok (hkeep _ hskip)

theorem frames_popCond (hf : m.Frames (.cond :: fs)) (hm : m.InSpace) :
    sub16 m.dStack 2 = m.dStack - StackFrame.cond.size := by
  have hsub := frames_sub hf hm
  rwa [show StackFrame.cond.size = 2 from rfl] at hsub ⊢

theorem handlerElse_effect (hf : m.Frames fs) (hm : m.InSpace) :
    Outcome (m.HasEffect .handlerElse fs) anyStop (handlerElse fuel m) (handlerElse fuel m) := by
  refine .ite (fun _ => .error trivial) fun htop => ?_
  obtain ⟨f, fs', rfl, hk⟩ := frames_top hf (k := .cond) (not_not.mp htop)
  refine (scanForwardLevel_keepsStack .refl _ _).bind ?_
  rintro ⟨t, m₁⟩ h₁
  cases f with
  | cond =>
    have hf₁ := h₁.frames hf
    refine .ok ⟨_, .else, frames_tail hf₁ (frames_popCond hf₁ (h₁.inSpace hm)) ?_⟩
    simp only [Machine.skipToken]
  | _ => cases hk

theorem handlerEndif_effect (hf : m.Frames fs) (hm : m.InSpace) :
    Outcome (m.HasEffect .handlerEndif fs) anyStop (handlerEndif m) (handlerEndif m) := by
  refine .ite (fun _ => .error trivial) fun htop => .ok ?_
  obtain ⟨f, fs', rfl, hk⟩ := frames_top hf (k := .cond) (not_not.mp htop)
  cases f with
  | cond => exact ⟨_, .endif, frames_tail hf (frames_popCond hf hm) (by simp only)⟩
  | _ => cases hk

/-! ## Assignments, arrays and jumps -/

theorem commandLet_effect (hf : m.Frames fs) (hm : m.InSpace) :
    Outcome (m.HasEffect .commandLet fs) anyStop (commandLet fuel m) (commandLet fuel m) :=
  (commandLet_keepsStack .refl hm.near).mono fun _ h => ⟨_, .assign, h.frames hf⟩

theorem functionDim_effect (hf : m.Frames fs) (hm : m.InSpace) :
    Outcome (m.HasEffect .functionDim fs) anyStop (functionDim fuel m) (functionDim fuel m) :=
  (functionDim_keepsStack .refl hm.near).mono fun _ h => ⟨_, .dim, h.frames hf⟩

theorem commandGoto_effect (hf : m.Frames fs) :
    Outcome (m.HasEffect .commandGoto fs) anyStop (commandGoto fuel m) (commandGoto fuel m) :=
  (commandGoto_keepsStack .refl).mono fun _ h => ⟨_, .goto, h.frames hf⟩

theorem commandOngoto_effect (hf : m.Frames fs) (hm : m.InSpace) :
    Outcome (m.HasEffect .commandOngoto fs) anyStop (commandOngoto fuel m) (commandOngoto fuel m) :=
  (commandOngoto_keepsStack .refl hm.near).mono fun _ h => ⟨_, .ongoto, h.frames hf⟩

theorem commandRem_effect (hf : m.Frames fs) :
    Outcome (m.HasEffect .commandRem fs) anyStop (commandRem m) (commandRem m) := by
  refine .ite (fun _ => .ok ⟨_, .rem, hf⟩) fun _ => .ite (fun _ => .error trivial) fun _ => ?_
  exact .ok ⟨_, .rem, hf⟩

theorem commandAssert_effect (hf : m.Frames fs) (hm : m.InSpace) :
    Outcome (m.HasEffect .commandAssert fs) anyStop (commandAssert fuel m)
      (commandAssert fuel m) := by
  refine (evaluateInteger_keepsStack .refl hm.near).bind ?_
  rintro ⟨v, m₁⟩ h₁
  exact .ite (fun _ => .error trivial) fun _ => .ok ⟨_, .assert, h₁.frames hf⟩

/-! ## Loops over a variable -/

theorem forStep_around {x : ℕ} (h : m.Around x m₁) (hx : x ≤ add16 m₁.dStack 16) :
    Outcome (fun r => m.Around x r.2) anyStop (forStep fuel m₁) (forStep fuel m₁) := by
  refine .ite (fun _ => ?_) fun _ => .ok h
  have hskip : m.Around x m₁.skipToken := frame_around.skipToken h
  refine ((evaluateInteger_around fuel).imp (fun _ h => h) fun _ _ => trivial).bind ?_
  rintro ⟨v, m₂⟩ h₂
  exact .ok (hskip.trans (h₂.mono hx))

/-- The end of `for`: the limit and the step are skipped. -/
theorem forLimit_effect {code var : ℕ} (hto : m₁.bank.word code = toTokenID)
    (hc : m₁.dCodePtr = add16 code 2) (hm : m₁.NearSpace)
    (hf : m₁.Frames (.loop (add16 code 2) (word16 m.dLineNumber) var :: fs)) :
    Outcome (m.HasEffect .commandFor fs) anyStop
      (do
        let (_, m) ← evaluateInteger fuel m₁
        let (_, m) ← forStep fuel m
        .ok m)
      (do
        let (_, m) ← evaluateInteger fuel m₁
        let (_, m) ← forStep fuel m
        .ok m) := by
  refine (evaluateInteger_keepsStack .refl hm).bind_eq ?_
  rintro ⟨v, m₂⟩ he h₂
  refine (forStep_keepsStack h₂ hm).bind_eq ?_
  rintro ⟨step, m₃⟩ hstep h₃
  exact .ok ⟨_, .for hto hc he hstep, h₃.frames hf⟩

theorem commandFor_effect (hf : m.Frames fs) (hm : m.InSpace) :
    Outcome (m.HasEffect .commandFor fs) anyStop (commandFor fuel m) (commandFor fuel m) := by
  have hs : m.dStack < 0x200 := hm
  have hnear : ∀ {m₁ : Machine}, m.Around (m.dStack + 2) m₁ →
      m.dStack + 2 ≤ add16 m₁.dStack 16 := fun h => by
    rw [h.stack, add16_eq (by omega)]
    omega
  refine .ite (fun _ => .error trivial) fun _ => ?_
  refine (forVariable_around (x := m.dStack + 2) .refl).bind ?_
  rintro ⟨y, m₁⟩ h₁
  refine .bind (P := m.Around (m.dStack + 2))
    (.ite (fun _ => .ok (frame_around.skipToken h₁)) fun _ => .error trivial) fun m₂ h₂ => ?_
  refine ((evaluateInteger_around fuel).imp (fun _ h => h) fun _ _ => trivial).bind ?_
  rintro ⟨v, m₃⟩ h₃
  have h₄ : m.Around (m.dStack + 2)
      { m₃ with bank := (m₃.bank.setWord y v.a).setWord (y + 2) v.y } :=
    (h₂.trans (h₃.mono (hnear h₂))).workspace ⟨rfl, rfl, rfl, rfl, rfl, rfl, rfl⟩
  refine .bind (P := fun m₅ => m.Around (m.dStack + 2) m₅ ∧
    ∃ code, m₅.bank.word code = toTokenID ∧ m₅.dCodePtr = add16 code 2)
    (.ite (fun h => .ok ⟨frame_around.skipToken h₄, _, h.symm, rfl⟩) fun _ => .error trivial) ?_
  rintro m₅ ⟨h₅, code, hto, hc⟩
  have hkeep := h₅.keepsStack (Nat.le_refl _)
  have hpush : (m₅.pushWords m₅.dCodePtr m₅.dLineNumber y forTokenID).Frames
      (.loop (add16 code 2) (word16 m.dLineNumber) (y % 0x10000) :: fs) := by
    have hcode : m₅.dCodePtr % 0x10000 = add16 code 2 := by
      rw [hc, Nat.mod_eq_of_lt (add16_lt code 2)]
    have hline : m₅.dLineNumber % 0x10000 = word16 m.dLineNumber := by
      rw [h₅.line]
      rfl
    rw [← hcode, ← hline]
    exact frames_pushLoop (hkeep.frames hf) (hkeep.inSpace hm)
  have hspace : (m₅.pushWords m₅.dCodePtr m₅.dLineNumber y forTokenID).NearSpace := by
    have hd := dStack_pushWords (hkeep.inSpace hm) m₅.dCodePtr m₅.dLineNumber y forTokenID
    have := hkeep.stack
    unfold Machine.NearSpace
    omega
  have hto' : (m₅.pushWords m₅.dCodePtr m₅.dLineNumber y forTokenID).bank.word code = toTokenID := by
    rw [bank_pushWords]
    exact hto
  exact forLimit_effect hto' (dCodePtr_pushWords.trans hc) hspace hpush

/-- The two ends of `next`. -/
theorem nextContinue_spec (m : Machine) (code : ℕ) : (nextContinue m code).page = m.page ∧
    ((nextContinue m code).dStack = add16 m.dStack 8 ∧
        (nextContinue m code).dCodePtr = m.dCodePtr ∧
        (nextContinue m code).dLineNumber = m.dp (m.dStack + 4) ∨
      (nextContinue m code).dStack = m.dStack) := by
  simp only [nextContinue]
  split
  · exact ⟨rfl, .inl ⟨rfl, rfl, rfl⟩⟩
  · exact ⟨rfl, .inr rfl⟩

theorem nextContinue_effect {code line var a fuel : ℕ} {m₂ m₃ m₄ m₅ : Machine} {v : Value}
    {step : Option Value} (hf : m.Frames (.loop code line var :: fs)) (hm : m.InSpace)
    (hb : m₁.bank = m.bank) (hc : m₁.dCodePtr = code) (h₁ : evaluateInteger fuel m₁ = .ok (v, m₂))
    (h₂ : forStep fuel { m₂ with dTemp1 := 1, dTemp1H := 0 } = .ok (step, m₃))
    (hs : m₃.dStack = m.dStack - 8) (hp : ∀ a < m.dStack + 2, m₃.page a = m.page a)
    (h₄ : m₄.page = m₃.page ∧ m₄.dStack = m₃.dStack ∧ m₄.dCodePtr = m₃.dCodePtr)
    (h₅ : nextContinue m₄ a = m₅) : m.HasEffect .commandNext (.loop code line var :: fs) m₅ := by
  have hs' : m.dStack < 0x200 := hm
  have hle : basStack + 8 ≤ m.dStack := hf.1
  obtain ⟨hp₄, hs₄, hc₄⟩ := h₄
  obtain ⟨hpage, hcont⟩ := nextContinue_spec m₄ a
  rw [h₅] at hpage hcont
  rw [hp₄] at hpage
  rcases hcont with ⟨hs₅, hc₅, hl₅⟩ | hs₅
  · have hd : m₅.dStack = m.dStack := by
      rw [hs₅, hs₄, hs, add16_eq (by omega)]
      omega
    have hkeep : m.KeepsStack m₅ := ⟨hd, fun a ha => (congrFun hpage a).trans (hp a ha)⟩
    refine ⟨_, .nextAgain hb hc h₁ h₂ (hc₅.trans hc₄) ?_, hkeep.frames hf⟩
    obtain ⟨-, -, hline, -⟩ := id hf.2.1
    rw [hl₅, hs₄, hs, show m.dStack - 8 + 4 = m.dStack - 4 by omega, ← hline]
    refine (congrArg (fun p : Memory => p.word (m.dStack - 4)) hp₄).trans ?_
    exact Memory.word_congr (hp _ (by omega)) (hp _ (by omega))
  · refine ⟨_, .nextDone, ?_⟩
    have hd : m₅.dStack = m.dStack - 8 := by rw [hs₅, hs₄, hs]
    unfold Machine.Frames
    rw [hd]
    refine Memory.Frames.congr hf.2.2 fun a ha => (congrFun hpage a).trans (hp a ?_)
    change a < m.dStack - 8 + 2 at ha
    omega

/-- The end of `next`, from the code pointer of the frame on. -/
theorem nextLimit_effect {code line var : ℕ} (a : ℕ) (hf : m.Frames (.loop code line var :: fs))
    (hm : m.InSpace) (hb : m₁.bank = m.bank) (hc : m₁.dCodePtr = code)
    (hs : m₁.dStack = m.dStack - 8) (hp : ∀ a < m.dStack + 2, m₁.page a = m.page a) :
    Outcome (m.HasEffect .commandNext (.loop code line var :: fs)) anyStop
      (do
        let (limit, m) ← evaluateInteger fuel m₁
        let m := { m with dTemp1 := 1, dTemp1H := 0 }
        let (step, m) ← forStep fuel m
        let m :=
          match step with
          | some v => { m with dTemp1 := v.a, dTemp1H := v.y }
          | none => m
        .ok (nextContinue { m with dTemp2 := limit.a, dTemp2H := limit.y } a))
      (do
        let (limit, m) ← evaluateInteger fuel m₁
        let m := { m with dTemp1 := 1, dTemp1H := 0 }
        let (step, m) ← forStep fuel m
        let m :=
          match step with
          | some v => { m with dTemp1 := v.a, dTemp1H := v.y }
          | none => m
        .ok (nextContinue { m with dTemp2 := limit.a, dTemp2H := limit.y } a)) := by
  have hs' : m.dStack < 0x200 := hm
  have hle : basStack + 8 ≤ m.dStack := hf.1
  have hadd : add16 m₁.dStack 16 = m.dStack + 8 := by
    rw [hs, add16_eq (by omega)]
    omega
  refine ((evaluateInteger_around fuel).imp (fun _ h => h) fun _ _ => trivial).bind_eq ?_
  rintro ⟨limit, m₂⟩ he h₂
  rw [hadd] at h₂
  have h₂' : m₁.Around (m.dStack + 8) { m₂ with dTemp1 := 1, dTemp1H := 0 } :=
    h₂.workspace ⟨rfl, rfl, rfl, rfl, rfl, rfl, rfl⟩
  refine (forStep_around h₂' ?_).bind_eq ?_
  · rw [h₂'.stack, hadd]
  rintro ⟨step, m₃⟩ hstep h₃
  refine .ok (nextContinue_effect hf hm hb hc he hstep (h₃.stack.trans hs)
    (fun a ha => (h₃.page a (by omega)).trans (hp a ha)) ?_ rfl)
  cases step with
  | some v => exact ⟨rfl, rfl, rfl⟩
  | none => exact ⟨rfl, rfl, rfl⟩

theorem commandNext_effect (hf : m.Frames fs) (hm : m.InSpace) :
    Outcome (m.HasEffect .commandNext fs) anyStop (commandNext fuel m) (commandNext fuel m) := by
  refine .ite (fun _ => .error trivial) fun htop => ?_
  obtain ⟨f, fs', rfl, hk⟩ := frames_top hf (k := .loop) (not_not.mp htop)
  cases f with
  | loop code line var =>
    have hs : m.dStack < 0x200 := hm
    have hle : basStack + 8 ≤ m.dStack := hf.1
    refine (nextVariable_frame (x := m.dStack + 2) frame_bank ⟨.refl, rfl⟩).bind fun m₁ h₁ => ?_
    have hsub := frames_sub hf hm
    change sub16 m.dStack 8 = m.dStack - 8 at hsub
    rw [← h₁.1.stack] at hsub
    have hcode : m₁.dp (sub16 m₁.dStack 8 + 2) = code := by
      obtain ⟨-, -, -, hc⟩ := id hf.2.1
      rw [hsub, h₁.1.stack, show m.dStack - 8 + 2 = m.dStack - 6 by omega, ← hc]
      exact Memory.word_congr (h₁.1.page _ (by omega)) (h₁.1.page _ (by omega))
    refine nextLimit_effect _ hf hm h₁.2 hcode (hsub.trans ?_) h₁.1.page
    rw [h₁.1.stack]
  | _ => cases hk

/-! ## Local variables and procedures -/

/-- One variable of `local`. -/
theorem localProcessVariable_frames (hf : m.Frames fs) (hm : m.InSpace) :
    Outcome (fun r => ∃ ls, (∀ f ∈ ls, f.kind.IsLocal) ∧ r.2.Frames (ls ++ fs)) anyStop
      (localProcessVariable fuel m) (localProcessVariable fuel m) := by
  refine .ite (fun _ => .error trivial) fun _ => .ite (fun _ => .error trivial) fun _ => ?_
  have hpush : ∀ (y : ℕ) (m₂ : Machine), m.KeepsStack m₂ →
      Outcome (fun r => ∃ ls, (∀ f ∈ ls, f.kind.IsLocal) ∧ r.2.Frames (ls ++ fs)) anyStop
        (if m.token &&& idTypeMask = 0 then .ok ((y, false), lpvIntegerPush m₂ y)
          else .ok ((y, true), lpvStringPush m₂ y) : Result ((ℕ × Bool) × Machine))
        (if m.token &&& idTypeMask = 0 then .ok ((y, false), lpvIntegerPush m₂ y)
          else .ok ((y, true), lpvStringPush m₂ y)) := by
    intro y m₂ h₂
    have hf₂ := h₂.frames hf
    have hm₂ := h₂.inSpace hm
    refine .ite (fun _ => .ok ⟨[_], ?_, frames_lpvIntegerPush hf₂ hm₂ y⟩) fun _ => .ok ?_
    · exact List.forall_mem_singleton.mpr (.inl rfl)
    rcases eq_or_ne (m₂.bank.word y) 0 with hzero | hne
    · rw [lpvStringPush_zero hzero]
      exact ⟨[], fun f hf => (nomatch hf), hf₂⟩
    · refine ⟨[_], ?_, frames_lpvStringPush hf₂ hm₂ hne⟩
      exact List.forall_mem_singleton.mpr (.inr rfl)
  refine (variableFind_keepsStack .refl).bind ?_
  rintro ⟨data, m₁⟩ h₁
  cases data with
  | some a => exact hpush a m₁ h₁
  | none =>
    refine (variableCreate_keepsStack h₁).bind ?_
    rintro ⟨y, m₂⟩ h₂
    exact hpush y m₂ h₂

theorem commandLocal_frames (hf : m.Frames fs) (hm : m.LocalInSpace fuel) :
    Outcome (fun m' => ∃ ls, (∀ f ∈ ls, f.kind.IsLocal) ∧ m'.Frames (ls ++ fs)) anyStop
      (commandLocal fuel m) (commandLocal fuel m) := by
  induction fuel generalizing m fs with
  | zero => exact .error trivial
  | succ fuel ih =>
    obtain ⟨hspace, hnext⟩ := hm
    refine (localProcessVariable_frames hf hspace).bind_eq ?_
    rintro ⟨r, m₁⟩ h ⟨ls, hls, hf₁⟩
    refine .ite (fun ht => ?_) fun _ => .ok ⟨ls, hls, hf₁⟩
    have hskip : m₁.skipToken.Frames (ls ++ fs) := hf₁
    refine (ih hskip (hnext r m₁ h ht)).mono ?_
    rintro m₂ ⟨ls', hls', hf₂⟩
    refine ⟨ls' ++ ls, fun f hf => ?_, by rwa [List.append_assoc]⟩
    exact (List.mem_append.mp hf).elim (hls' f) (hls f)

theorem commandLocal_effect (hf : m.Frames fs) (hm : m.LocalInSpace fuel) :
    Outcome (m.HasEffect .commandLocal fs) anyStop (commandLocal fuel m) (commandLocal fuel m) :=
  (commandLocal_frames hf hm).mono fun _ ⟨_, hls, h⟩ => ⟨_, .makeLocal hls, h⟩

theorem commandProc_effect (hf : m.Frames fs) (hm : m.InSpace) (hp : m.CallsParameterless fuel) :
    Outcome (m.HasEffect .commandProc fs) anyStop (commandProc fuel m) (commandProc fuel m) := by
  refine (fproLoop_keepsStack _ .refl).bind_eq ?_
  rintro ⟨⟨y, x⟩, m₁⟩ h ⟨h₁, hcode, hline⟩
  have hpush := frames_pushFrame (h₁.frames hf) (h₁.inSpace hm) (add16 y m₁.dCodePtr) .proc
  refine .ite (fun _ => .ok ⟨_, .proc y, ?_⟩) fun hne => absurd (hp y x m₁ h) hne
  rw [← show m₁.dCodePtr = m.dCodePtr from hcode, ← show m₁.dLineNumber = m.dLineNumber from hline]
  exact hpush

/-- The local frames on top are dropped; it takes one round for each. -/
theorem localRestore_frames (hf : m.Frames fs) (hm : m.InSpace) (fuel : ℕ) :
    Outcome (fun m' => m'.Frames (fs.dropWhile fun f => decide f.kind.IsLocal) ∧ m'.InSpace ∧
        m'.dLineNumber = m.dLineNumber) (fun _ => fuel ≤ fs.length) (localRestore fuel m)
      (localRestore fuel m) := by
  induction fuel generalizing m fs with
  | zero => exact .error (Nat.zero_le _)
  | succ fuel ih =>
    cases fs with
    | nil =>
      refine .ite (fun _ => .ok ⟨hf, hm, rfl⟩) fun hge => absurd ?_ hge
      exact (congrArg (· < 0xC000) hf.2).mpr (by decide)
    | cons f fs =>
      have htop := frames_marker hf
      have hlocal := f.kind.isLocal_iff
      rw [← htop] at hlocal
      refine .ite (fun hlt => .ok ⟨?_, hm, rfl⟩) fun hge => ?_
      · rw [List.dropWhile_cons_of_neg (by simpa using fun h => absurd (hlocal.mp h) (by omega))]
        exact hf
      have hl : f.kind.IsLocal := hlocal.mpr (by omega)
      rw [List.dropWhile_cons_of_pos (by simpa using hl)]
      have hstep : ∀ m', m'.Frames fs ∧ m'.InSpace ∧ m'.dLineNumber = m.dLineNumber →
          Outcome (fun m' => m'.Frames (fs.dropWhile fun f => decide f.kind.IsLocal) ∧
            m'.InSpace ∧ m'.dLineNumber = m.dLineNumber) (fun _ => fuel + 1 ≤ (f :: fs).length)
            (localRestore fuel m') (localRestore fuel m') := fun m' ⟨hf', hm', hl'⟩ =>
        (ih hf' hm').imp (fun m'' h => ⟨h.1, h.2.1, h.2.2.trans hl'⟩) fun _ h =>
          Nat.succ_le_succ h
      refine .ite (fun hint => ?_) fun hstr => ?_
      · cases f with
        | integer low high var => exact hstep _ (frames_lrIntegerPull hf hm)
        | string chars var =>
          exact absurd (show FrameKind.string.marker = 0xC000 from htop.symm.trans hint) (by decide)
        | _ => exact hl.elim nofun nofun
      · cases f with
        | integer low high var => exact absurd htop hstr
        | string chars var => exact hstep _ (frames_lrString hf hm)
        | _ => exact hl.elim nofun nofun

theorem commandEndproc_effect (hf : m.Frames fs) (hm : m.InSpace) :
    Outcome (m.HasEffect .commandEndproc fs) anyStop (commandEndproc fuel m)
      (commandEndproc fuel m) := by
  refine ((localRestore_frames hf hm fuel).imp (fun _ h => h) fun _ _ => trivial).bind ?_
  rintro m₁ ⟨hf₁, hm₁, -⟩
  refine .ite (fun _ => .error trivial) fun htop => .ok ?_
  obtain ⟨f, fs', heq, hk⟩ := frames_top hf₁ (k := .block .proc) (not_not.mp htop)
  rw [heq] at hf₁
  cases f with
  | block kind code line =>
    cases hk
    obtain ⟨hfs, hc, hl⟩ := frames_popFrame hf₁ hm₁
    have hsplit := List.takeWhile_append_dropWhile (p := fun f => decide f.kind.IsLocal) (l := fs)
    rw [heq] at hsplit
    refine ⟨fs', ?_, hfs⟩
    rw [← hsplit]
    exact .endproc (fun f hf => by simpa using List.mem_takeWhile_imp hf) hc hl
  | _ => cases hk

/-! ## Every statement -/

/-- **Every statement has its effect on the frames.** -/
theorem command_effect (c : Command) (hf : m.Frames fs) (h : m.Admits fuel c) :
    Outcome (m.HasEffect c fs) anyStop (runCommand fuel m c) (runCommand fuel m c) := by
  have hm := h.space
  cases c with
  | commandLet => exact commandLet_effect hf hm
  | functionDim => exact functionDim_effect hf hm
  | commandRem => exact commandRem_effect hf
  | commandAssert => exact commandAssert_effect hf hm
  | commandGoto => exact commandGoto_effect hf
  | commandOngoto => exact commandOngoto_effect hf hm
  | commandGosub => exact commandGosub_effect hf hm
  | commandReturn => exact commandReturn_effect hf hm
  | handlerElse => exact handlerElse_effect hf hm
  | commandProc => exact commandProc_effect hf hm (h.procedure rfl)
  | commandLocal => exact commandLocal_effect hf (h.locals rfl)
  | commandRepeat => exact .ok (commandRepeat_effect hf hm)
  | commandWhile => exact commandWhile_effect hf hm
  | commandIf => exact commandIf_effect hf hm
  | commandFor => exact commandFor_effect hf hm
  | commandWend => exact commandWend_effect hf hm
  | commandUntil => exact commandUntil_effect hf hm
  | handlerEndif => exact handlerEndif_effect hf hm
  | commandNext => exact commandNext_effect hf hm
  | commandEndproc => exact commandEndproc_effect hf hm
  | _ => exact .error trivial

/-- The frame a closing statement needs on top, and its error without it. -/
def Command.closes : Command → Option (FrameKind × Error)
  | .commandUntil => some (.block .repeat, .untilWithoutRepeat)
  | .commandWend => some (.block .while, .wendWithoutWhile)
  | .commandReturn => some (.block .gosub, .returnWithoutGosub)
  | .commandEndproc => some (.block .proc, .endProcWithoutProc)
  | .commandNext => some (.loop, .nextWithoutFor)
  | .handlerElse | .handlerEndif => some (.cond, .elseWithoutIf)
  | _ => none

/-- The frames a statement looks at: `endproc` drops the local variables first. -/
def Command.sees (c : Command) (fs : List StackFrame) : List StackFrame :=
  if c = .commandEndproc then fs.dropWhile fun f => decide f.kind.IsLocal else fs

theorem commandEndproc_fails (hf : m.Frames fs) (hm : m.InSpace) (hfuel : fs.length < fuel)
    (h : ∀ f fs', (fs.dropWhile fun f => decide f.kind.IsLocal) = f :: fs' →
      f.kind ≠ .block .proc) :
    ∃ m', commandEndproc fuel m = fail m' .endProcWithoutProc ∧ m'.dLineNumber = m.dLineNumber := by
  have hrestore := localRestore_frames hf hm fuel
  rw [commandEndproc]
  cases hr : localRestore fuel m with
  | error e =>
    rw [hr] at hrestore
    exact absurd hrestore.stop (by omega)
  | ok m₁ =>
    rw [hr] at hrestore
    obtain ⟨hf₁, -, hl⟩ := hrestore.post
    exact ⟨m₁, if_pos (frames_ne hf₁ h), hl⟩

/-- **A closing statement without the frame it needs ends in its error.** -/
theorem closing_fails {c : Command} {k : FrameKind} {e : Error} (hf : m.Frames fs)
    (hm : m.InSpace) (hfuel : fs.length < fuel) (hc : c.closes = some (k, e))
    (h : ∀ f fs', c.sees fs = f :: fs' → f.kind ≠ k) :
    ∃ m', runCommand fuel m c = fail m' e ∧ m'.dLineNumber = m.dLineNumber := by
  cases c with
  | commandEndproc =>
    cases hc
    exact commandEndproc_fails hf hm hfuel h
  | commandUntil | commandWend | commandReturn | commandNext | handlerElse | handlerEndif =>
    cases hc
    exact ⟨m, if_pos (frames_ne hf h), rfl⟩
  | _ => cases hc

end

end Basic65816
