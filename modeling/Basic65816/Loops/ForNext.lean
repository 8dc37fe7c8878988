import Basic65816.Arithmetic.Long
import Basic65816.Loops.Range
import Basic65816.Stack.Discipline

/-!
# The loop of `for` and `next`

`for` stores the start and leaves a frame with the place behind `to`, where the limit and the step
stand. `next` goes back to that place and evaluates them again in each round, adds the step to the index
and looks at the sign of what is left. The body of the loop is any part of the program that leaves the
frame and the index alone, and on whose way the limit and the step keep their values.

## Main definitions

* `forEntry`: a `for` statement up to `to`
* `nextBounds`: what `next` evaluates
* `Machine.BehindBounds`: the code pointer is behind the limit and the step of a loop
* `ForReaches`, `ForRun`: the rounds of a loop, and a loop up to its end
* `Machine.AtNext`: the limit and the step in front of `next`

## Main results

* `forEntry_index`, `commandFor_entry`: what `for` leaves in memory and on the stack
* `commandNext_round`: one round
* `for_range`: when a loop runs exactly through its range
-/

namespace Basic65816

open Counting

/-- The value of the variable whose data is at `y`. -/
def Machine.index (m : Machine) (y : ℕ) : Long := (m.bank.word y, m.bank.word (y + 2))

/-- The step, which is 1 unless it is given. -/
def stepValue : Option Value → Long
  | some v => (v.a, v.y)
  | none => (1, 0)

/-- A `for` statement up to `to`: the data address of the variable, the start, and the state behind the
keyword. -/
def forEntry (fuel : ℕ) (m : Machine) : Result (ℕ × Long × Machine) := do
  let (y, m) ← forVariable fuel m
  let m ← expectToken m equalTokenID
  let (v, m) ← evaluateInteger fuel m
  let m := { m with bank := (m.bank.setWord y v.a).setWord (y + 2) v.y }
  let m ← expectToken m toTokenID
  .ok (y, (v.a, v.y), m)

/-- What `next` evaluates: the limit and the step, with the code pointer behind the statement. -/
def nextBounds (fuel : ℕ) (m : Machine) : Result ((Long × Long) × ℕ × Machine) := do
  let m ← nextVariable fuel m
  let code := m.dCodePtr
  let m := { m with dStack := sub16 m.dStack 8 }
  let m := { m with dCodePtr := m.dp (m.dStack + 2) }
  let (limit, m) ← evaluateInteger fuel m
  let (step, m) ← forStep fuel { m with dTemp1 := 1, dTemp1H := 0 }
  .ok (((limit.a, limit.y), stepValue step), code, m)

/-- In front of a `next` the limit and the step have these values, and evaluating them does not change
the index. -/
def Machine.AtNext (m : Machine) (fuel y : ℕ) (limit step : Long) : Prop :=
  ∃ code m', nextBounds fuel m = .ok ((limit, step), code, m') ∧ m'.index y = m.index y

/-- The code pointer is behind the limit and the step that stand at `code`, as they are evaluated in the
memory `mem`. -/
def Machine.BehindBounds (m : Machine) (code : ℕ) (mem : Memory) : Prop :=
  ∃ (fuel : ℕ) (m₁ m₂ m₃ : Machine) (v : Value) (step : Option Value) (x : Long),
    m₁.bank = mem ∧ m₁.dCodePtr = code ∧ evaluateInteger fuel m₁ = .ok (v, m₂) ∧
      forStep fuel { m₂ with dTemp1 := x.1, dTemp1H := x.2 } = .ok (step, m₃) ∧
        m.dCodePtr = m₃.dCodePtr

/-- The states at the beginning of the body. -/
inductive ForReaches (fuel : ℕ) (body : Machine → Machine) (m : Machine) : Machine → Prop
  | start : ForReaches fuel body m m
  | again {m₁ m₂ : Machine} (h : ForReaches fuel body m m₁)
      (hnext : commandNext fuel (body m₁) = .ok m₂) (hstack : m₂.dStack = (body m₁).dStack) :
      ForReaches fuel body m m₂

/-- A loop runs its body for these values of the index, from the state `m` at the beginning of the
body. For each further round `next` goes back behind the limit and the step that stand at `code` in the
line `line`; at the end it takes the frame from the stack and continues behind itself in the state
`m'`. -/
inductive ForRun (fuel : ℕ) (body : Machine → Machine) (y code line : ℕ) :
    Machine → List ℤ → Machine → Prop
  | again {m m₁ m' : Machine} {is : List ℤ} (hnext : commandNext fuel (body m) = .ok m₁)
      (hstack : m₁.dStack = (body m).dStack) (hback : m₁.BehindBounds code (body m).bank)
      (hline : m₁.dLineNumber = line) (h : ForRun fuel body y code line m₁ is m') :
      ForRun fuel body y code line m (signedLong (m.index y) :: is) m'
  | done {m m₁ m' : Machine} (hnext : commandNext fuel (body m) = .ok m')
      (hstack : m'.dStack = sub16 (body m).dStack 8) (hbehind : nextVariable fuel (body m) = .ok m₁)
      (hcode : m'.dCodePtr = m₁.dCodePtr) (hline : m'.dLineNumber = (body m).dLineNumber) :
      ForRun fuel body y code line m [signedLong (m.index y)] m'

/-! ## The decision -/

theorem signedLong_addLong {a b : Long} (ha : a.Valid) (hb : b.Valid) :
    signedLong (addLong a b) = wrap (signedLong a + signedLong b) := by
  have h := toNat_addLong a b
  have hlt := ha.toNat_lt
  have hlt' := hb.toNat_lt
  rw [signedLong_eq (valid_addLong a b), signedLong_eq ha, signedLong_eq hb, h]
  unfold wrap
  split_ifs <;> omega

theorem signedLong_subLong {a b : Long} (ha : a.Valid) (hb : b.Valid) :
    signedLong (subLong a b) = wrap (signedLong a - signedLong b) := by
  have h := toNat_subLong ha hb
  have hlt := ha.toNat_lt
  have hlt' := hb.toNat_lt
  rw [signedLong_eq (valid_subLong a b), signedLong_eq ha, signedLong_eq hb, h]
  unfold wrap
  split_ifs <;> omega

/-- The sign test of `next`. -/
theorem continues_iff {d step : Long} (hd : d.Valid) (hs : step.Valid) :
    d.2 ||| d.1 = 0 ∨ (d.2 ^^^ step.2) / 0x8000 % 2 = 0 ↔
      signedLong d = 0 ∨ (signedLong d < 0 ↔ signedLong step < 0) := by
  have hzero : d.2 ||| d.1 = 0 ↔ signedLong d = 0 := by
    obtain ⟨h₁, h₂⟩ := hd
    rw [Nat.or_eq_zero_iff]
    unfold signedLong
    split_ifs <;> omega
  have htop : (d.2 ^^^ step.2) / 0x8000 % 2 = 0 ↔ (0x8000 ≤ d.2 ↔ 0x8000 ≤ step.2) := by
    obtain ⟨-, h₁⟩ := hd
    obtain ⟨-, h₂⟩ := hs
    rw [xor_top]
    omega
  rw [hzero, htop, signedLong_neg_iff hd, signedLong_neg_iff hs]

/-! ## One round -/

section

variable {m m₁ m₂ m' : Machine} {fs : List StackFrame} {fuel code line y : ℕ} {limit step : Long}

theorem forStep_none (h : forStep fuel m = .ok (none, m')) : m' = m := by
  unfold forStep at h
  split_ifs at h
  · obtain ⟨r, -, h⟩ := Except.bind_eq_ok.mp h
    cases h
  · cases h
    rfl

theorem commandNext_eq (h : m.dp m.dStack = forTokenID) (code : ℕ)
    (hb : nextBounds fuel m = .ok ((limit, step), code, m')) :
    commandNext fuel m = .ok (nextContinue { m' with
      dTemp1 := step.1, dTemp1H := step.2, dTemp2 := limit.1, dTemp2H := limit.2 } code) := by
  obtain ⟨m₁, h₁, hb⟩ := Except.bind_eq_ok.mp hb
  obtain ⟨⟨l, m₂⟩, h₂, hb⟩ := Except.bind_eq_ok.mp hb
  obtain ⟨⟨st, m₃⟩, h₃, hb⟩ := Except.bind_eq_ok.mp hb
  have hb := Except.ok.inj hb
  simp only [Prod.mk.injEq] at hb
  obtain ⟨⟨rfl, rfl⟩, rfl, rfl⟩ := hb
  unfold commandNext
  rw [if_neg (not_not.mpr h)]
  dsimp only at h₂ h₃ ⊢
  simp only [h₁, h₂, h₃, ok_bind]
  cases st with
  | some v => rfl
  | none =>
    obtain rfl := forStep_none h₃
    rfl

theorem evaluateInteger_post {v : Value} (h : evaluateInteger fuel m = .ok (v, m')) :
    m.Around (add16 m.dStack 16) m' := by
  have ha := evaluateInteger_around (m := m) fuel
  rw [h] at ha
  exact ha.post

theorem forStep_post {r : Option Value × Machine} {x : ℕ} (h : forStep fuel m₁ = .ok r)
    (ha : m.Around x m₁) (hx : x ≤ add16 m₁.dStack 16) : m.Around x r.2 := by
  have hs : Outcome (fun r => m.Around x r.2) anyStop (forStep fuel m₁) (forStep fuel m₁) :=
    forStep_around ha hx
  rw [h] at hs
  exact hs.post

/-- Evaluating the limit and the step leaves the frames alone. -/
theorem nextBounds_page (hs : basStack + 8 ≤ m.dStack) (hm : m.InSpace)
    (h : nextBounds fuel m = .ok ((limit, step), code, m')) :
    (∀ a < m.dStack + 2, m'.page a = m.page a) ∧ m'.dStack = m.dStack - 8 ∧
      m'.dLineNumber = m.dLineNumber ∧
        ∃ m₁, nextVariable fuel m = .ok m₁ ∧ code = m₁.dCodePtr := by
  have hlt : m.dStack < 0x200 := hm
  obtain ⟨m₁, h₁, h⟩ := Except.bind_eq_ok.mp h
  obtain ⟨⟨l, m₂⟩, h₂, h⟩ := Except.bind_eq_ok.mp h
  obtain ⟨⟨st, m₃⟩, h₃, h⟩ := Except.bind_eq_ok.mp h
  have h := Except.ok.inj h
  simp only [Prod.mk.injEq] at h
  obtain ⟨-, rfl, rfl⟩ := h
  have hvar : Outcome (fun m' => m.Around (m.dStack + 2) m' ∧ m'.bank = m.bank) anyStop
      (nextVariable fuel m) (nextVariable fuel m) := nextVariable_frame frame_bank ⟨.refl, rfl⟩
  rw [h₁] at hvar
  have hvar := hvar.post
  have hsub : sub16 m₁.dStack 8 = m.dStack - 8 := by
    rw [hvar.1.stack, sub16_eq (by omega) (by unfold basStack at hs; omega)]
  have hadd : add16 (sub16 m₁.dStack 8) 16 = m.dStack + 8 := by
    rw [hsub, add16_eq (by omega)]
    unfold basStack at hs
    omega
  -- the expression stack of the evaluations begins above the frame
  have he := evaluateInteger_post h₂
  dsimp only at he
  rw [hadd] at he
  have hst := forStep_post h₃ (he.workspace ⟨rfl, rfl, rfl, rfl, rfl, rfl, rfl⟩) (by
    change m.dStack + 8 ≤ add16 m₂.dStack 16
    rw [he.stack, hadd])
  refine ⟨fun a ha => (hst.page a (by omega)).trans (hvar.1.page a ha), ?_, ?_, m₁, h₁, rfl⟩
  · rw [hst.stack]
    exact hsub
  · rw [hst.line]
    exact hvar.1.line

/-- The end of `next`: the index `v` after the round and what is left. -/
theorem nextContinue_eq {v d : Long} (hy : m.dp (m.dStack + 6) = y) (code : ℕ)
    (hv : v = addLong (m.index y) (m.dTemp1, m.dTemp1H))
    (hd : d = subLong (m.dTemp2, m.dTemp2H) v) :
    nextContinue m code =
      if d.2 ||| d.1 = 0 ∨ (d.2 ^^^ m.dTemp1H) / 0x8000 % 2 = 0 then
        { m with
          bank := (m.bank.setWord y v.1).setWord (y + 2) v.2, dTemp2 := d.1, dTemp2H := d.2
          dStack := add16 m.dStack 8, dLineNumber := m.dp (m.dStack + 4) }
      else
        { m with
          bank := (m.bank.setWord y v.1).setWord (y + 2) v.2, dTemp2 := d.1, dTemp2H := d.2
          dCodePtr := code } := by
  have hvalid : v.Valid := hv ▸ valid_addLong _ _
  have hlow : ((m.bank.setWord y v.1).setWord (y + 2) v.2).word y = v.1 :=
    (Memory.word_setWord_of_disjoint (by omega)).trans (Memory.word_setWord hvalid.1)
  have hhigh : ((m.bank.setWord y v.1).setWord (y + 2) v.2).word (y + 2) = v.2 :=
    Memory.word_setWord hvalid.2
  unfold nextContinue
  dsimp only
  rw [hy, show addLong (m.bank.word y, m.bank.word (y + 2)) (m.dTemp1, m.dTemp1H) = v from hv.symm,
    hlow, hhigh, show subLong (m.dTemp2, m.dTemp2H) (v.1, v.2) = d from hd.symm]
  rfl

/-- The index after a round, and where the program continues. -/
theorem nextContinue_index {v d : Long} (hy : m.dp (m.dStack + 6) = y) (code : ℕ)
    (hv : v = addLong (m.index y) (m.dTemp1, m.dTemp1H))
    (hd : d = subLong (m.dTemp2, m.dTemp2H) v) :
    (nextContinue m code).index y = v ∧ (nextContinue m code).page = m.page ∧
      if d.2 ||| d.1 = 0 ∨ (d.2 ^^^ m.dTemp1H) / 0x8000 % 2 = 0 then
        (nextContinue m code).dStack = add16 m.dStack 8
      else (nextContinue m code).dStack = m.dStack ∧ (nextContinue m code).dCodePtr = code ∧
        (nextContinue m code).dLineNumber = m.dLineNumber := by
  have hvalid : v.Valid := hv ▸ valid_addLong _ _
  have hlow : ((m.bank.setWord y v.1).setWord (y + 2) v.2).word y = v.1 :=
    (Memory.word_setWord_of_disjoint (by omega)).trans (Memory.word_setWord hvalid.1)
  have hhigh : ((m.bank.setWord y v.1).setWord (y + 2) v.2).word (y + 2) = v.2 :=
    Memory.word_setWord hvalid.2
  rw [nextContinue_eq hy code hv hd]
  split_ifs
  · exact ⟨Prod.ext hlow hhigh, rfl, rfl⟩
  · exact ⟨Prod.ext hlow hhigh, rfl, rfl, rfl, rfl⟩

theorem Machine.valid_index (m : Machine) (y : ℕ) : (m.index y).Valid :=
  ⟨m.bank.word_lt y, m.bank.word_lt (y + 2)⟩

/-- When `next` goes back, it continues behind the limit and the step, in the line of the frame. -/
theorem commandNext_back (hf : m.Frames (.loop code line y :: fs)) (hm : m.InSpace)
    (h : commandNext fuel m = .ok m') (hf' : m'.Frames (.loop code line y :: fs)) :
    m'.BehindBounds code m.bank ∧ m'.dLineNumber = line := by
  have heffect : Outcome (m.HasEffect .commandNext (.loop code line y :: fs)) anyStop
      (commandNext fuel m) (commandNext fuel m) := commandNext_effect hf hm
  rw [h] at heffect
  obtain ⟨fs', heffect, hfs⟩ := heffect.post
  cases heffect with
  | @nextAgain _ m₁ m₂ m₃ _ _ n _ _ _ v step hb hc h₁ h₂ hc' hl =>
    exact ⟨⟨n, m₁, m₂, m₃, v, step, (1, 0), hb, hc, h₁, h₂, hc'⟩, hl⟩
  | nextDone => exact absurd (hfs.unique hf').symm (List.cons_ne_self _ _)

/-- **One round**: `next` adds the step to the index and looks at the sign of what is left. -/
theorem commandNext_round (hf : m.Frames (.loop code line y :: fs)) (hm : m.InSpace)
    (hn : m.AtNext fuel y limit step) (hl : limit.Valid) (hs : step.Valid) :
    ∃ m', commandNext fuel m = .ok m' ∧
      signedLong (m'.index y) = wrap (signedLong (m.index y) + signedLong step) ∧
      (Counting.Continues (signedLong limit) (signedLong step)
          (signedLong (m.index y) + signedLong step) →
        m'.dStack = m.dStack ∧ m'.Frames (.loop code line y :: fs) ∧
          m'.BehindBounds code m.bank ∧ m'.dLineNumber = line) ∧
      (¬ Counting.Continues (signedLong limit) (signedLong step)
          (signedLong (m.index y) + signedLong step) →
        m'.dStack = sub16 m.dStack 8 ∧ m'.Frames fs ∧ m'.dLineNumber = m.dLineNumber ∧
          ∃ m₁, nextVariable fuel m = .ok m₁ ∧ m'.dCodePtr = m₁.dCodePtr) := by
  have hlt : m.dStack < 0x200 := hm
  have hle : basStack + 8 ≤ m.dStack := hf.1
  obtain ⟨a, m₂, hbounds, hindex⟩ := hn
  obtain ⟨hpage, hstack, hline, m₁, hvar, rfl⟩ := nextBounds_page hle hm hbounds
  have hrun := commandNext_eq (frames_marker hf) m₁.dCodePtr hbounds
  have hy : m₂.dp (m₂.dStack + 6) = y := by
    obtain ⟨-, hvar', -⟩ := hf.2.1
    rw [hstack, show m.dStack - 8 + 6 = m.dStack - 2 by omega, ← hvar']
    exact Memory.word_congr (hpage _ (by omega)) (hpage _ (by omega))
  obtain ⟨hnext, hpage', hcase⟩ := nextContinue_index (m := { m₂ with
      dTemp1 := step.1, dTemp1H := step.2, dTemp2 := limit.1, dTemp2H := limit.2 })
    hy m₁.dCodePtr rfl rfl
  generalize nextContinue _ m₁.dCodePtr = m₃ at hrun hnext hpage' hcase
  have hsum : signedLong (m₃.index y) = wrap (signedLong (m.index y) + signedLong step) := by
    rw [hnext, ← hindex]
    exact signedLong_addLong (m₂.valid_index y) hs
  have hdiff : signedLong (subLong limit (m₃.index y)) =
      wrap (signedLong limit - (signedLong (m.index y) + signedLong step)) := by
    rw [signedLong_subLong hl (m₃.valid_index y), hsum, wrap_sub_wrap]
  -- the test on the words is the one on the numbers
  have hdecide := continues_iff (valid_subLong limit (m₃.index y)) hs
  rw [hdiff] at hdecide
  rw [← hnext] at hcase
  have hsame : ∀ a < m.dStack + 2, m₃.page a = m.page a := fun a ha =>
    (congrFun hpage' a).trans (hpage a ha)
  -- the frame is pushed again, or left off the stack
  refine ⟨m₃, hrun, hsum, fun hc => ?_, fun hc => ?_⟩
  · have hstack' := (if_pos (hdecide.mpr hc)) ▸ hcase
    have hd : m₃.dStack = m.dStack := by
      refine hstack'.trans ?_
      change add16 m₂.dStack 8 = m.dStack
      rw [hstack, add16_eq (by omega)]
      unfold basStack at hle
      omega
    have hf₃ : m₃.Frames (.loop code line y :: fs) := Machine.KeepsStack.frames ⟨hd, hsame⟩ hf
    exact ⟨hd, hf₃, commandNext_back hf hm hrun hf₃⟩
  · have hstack' := (if_neg (fun h => hc (hdecide.mp h))) ▸ hcase
    have hd : m₃.dStack = m.dStack - 8 := hstack'.1.trans hstack
    refine ⟨?_, ?_, hstack'.2.2.trans hline, m₁, hvar, hstack'.2.1⟩
    · rw [hd, sub16_eq (by omega) (by unfold basStack at hle; omega)]
    · unfold Machine.Frames
      rw [hd]
      refine Memory.Frames.congr hf.2.2 fun a ha => hsame a ?_
      change a < m.dStack - 8 + 2 at ha
      omega

end

/-! ## The rounds of a loop -/

theorem continues_wrap (limit step a b : ℤ) :
    Counting.Continues limit step (wrap a + b) ↔ Counting.Continues limit step (a + b) := by
  have h : wrap (limit - (wrap a + b)) = wrap (limit - (a + b)) := by
    rw [← wrap_sub_wrap limit (wrap a + b), wrap_wrap_add, wrap_sub_wrap]
  unfold Counting.Continues
  rw [h]

theorem sub16_dStack_ne {m : Machine} {code line y : ℕ} {fs : List StackFrame}
    (hf : m.Frames (.loop code line y :: fs)) (hm : m.InSpace) : sub16 m.dStack 8 ≠ m.dStack := by
  have hlt : m.dStack < 0x200 := hm
  have hle : basStack + 8 ≤ m.dStack := hf.1
  unfold basStack at hle
  rw [sub16_eq (by omega) (by omega)]
  omega

/-- The body of a loop: it keeps the frames and the index, and ends in front of `next`, where the limit
and the step have their values. -/
structure ForBody (fuel : ℕ) (body : Machine → Machine) (y : ℕ) (limit step : Long) (m : Machine) :
    Prop where
  keeps : m.KeepsStack (body m)
  index : (body m).index y = m.index y
  atNext : (body m).AtNext fuel y limit step

section

variable {fuel y code line : ℕ} {body : Machine → Machine} {limit step : Long} {m₀ : Machine}
  {fs : List StackFrame} (hl : limit.Valid) (hs : step.Valid) (hf : m₀.Frames (.loop code line y :: fs))
  (hm : m₀.InSpace) (hbody : ∀ m, ForReaches fuel body m₀ m → ForBody fuel body y limit step m)

include hl hs hbody

/-- A round of a loop that is in its frame. -/
theorem forBody_round {m : Machine} (h : ForReaches fuel body m₀ m)
    (hfm : m.Frames (.loop code line y :: fs)) (hmm : m.InSpace) :
    ∃ m', commandNext fuel (body m) = .ok m' ∧
      signedLong (m'.index y) = wrap (signedLong (m.index y) + signedLong step) ∧
      (Counting.Continues (signedLong limit) (signedLong step)
          (signedLong (m.index y) + signedLong step) →
        m'.dStack = (body m).dStack ∧ m'.Frames (.loop code line y :: fs) ∧
          m'.BehindBounds code (body m).bank ∧ m'.dLineNumber = line) ∧
      (¬ Counting.Continues (signedLong limit) (signedLong step)
          (signedLong (m.index y) + signedLong step) →
        m'.dStack = sub16 (body m).dStack 8 ∧ m'.Frames fs ∧
          m'.dLineNumber = (body m).dLineNumber ∧
          ∃ m₁, nextVariable fuel (body m) = .ok m₁ ∧ m'.dCodePtr = m₁.dCodePtr) := by
  obtain ⟨hkeeps, hindex, hnext⟩ := hbody m h
  have hround := commandNext_round (hkeeps.frames hfm) (hkeeps.inSpace hmm) hnext hl hs
  rwa [hindex] at hround

include hf hm

/-- The frame is there at the beginning of every round. -/
theorem ForReaches.frames {m : Machine} (h : ForReaches fuel body m₀ m) :
    m.Frames (.loop code line y :: fs) ∧ m.InSpace := by
  induction h with
  | start => exact ⟨hf, hm⟩
  | @again m₁ m₂ h hnext hstack ih =>
    obtain ⟨hfm, hmm⟩ := ih
    obtain ⟨m', hrun, -, hgo, hstop⟩ := forBody_round hl hs hbody h hfm hmm
    obtain rfl := Except.ok.inj (hrun.symm.trans hnext)
    have hkeeps := (hbody _ h).keeps
    by_cases hc : Counting.Continues (signedLong limit) (signedLong step)
        (signedLong (m₁.index y) + signedLong step)
    · refine ⟨(hgo hc).2.1, ?_⟩
      have hspace := hkeeps.inSpace hmm
      unfold Machine.InSpace at hspace ⊢
      rwa [hstack]
    · exact absurd ((hstop hc).1.symm.trans hstack) (sub16_dStack_ne (hkeeps.frames hfm)
        (hkeeps.inSpace hmm))

/-- **A loop runs as the sign test says.** By induction on the number of rounds. -/
theorem forRun_of_continues (n : ℕ) {m : Machine} {i : ℤ} (h : ForReaches fuel body m₀ m)
    (hi : signedLong (m.index y) = wrap i)
    (hgo : ∀ k : ℕ, 1 ≤ k → k ≤ n →
      Counting.Continues (signedLong limit) (signedLong step) (i + k * signedLong step))
    (hstop : ¬ Counting.Continues (signedLong limit) (signedLong step)
      (i + (n + 1 : ℕ) * signedLong step)) :
    ∃ m', ForRun fuel body y code line m
      ((List.range (n + 1)).map fun k : ℕ => wrap (i + k * signedLong step)) m' ∧ m'.Frames fs := by
  induction n generalizing m i with
  | zero =>
    obtain ⟨hfm, hmm⟩ := h.frames hl hs hf hm hbody
    obtain ⟨m', hrun, -, -, hend⟩ := forBody_round hl hs hbody h hfm hmm
    rw [hi, continues_wrap] at hend
    simp only [Nat.zero_add, Nat.cast_one, one_mul] at hstop
    obtain ⟨hstack, hfs, hline, m₁, hvar, hcode⟩ := hend hstop
    refine ⟨m', ?_, hfs⟩
    have hdone : ForRun fuel body y code line m [signedLong (m.index y)] m' :=
      .done hrun hstack hvar hcode hline
    simpa [hi] using hdone
  | succ n ih =>
    obtain ⟨hfm, hmm⟩ := h.frames hl hs hf hm hbody
    obtain ⟨m₁, hrun, hnext, hcont, -⟩ := forBody_round hl hs hbody h hfm hmm
    rw [hi, continues_wrap] at hcont
    rw [hi, wrap_wrap_add] at hnext
    -- the first round goes on, and the rest is a loop that starts one step later
    have hfirst := hgo 1 (Nat.le_refl 1) (by omega)
    rw [Nat.cast_one, one_mul] at hfirst
    obtain ⟨hstack, -, hback, hline⟩ := hcont hfirst
    have hshift : ∀ k : ℕ, i + signedLong step + k * signedLong step =
        i + (k + 1 : ℕ) * signedLong step := fun k => by push_cast; ring
    obtain ⟨m', hrest, hfs⟩ := ih (.again h hrun hstack) hnext
      (fun k hk hkn => by rw [hshift]; exact hgo (k + 1) (by omega) (by omega))
      (by rw [hshift]; exact hstop)
    refine ⟨m', ?_, hfs⟩
    have hagain := ForRun.again hrun hstack hback hline hrest
    rw [List.range_succ_eq_map, List.map_cons, List.map_map]
    rw [hi] at hagain
    simp only [hshift] at hagain
    simpa [Function.comp_def] using hagain

/-- The decisions of a loop that has come to its end. By induction on the run. -/
theorem ForRun.continues {m m' : Machine} {is : List ℤ} (hrun : ForRun fuel body y code line m is m')
    {i : ℤ}
    (h : ForReaches fuel body m₀ m) (hi : signedLong (m.index y) = wrap i) :
    ∃ n, is.length = n + 1 ∧
      (∀ k : ℕ, 1 ≤ k → k ≤ n →
        Counting.Continues (signedLong limit) (signedLong step) (i + k * signedLong step)) ∧
      ¬ Counting.Continues (signedLong limit) (signedLong step)
        (i + (n + 1 : ℕ) * signedLong step) := by
  induction hrun generalizing i with
  | @again m m₁ m' is hnext hstack hback hline hrest ih =>
    obtain ⟨hfm, hmm⟩ := h.frames hl hs hf hm hbody
    have hkeeps := (hbody _ h).keeps
    obtain ⟨m₂, hrun, hindex, -, hstop⟩ := forBody_round hl hs hbody h hfm hmm
    obtain rfl := Except.ok.inj (hrun.symm.trans hnext)
    rw [hi, wrap_wrap_add] at hindex
    rw [hi, continues_wrap] at hstop
    -- `next` kept the frame, so the test said that the loop goes on
    have hfirst : Counting.Continues (signedLong limit) (signedLong step) (i + signedLong step) := by
      by_contra hc
      exact sub16_dStack_ne (hkeeps.frames hfm) (hkeeps.inSpace hmm)
        ((hstop hc).1.symm.trans hstack)
    obtain ⟨n, hlen, hgo, hend⟩ := ih (.again h hnext hstack) hindex
    have hshift : ∀ k : ℕ, i + signedLong step + k * signedLong step =
        i + (k + 1 : ℕ) * signedLong step := fun k => by push_cast; ring
    refine ⟨n + 1, by rw [List.length_cons, hlen], fun k hk hkn => ?_, ?_⟩
    · rcases Nat.eq_or_lt_of_le hk with rfl | hlt
      · rwa [Nat.cast_one, one_mul]
      · obtain ⟨j, rfl⟩ : ∃ j, k = j + 1 := ⟨k - 1, by omega⟩
        rw [← hshift]
        exact hgo j (by omega) (by omega)
    · rw [← hshift]
      exact hend
  | @done m m₁ m' hnext hstack hbehind hcode hline =>
    obtain ⟨hfm, hmm⟩ := h.frames hl hs hf hm hbody
    have hkeeps := (hbody _ h).keeps
    obtain ⟨m₂, hrun, -, hgo, -⟩ := forBody_round hl hs hbody h hfm hmm
    obtain rfl := Except.ok.inj (hrun.symm.trans hnext)
    rw [hi, continues_wrap] at hgo
    refine ⟨0, rfl, fun k hk hk0 => by omega, ?_⟩
    simp only [Nat.zero_add, Nat.cast_one, one_mul]
    -- a loop that goes on would have kept its frame
    intro hc
    exact sub16_dStack_ne (hkeeps.frames hfm) (hkeeps.inSpace hmm) (hstack.symm.trans (hgo hc).1)

end

/-! ## The statement `for` -/

theorem vfNext_lt (fuel : ℕ) (m : Machine) :
    Outcome (fun r => ∀ a, r.1 = some a → a < 0x10000) anyStop (vfNext fuel m) (vfNext fuel m) := by
  induction fuel generalizing m with
  | zero => exact .error trivial
  | succ fuel ih =>
    refine .ite (fun _ => .ok fun a ha => nomatch ha) fun _ => ?_
    refine (Outcome.self (fun _ _ => trivial) fun _ _ => trivial : Outcome (fun _ => True) anyStop
      (vfCompare fuel _ 0) (vfCompare fuel _ 0)).bind ?_
    rintro (_ | n) -
    · exact ih _
    · refine .ok fun a ha => ?_
      obtain rfl := Option.some.inj ha
      exact add16_lt _ _

/-- The data of a variable are in the bank. -/
theorem forVariable_lt (fuel : ℕ) (m : Machine) :
    Outcome (fun r => r.1 < 0x10000) anyStop (forVariable fuel m) (forVariable fuel m) := by
  have hfind : Outcome (fun r => ∀ a, r.1 = some a → a < 0x10000) anyStop (variableFind fuel m)
      (variableFind fuel m) := by
    refine .ite (fun _ => .error trivial) fun _ => .ite (fun _ => .ok fun a ha => ?_) fun _ => ?_
    · obtain rfl := Option.some.inj ha
      exact Nat.mod_lt _ (by decide)
    · exact vfNext_lt fuel _
  refine hfind.bind ?_
  rintro ⟨data, m₁⟩ h
  cases data with
  | some a => exact .ok (h a rfl)
  | none =>
    refine Outcome.self (fun r hr => ?_) fun _ _ => trivial
    simp only [variableCreate] at hr
    split_ifs at hr
    · cases hr
    · obtain ⟨r₁, -, hr⟩ := Except.bind_eq_ok.mp hr
      obtain ⟨m₂, -, hr⟩ := Except.bind_eq_ok.mp hr
      obtain rfl := Except.ok.inj hr
      exact add16_lt _ _
    · obtain ⟨r₁, -, hr⟩ := Except.bind_eq_ok.mp hr
      obtain ⟨m₂, -, hr⟩ := Except.bind_eq_ok.mp hr
      obtain rfl := Except.ok.inj hr
      exact add16_lt _ _

section

variable {m m₀ m₁ : Machine} {fs : List StackFrame} {fuel y : ℕ} {start : Long}

/-- `for` is its beginning, the frame, and the limit and the step, which are only skipped. -/
theorem commandFor_eq_entry (fuel : ℕ) (m : Machine) : commandFor fuel m =
    if m.token &&& (idTypeMask + idArrayMask) ≠ 0 then fail m .badForVariable
    else (do
      let (y, _, m) ← forEntry fuel m
      let (_, m) ← evaluateInteger fuel (m.pushWords m.dCodePtr m.dLineNumber y forTokenID)
      let (_, m) ← forStep fuel m
      .ok m) := by
  unfold commandFor forEntry
  simp only [bind_assoc]
  rfl

/-- **What is stored and pushed**: the index is the start, and the stack and the line are as before. -/
theorem forEntry_spec (hm : m.InSpace) (hv : start.Valid)
    (h : forEntry fuel m = .ok (y, start, m₁)) :
    m₁.index y = start ∧ y < 0x10000 ∧ m.KeepsStack m₁ ∧ m₁.dLineNumber = m.dLineNumber ∧
      m₁.dCodePtr < 0x10000 := by
  have hlt : m.dStack < 0x200 := hm
  obtain ⟨⟨y', m₂⟩, h₂, h⟩ := Except.bind_eq_ok.mp h
  obtain ⟨m₃, h₃, h⟩ := Except.bind_eq_ok.mp h
  obtain ⟨⟨v, m₄⟩, h₄, h⟩ := Except.bind_eq_ok.mp h
  obtain ⟨m₅, h₅, h⟩ := Except.bind_eq_ok.mp h
  have h := Except.ok.inj h
  simp only [Prod.mk.injEq] at h
  obtain ⟨rfl, rfl, rfl⟩ := h
  have hy := forVariable_lt fuel m
  rw [h₂] at hy
  -- no part of the statement up to `to` reaches down to the frames
  have ha₂ : m.Around (m.dStack + 2) m₂ := by
    have h : Outcome (fun r => m.Around (m.dStack + 2) r.2) anyStop (forVariable fuel m)
      (forVariable fuel m) := forVariable_around .refl
    rw [h₂] at h
    exact h.post
  have ha₃ : m.Around (m.dStack + 2) m₃ := by
    rw [expectToken_eq h₃]
    exact frame_around.skipToken ha₂
  have hx : m.dStack + 2 ≤ add16 m₃.dStack 16 := by
    rw [ha₃.stack, add16_eq (by omega)]
    omega
  have ha₄ : m.Around (m.dStack + 2)
      { m₄ with bank := (m₄.bank.setWord y' v.a).setWord (y' + 2) v.y } :=
    (ha₃.trans ((evaluateInteger_post h₄).mono hx)).workspace ⟨rfl, rfl, rfl, rfl, rfl, rfl, rfl⟩
  have hskip := expectToken_eq h₅
  have ha₅ : m.Around (m.dStack + 2) m₅ := by
    rw [hskip]
    exact frame_around.skipToken ha₄
  refine ⟨?_, hy.post, ha₅.keepsStack (Nat.le_refl _), ha₅.line, ?_⟩
  · rw [hskip]
    exact Prod.ext ((Memory.word_setWord_of_disjoint (by omega)).trans (Memory.word_setWord hv.1))
      (Memory.word_setWord hv.2)
  · rw [hskip]
    exact add16_lt _ _

/-- **`for` leaves the frame of its loop** and goes on behind the limit and the step. -/
theorem commandFor_entry (hf : m.Frames fs) (hm : m.InSpace) (hv : start.Valid)
    (hentry : forEntry fuel m = .ok (y, start, m₁)) (hfor : commandFor fuel m = .ok m₀) :
    m₀.Frames (.loop m₁.dCodePtr (word16 m.dLineNumber) y :: fs) ∧ m₀.dStack = m.dStack + 8 ∧
      m₀.BehindBounds m₁.dCodePtr m₁.bank := by
  obtain ⟨-, hy, hkeep, hline, hcode⟩ := forEntry_spec hm hv hentry
  rw [commandFor_eq_entry] at hfor
  split_ifs at hfor
  · cases hfor
  simp only [hentry, ok_bind] at hfor
  obtain ⟨⟨v, m₂⟩, h₂, hfor⟩ := Except.bind_eq_ok.mp hfor
  obtain ⟨⟨step, m₃⟩, h₃, hfor⟩ := Except.bind_eq_ok.mp hfor
  obtain rfl := Except.ok.inj hfor
  have hpush : (m₁.pushWords m₁.dCodePtr m₁.dLineNumber y forTokenID).Frames
      (.loop m₁.dCodePtr (word16 m.dLineNumber) y :: fs) := by
    have h : (m₁.pushWords m₁.dCodePtr m₁.dLineNumber y forTokenID).Frames
        (.loop (m₁.dCodePtr % 0x10000) (m₁.dLineNumber % 0x10000) (y % 0x10000) :: fs) :=
      frames_pushLoop (hkeep.frames hf) (hkeep.inSpace hm)
    rw [Nat.mod_eq_of_lt hcode, Nat.mod_eq_of_lt hy] at h
    rw [← hline]
    exact h
  have hstack := dStack_pushWords (hkeep.inSpace hm) m₁.dCodePtr m₁.dLineNumber y forTokenID
  rw [hkeep.stack] at hstack
  have hbank : (m₁.pushWords m₁.dCodePtr m₁.dLineNumber y forTokenID).bank = m₁.bank := bank_pushWords
  have hptr : (m₁.pushWords m₁.dCodePtr m₁.dLineNumber y forTokenID).dCodePtr = m₁.dCodePtr :=
    dCodePtr_pushWords
  generalize m₁.pushWords m₁.dCodePtr m₁.dLineNumber y forTokenID = m' at h₂ hpush hstack hbank hptr
  have hnear : m'.NearSpace := by
    have hlt : m.dStack < 0x200 := hm
    unfold Machine.NearSpace
    omega
  -- the limit and the step are skipped
  have hk₂ : Outcome (fun r => m'.KeepsStack r.2) anyStop (evaluateInteger fuel m')
    (evaluateInteger fuel m') := evaluateInteger_keepsStack .refl hnear
  rw [h₂] at hk₂
  have hk₃ : Outcome (fun r => m'.KeepsStack r.2) anyStop (forStep fuel m₂) (forStep fuel m₂) :=
    forStep_keepsStack hk₂.post hnear
  rw [h₃] at hk₃
  exact ⟨hk₃.post.frames hpush, hk₃.post.stack.trans hstack,
    fuel, m', m₂, m₃, v, step, (m₂.dTemp1, m₂.dTemp1H), hbank, hptr, h₂, h₃, rfl⟩

end

/-! ## The whole loop -/

/-- The body runs for the indices from the start on as long as they have not passed the limit, the first
one always; then the frame is taken from the stack, which holds the frames `fs` again, and the program
continues behind `next`. The limit and the step of the loop stand at `code` in the line `line`. -/
def RunsThrough (fuel : ℕ) (body : Machine → Machine) (y code line : ℕ) (m₀ : Machine)
    (fs : List StackFrame) (start limit step : ℤ) : Prop :=
  ∃ (n : ℕ) (m' : Machine),
    ForRun fuel body y code line m₀ ((List.range (n + 1)).map fun k : ℕ => start + k * step) m' ∧
      m'.Frames fs ∧ (∀ k : ℕ, 1 ≤ k → k ≤ n → ¬ Passed limit step (start + k * step)) ∧
        Passed limit step (start + (n + 1 : ℕ) * step)

section

variable {m m₀ m₁ : Machine} {fs : List StackFrame} {fuel y code line : ℕ} {body : Machine → Machine}

/-- A loop that runs through its range makes the right decisions. -/
theorem RunsThrough.fits (start limit step : Long) (hv : start.Valid) (hl : limit.Valid) (hs : step.Valid)
    (hstep : signedLong step ≠ 0) (hf : m₀.Frames (.loop code line y :: fs)) (hm : m₀.InSpace)
    (hi : m₀.index y = start)
    (hbody : ∀ m, ForReaches fuel body m₀ m → ForBody fuel body y limit step m)
    (h : RunsThrough fuel body y code line m₀ fs (signedLong start) (signedLong limit)
      (signedLong step)) :
    Fits (signedLong start) (signedLong limit) (signedLong step) := by
  obtain ⟨n, m', hrun, -, hwithin, hpassed⟩ := h
  obtain ⟨hs₁, hs₂⟩ := signedLong_range hv
  obtain ⟨hl₁, hl₂⟩ := signedLong_range hl
  obtain ⟨ht₁, ht₂⟩ := signedLong_range hs
  obtain ⟨n', hlen, hgo, hstop⟩ := hrun.continues hl hs hf hm hbody .start
    (show signedLong (m₀.index y) = wrap (signedLong start) by rw [hi, wrap_of_range hs₁ hs₂])
  obtain rfl : n' = n := by simpa using hlen.symm
  exact fits_of_counts hs₁ hs₂ hl₁ hl₂ ht₁ ht₂ hstep ⟨hgo, hwithin, hstop, hpassed⟩

/-- A loop whose second difference is all right runs through its range. -/
theorem RunsThrough.of_fits (start limit step : Long) (hv : start.Valid) (hl : limit.Valid) (hs : step.Valid)
    (hstep : signedLong step ≠ 0) (hf : m₀.Frames (.loop code line y :: fs)) (hm : m₀.InSpace)
    (hi : m₀.index y = start)
    (hbody : ∀ m, ForReaches fuel body m₀ m → ForBody fuel body y limit step m)
    (h : Fits (signedLong start) (signedLong limit) (signedLong step)) :
    RunsThrough fuel body y code line m₀ fs (signedLong start) (signedLong limit)
      (signedLong step) := by
  obtain ⟨hs₁, hs₂⟩ := signedLong_range hv
  obtain ⟨hl₁, hl₂⟩ := signedLong_range hl
  obtain ⟨ht₁, ht₂⟩ := signedLong_range hs
  obtain ⟨n, hcounts⟩ := exists_counts_of_fits hs₁ hs₂ hl₁ hl₂ ht₁ ht₂ hstep h
  obtain ⟨m', hrun, hfs⟩ := forRun_of_continues hl hs hf hm hbody n .start
    (show signedLong (m₀.index y) = wrap (signedLong start) by rw [hi, wrap_of_range hs₁ hs₂])
    hcounts.continues hcounts.stops
  refine ⟨n, m', ?_, hfs, hcounts.within, hcounts.passed⟩
  -- none of these indices wraps around
  have hexact : (List.range (n + 1)).map (fun k : ℕ => wrap (signedLong start + k * signedLong step)) =
      (List.range (n + 1)).map fun k : ℕ => signedLong start + k * signedLong step := by
    refine List.map_congr_left fun k hk => ?_
    exact hcounts.range hs₁ hs₂ hl₁ hl₂ hstep (Nat.lt_succ_iff.mp (List.mem_range.mp hk))
  rwa [← hexact]

/-- **A loop runs exactly through its range** if and only if the difference between the limit and the
second index does not wrap around to the wrong sign. `m₁` is the state behind `to` of a `for` statement
executed in the state `m`, and `m₀` that behind the statement. The body begins with the start in the
index and the frame of the loop on the stack, behind the limit and the step, which the frame points at;
it is any part of the program that keeps the frames and the index. The limit and the step have the same
values at each `next`, and evaluating them leaves the index alone. -/
theorem for_range (fuel : ℕ) (body : Machine → Machine) (start limit step : Long) {m m₀ m₁ : Machine}
    {fs : List StackFrame} {y : ℕ} (hv : start.Valid) (hl : limit.Valid) (hs : step.Valid)
    (hstep : signedLong step ≠ 0) (hf : m.Frames fs) (hm : m.dStack + 8 < 0x200)
    (hentry : forEntry fuel m = .ok (y, start, m₁)) (hfor : commandFor fuel m = .ok m₀)
    (hkeep : m₀.index y = m₁.index y)
    (hbody : ∀ m, ForReaches fuel body m₀ m → ForBody fuel body y limit step m) :
    m₀.index y = start ∧ m₀.Frames (.loop m₁.dCodePtr (word16 m.dLineNumber) y :: fs) ∧
      m₀.BehindBounds m₁.dCodePtr m₁.bank ∧
        (RunsThrough fuel body y m₁.dCodePtr (word16 m.dLineNumber) m₀ fs (signedLong start)
            (signedLong limit) (signedLong step) ↔
          Fits (signedLong start) (signedLong limit) (signedLong step)) := by
  have hspace : m.InSpace := by
    unfold Machine.InSpace
    omega
  obtain ⟨hindex, -⟩ := forEntry_spec hspace hv hentry
  obtain ⟨hf₀, hstack, hbehind⟩ := commandFor_entry hf hspace hv hentry hfor
  have hm₀ : m₀.InSpace := by
    unfold Machine.InSpace
    omega
  have hi : m₀.index y = start := hkeep.trans hindex
  exact ⟨hi, hf₀, hbehind, RunsThrough.fits start limit step hv hl hs hstep hf₀ hm₀ hi hbody,
    RunsThrough.of_fits start limit step hv hl hs hstep hf₀ hm₀ hi hbody⟩

end

/-! ## Loops on the command line -/

/-- The loop `for i = a to b`, behind the keyword, with `next` right behind the limit. -/
def loopMachine (start limit : Long) : Machine :=
  let m := commandMachine [0xC009, equalTokenID, 0xC001, toTokenID, 0xC002, nextTokenID, 0]
  { m with bank := (((m.bank.setWord 0x4010 start.1).setWord 0x4012 start.2).setWord 0x4014
      limit.1).setWord 0x4016 limit.2 }

/-- An empty body: only the keyword `next` is skipped. -/
def emptyBody (m : Machine) : Machine := m.skipToken

theorem ForReaches.head {fuel : ℕ} {body : Machine → Machine} {m₀ m : Machine}
    (h : ForReaches fuel body m₀ m) : m = m₀ ∨ ∃ m₁, commandNext fuel (body m₀) = .ok m₁ ∧
      m₁.dStack = (body m₀).dStack ∧ ForReaches fuel body m₁ m := by
  induction h with
  | start => exact .inl rfl
  | again h hnext hstack ih =>
    rcases ih with rfl | ⟨m₁, hnext', hstack', h'⟩
    · exact .inr ⟨_, hnext, hstack, .start⟩
    · exact .inr ⟨m₁, hnext', hstack', .again h' hnext hstack⟩

/-- The limit, the step and the index are as they should be at `next`. -/
def checkRound (limit step : Long) (y : ℕ) (m : Machine) : Bool :=
  match nextBounds 3 (emptyBody m) with
  | .ok (b, _, m') => decide (b = (limit, step) ∧ m'.index y = m.index y)
  | .error _ => false

/-- They are so in this number of further rounds. -/
def checkRounds (limit step : Long) (y : ℕ) : ℕ → Machine → Bool
  | 0, m => checkRound limit step y m
  | n + 1, m => checkRound limit step y m &&
    match commandNext 3 (emptyBody m) with
    | .ok m₁ => checkRounds limit step y n m₁
    | .error _ => false

section

variable {limit step : Long} {y n code line : ℕ} {m₀ m : Machine} {fs : List StackFrame}

theorem forBody_of_checkRound (h : checkRound limit step y m = true) :
    ForBody 3 emptyBody y limit step m := by
  unfold checkRound at h
  split at h
  · rename_i b code m' hbounds
    obtain ⟨rfl, hindex⟩ := of_decide_eq_true h
    exact ⟨⟨rfl, fun _ _ => rfl⟩, rfl, code, m', hbounds, hindex⟩
  · cases h

/-- A loop whose rounds have been checked up to the last one. By induction on their number. -/
theorem forBody_of_checkRounds (hl : limit.Valid) (hs : step.Valid) {i : ℤ}
    (hf : m₀.Frames (.loop code line y :: fs)) (hm : m₀.InSpace)
    (hi : signedLong (m₀.index y) = wrap i) (hcheck : checkRounds limit step y n m₀ = true)
    (hstop : ¬ Counting.Continues (signedLong limit) (signedLong step)
      (i + (n + 1 : ℕ) * signedLong step))
    (h : ForReaches 3 emptyBody m₀ m) : ForBody 3 emptyBody y limit step m := by
  induction n generalizing m₀ i with
  | zero =>
    have hround := forBody_of_checkRound hcheck
    -- behind the last round there is no further one
    rcases h.head with rfl | ⟨m₁, hnext, hstack, -⟩
    · exact hround
    · obtain ⟨m₂, hrun, -, -, hend⟩ := commandNext_round (m := emptyBody m₀) hf hm hround.atNext hl hs
      obtain rfl := Except.ok.inj (hrun.symm.trans hnext)
      rw [hround.index, hi, continues_wrap] at hend
      simp only [Nat.zero_add, Nat.cast_one, one_mul] at hstop
      exact absurd ((hend hstop).1.symm.trans hstack) (sub16_dStack_ne (m := emptyBody m₀) hf hm)
  | succ n ih =>
    rw [checkRounds, Bool.and_eq_true] at hcheck
    have hround := forBody_of_checkRound hcheck.1
    rcases h.head with rfl | ⟨m₁, hnext, hstack, h'⟩
    · exact hround
    · obtain ⟨m₂, hrun, hindex, hgo, hend⟩ :=
        commandNext_round (m := emptyBody m₀) hf hm hround.atNext hl hs
      obtain rfl := Except.ok.inj (hrun.symm.trans hnext)
      rw [hround.index, hi, continues_wrap] at hgo hend
      rw [hround.index, hi, wrap_wrap_add] at hindex
      have hc : Counting.Continues (signedLong limit) (signedLong step) (i + signedLong step) := by
        by_contra hc
        exact sub16_dStack_ne (m := emptyBody m₀) hf hm ((hend hc).1.symm.trans hstack)
      rw [hrun] at hcheck
      have hspace : m₂.InSpace := by
        unfold Machine.InSpace
        rw [hstack]
        exact hm
      refine ih (hgo hc).2.1 hspace hindex hcheck.2 ?_ h'
      have hshift : i + signedLong step + (n + 1 : ℕ) * signedLong step =
          i + (n + 1 + 1 : ℕ) * signedLong step := by push_cast; ring
      rwa [hshift]

end

/-- The states behind `to` and behind the statement, and whether the rounds are as they should be. -/
def checkLoop (start limit : Long) (n : ℕ) : Result ((ℕ × Long × Machine) × Machine × Bool) := do
  let r ← forEntry 3 (loopMachine start limit)
  let m₀ ← commandFor 3 (loopMachine start limit)
  .ok (r, m₀, checkRounds limit (1, 0) 0x4030 n m₀)

/-- The facts about a loop that has been checked. -/
theorem checkLoop_spec {start limit : Long} {n : ℕ} (hv : start.Valid) (hl : limit.Valid)
    (h : ∃ r, checkLoop start limit n = .ok r ∧ r.1.1 = 0x4030 ∧ r.1.2.1 = start ∧
      r.2.1.index 0x4030 = r.1.2.2.index 0x4030 ∧ r.2.2 = true)
    (hstop : ¬ Counting.Continues (signedLong limit) 1 (signedLong start + (n + 1 : ℕ) * 1)) :
    ∃ m₀ m₁, commandFor 3 (loopMachine start limit) = .ok m₀ ∧
      forEntry 3 (loopMachine start limit) = .ok (0x4030, start, m₁) ∧
      m₀.index 0x4030 = m₁.index 0x4030 ∧ (loopMachine start limit).Frames [] ∧
      m₀.Frames [.loop m₁.dCodePtr 0 0x4030] ∧ m₀.InSpace ∧
      ∀ m, ForReaches 3 emptyBody m₀ m → ForBody 3 emptyBody 0x4030 limit (1, 0) m := by
  obtain ⟨⟨⟨y, v, m₁⟩, m₀, b⟩, hrun, hy, hstart, hindex, hb⟩ := h
  obtain ⟨r, hentry, hrun⟩ := Except.bind_eq_ok.mp hrun
  obtain ⟨m₂, hfor, hrun⟩ := Except.bind_eq_ok.mp hrun
  have hrun := Except.ok.inj hrun
  simp only [Prod.mk.injEq] at hrun hy hstart hindex hb
  obtain ⟨rfl, rfl, rfl⟩ := hrun
  rw [hy, hstart] at hentry
  have hframes : (loopMachine start limit).Frames [] := by
    refine ⟨rfl, ?_⟩
    change (default : Machine).page.word basStack = 0
    rfl
  have hm : (loopMachine start limit).InSpace := by
    change basStack < 0x200
    decide
  obtain ⟨hi, -⟩ := forEntry_spec hm hv hentry
  obtain ⟨hf₀, hstack, -⟩ := commandFor_entry hframes hm hv hentry hfor
  have hm₀ : m₂.InSpace := by
    unfold Machine.InSpace
    rw [hstack]
    change basStack + 8 < 0x200
    decide
  obtain ⟨hs₁, hs₂⟩ := signedLong_range hv
  refine ⟨m₂, m₁, hfor, hentry, hindex, hframes, hf₀, hm₀, fun m h => ?_⟩
  have hone : Long.Valid (1, 0) := ⟨by decide, by decide⟩
  refine forBody_of_checkRounds hl hone hf₀ hm₀ ?_ hb hstop h
  rw [hindex, hi, wrap_of_range hs₁ hs₂]

/-- `for i = 1 to 3`. -/
theorem for_range_three : ∃ m₀ m₁, commandFor 3 (loopMachine (1, 0) (3, 0)) = .ok m₀ ∧
    forEntry 3 (loopMachine (1, 0) (3, 0)) = .ok (0x4030, (1, 0), m₁) ∧
    m₀.BehindBounds m₁.dCodePtr m₁.bank ∧
      RunsThrough 3 emptyBody 0x4030 m₁.dCodePtr 0 m₀ [] 1 3 1 := by
  have hone : Long.Valid (1, 0) := ⟨by decide, by decide⟩
  have hthree : Long.Valid (3, 0) := ⟨by decide, by decide⟩
  obtain ⟨m₀, m₁, hfor, hentry, hkeep, hf, -, -, hbody⟩ := checkLoop_spec (n := 2) hone hthree
    (Except.exists_of_check (by decide +kernel)) (by decide)
  obtain ⟨-, -, hbehind, hiff⟩ := for_range 3 emptyBody (1, 0) (3, 0) (1, 0) hone hthree hone
    (by decide) hf
    (show basStack + 8 < 0x200 by decide) hentry hfor hkeep hbody
  exact ⟨m₀, m₁, hfor, hentry, hbehind, hiff.mpr (by decide)⟩

/-- `for i = -2000000000 to 2000000000` runs its body once. -/
theorem for_range_wide : ∃ m₀ m₁, commandFor 3 (loopMachine (0x6C00, 0x88CA) (0x9400, 0x7735)) = .ok m₀ ∧
    forEntry 3 (loopMachine (0x6C00, 0x88CA) (0x9400, 0x7735)) = .ok (0x4030, (0x6C00, 0x88CA), m₁) ∧
    ¬ RunsThrough 3 emptyBody 0x4030 m₁.dCodePtr 0 m₀ [] (-2000000000) 2000000000 1 := by
  have hv : Long.Valid (0x6C00, 0x88CA) := ⟨by decide, by decide⟩
  have hl : Long.Valid (0x9400, 0x7735) := ⟨by decide, by decide⟩
  obtain ⟨m₀, m₁, hfor, hentry, hkeep, hf, hf₀, hm₀, hbody⟩ := checkLoop_spec (n := 0) hv hl
    (Except.exists_of_check (by decide +kernel)) (by decide)
  refine ⟨m₀, m₁, hfor, hentry, fun h => ?_⟩
  have hm : (loopMachine (0x6C00, 0x88CA) (0x9400, 0x7735)).InSpace := by
    change basStack < 0x200
    decide
  obtain ⟨hindex, -⟩ := forEntry_spec hm hv hentry
  have hfits := RunsThrough.fits (0x6C00, 0x88CA) (0x9400, 0x7735) (1, 0) hv hl
    ⟨by decide, by decide⟩ (by decide) hf₀ hm₀ (hkeep.trans hindex) hbody h
  exact absurd hfits (by decide)

end Basic65816
