import Basic65816.Semantics.Rounds

/-!
# The statements of structured programs

What one round of the interpreter does at each keyword of a structured program. A condition that does
not hold sends the forward scanner to the end of its structure.

## Main results

* `Machine.Executes.assign`: assignments
* `Machine.Executes.ifOpen`, `Machine.Executes.ifSkip`, `Machine.Executes.else`: conditions
* `Machine.Executes.whileOpen`, `Machine.Executes.whileSkip`, `Machine.Executes.wend`,
  `Machine.Executes.repeat`, `Machine.Executes.until`: loops
-/

namespace Basic65816

open Stmt (Scalar Integer)

section

variable {m m' m₁ : Machine} {h : Host} {σ σ' : Environment} {fs : List StackFrame}
  {p n q k r j t a d : ℕ} {cs : List (Option ℕ)} {c : Expr} {v : Long} {name : List ℕ}
  {rs : List Record}

/-! ## Assignments -/

theorem letFind_settles (hf : m.FindsOrCreates a m') (harray : m.token &&& idArrayMask = 0) :
    Settles (fun fuel => letFind fuel m) (.ok { m' with dVariablePtr := a }) := by
  unfold letFind
  cases hf with
  | found hfind => exact Settles.bind hfind (.of_forall fun _ => rfl)
  | created hfind hcreate =>
    refine Settles.bind hfind ?_
    refine Settles.congr ?_ fun k => if_neg (not_not.mpr harray)
    exact Settles.bind (hcreate 0) (.of_forall fun _ => rfl)

theorem forVariable_settles (hf : m.FindsOrCreates a m') : ∃ d,
    Settles (fun fuel => forVariable fuel m) (.ok (a, { m' with dVariablePtr := d })) := by
  unfold forVariable
  cases hf with
  | found hfind => exact ⟨m'.dVariablePtr, Settles.bind hfind (.of_forall fun _ => rfl)⟩
  | @created m₁ hfind hcreate => exact ⟨m₁.dVariablePtr, Settles.bind hfind (hcreate m₁.dVariablePtr)⟩

/-- An assignment in parts: the target, the expression and the data. -/
theorem commandLet_settles (hf : m.FindsOrCreates a m') (harray : m.token &&& idArrayMask = 0)
    (htype : m.token &&& idTypeMask = 0) (hequal : m'.token = equalTokenID)
    (heval : Settles (fun fuel => evaluateInteger fuel { m' with dVariablePtr := a }.skipToken)
      (.ok (⟨v.1, v.2, false⟩, m₁)))
    (hvalue : m₁.value (add16 m₁.dStack 16) = v) :
    Settles (fun fuel => commandLet fuel m) (.ok (m₁.store a v)) := by
  have htarget : Settles (fun fuel => letTarget fuel m)
      (.ok { m' with dVariablePtr := a }.skipToken) := by
    unfold letTarget
    refine Settles.bind (letFind_settles hf harray) (.of_forall fun fuel => ?_)
    dsimp only
    rw [if_pos harray]
    dsimp only [ok_bind]
    rw [if_neg]
    exact fun hne => hne hequal.symm
  unfold commandLet
  refine Settles.bind htarget ?_
  refine Settles.congr ?_ fun k => if_pos htype
  refine Settles.bind heval (.of_forall fun fuel => ?_)
  dsimp only
  rw [hvalue]
  rfl

namespace Machine.Executes

/-- The target of an assignment. -/
theorem target (e : m.Executes h σ fs p n) (hname : Scalar name) (hp : h.lo ≤ p)
    (hcode : h.Code p n (name.map some) q k) (hq : q + 2 ≤ h.hi) (hmem : name ∈ h.names) :
    ∃ a m' rs, m.FindsOrCreates a m' ∧ m'.Executes h (σ.define name) fs q n ∧
      m'.Variables h.hi rs (σ.define name) ∧ DataAt m'.dBaseAddress rs name a ∧
      ∀ x ∈ h.loops, DataAt m'.dBaseAddress rs x.1 x.2 := by
  obtain ⟨hwords, rfl, -⟩ := hcode.tokens
  obtain ⟨rs, hvars, hloops⟩ := e.store
  have hlo : m.dBaseAddress + blockProgramStart = h.lo := by
    rw [e.base]
    rfl
  have hspelling : m.bank.WordsAt m.dCodePtr name := by
    rw [e.code]
    exact hwords.congr (e.memory.mono hp (by omega))
  obtain ⟨a, m', rs', hfind, hvars', hdata, hsteady, hbank, hspace, hptr, hmore⟩ :=
    hvars.target hname.ident hspelling (by rw [hlo, e.code]; exact ⟨hp, hq⟩) e.space hmem
  rw [hlo] at hbank
  refine ⟨a, m', rs', hfind, ?_, hvars', hdata, fun x hx => hmore _ _ (hloops x hx)⟩
  exact {
    base := hsteady.base.trans e.base
    memory := e.memory.trans hbank
    code := by rw [hptr, e.code]
    line := hsteady.line.trans e.line
    number := e.number
    shift := hsteady.shift.trans e.shift
    frames := Machine.KeepsStack.frames ⟨hsteady.stack, fun i _ => congrFun hsteady.page i⟩ e.frames
    store := ⟨rs', hvars', fun x hx => hmore _ _ (hloops x hx)⟩
    space := hspace }

/-- A variable is written. -/
theorem write (e : m.Executes h σ fs p n) (hvars : m.Variables h.hi rs σ)
    (ha : DataAt m.dBaseAddress rs name a) (hv : v.Valid)
    (hloops : ∀ x ∈ h.loops, DataAt m.dBaseAddress rs x.1 x.2) :
    (m.store a v).Executes h (Function.update σ name (some v)) fs p n := by
  obtain ⟨hbank, hlow, hhigh⟩ := hvars.write_keeps ha
  have hlo : m.dBaseAddress + blockProgramStart = h.lo := by
    rw [e.base]
    rfl
  rw [hlo] at hbank
  refine ⟨e.base, e.memory.trans hbank, e.code, e.line, e.number, e.shift, e.frames,
    ⟨rs, hvars.write ha hv, hloops⟩, ?_⟩
  have hspace := e.space
  have hcard : (h.names.filter fun x => (Function.update σ name (some v) x).isNone).card ≤
      (h.names.filter fun x => (σ x).isNone).card := by
    refine Finset.card_le_card fun x hx => ?_
    obtain ⟨hx, hnone⟩ := Finset.mem_filter.mp hx
    refine Finset.mem_filter.mpr ⟨hx, ?_⟩
    rcases eq_or_ne x name with rfl | hne
    · rw [Function.update_self] at hnone
      cases hnone
    · rwa [Function.update_of_ne hne] at hnone
  unfold Machine.SpaceFor at hspace ⊢
  rw [hlow, hhigh]
  omega

/-- **An assignment.** -/
theorem assigns (e : m.Executes h σ fs p n) (hname : Scalar name) (hc : Integer c) (hp : h.lo ≤ p)
    (hcode : h.Code p n ((name ++ equalTokenID :: c.tokens).map some) q k) (hq : q + 2 ≤ h.hi)
    (hstop : Stops 0 (h.memory.word q)) (hmem : name ∈ h.names)
    (hσ : Stmt.assigned name c σ σ') (hs : m.NearSpace) :
    ∃ m', Settles (fun fuel => commandLet fuel m) (.ok m') ∧ m'.Executes h σ' fs q k := by
  obtain ⟨v, hv, rfl⟩ := hσ
  rw [List.map_append, List.map_cons] at hcode
  obtain ⟨q₁, k₁, hcode₁, hcode₂⟩ := hcode.split
  obtain ⟨hq₁, hk₁⟩ : p ≤ q₁ ∧ k₁ = n := ⟨hcode₁.le.1, hcode₁.tokens.2.2⟩
  subst hk₁
  cases hcode₂ with
  | token hlo₁ hhi₁ hequal _ hcode₂ =>
    obtain ⟨a, m₁, rs, hfind, e₁, hvars, hdata, hloops⟩ := e.target hname hp hcode₁ hhi₁ hmem
    have hk := hcode₂.tokens.2.2
    subst hk
    have e₂ : Machine.Executes { m₁ with dVariablePtr := a } h (σ.define name) fs q₁ k :=
      e₁.congr rfl rfl rfl e₁.frames e₁.code e₁.line e₁.number
    have hstack : ({ m₁ with dVariablePtr := a } : Machine).skipToken.dStack = m.dStack :=
      (stack_of_frames e₁.frames).trans (stack_of_frames e.frames).symm
    obtain ⟨m₂, heval, e₃, hvalue, haround, hbank⟩ := (e₂.skip hhi₁).evaluate hc hcode₂ (by omega) hq
      hstop hv (by unfold Machine.NearSpace; rw [hstack]; exact hs)
    have hbase : m₂.dBaseAddress = m₁.dBaseAddress := e₃.base.trans e₁.base.symm
    have hspelling := hcode₁.tokens.1
    obtain ⟨w, us, rfl, -⟩ := hname.ident.head
    have hhead : m.token = w := by
      rw [e.token hp (by omega)]
      exact hspelling.1
    rw [← haround.stack] at hvalue
    refine ⟨m₂.store a v, commandLet_settles hfind ?_ ?_ ?_ heval hvalue, ?_⟩
    · rw [hhead]
      exact hname.array
    · rw [hhead]
      exact hname.type
    · exact (e₁.token hlo₁ hhi₁).trans hequal
    · refine e₃.write (hvars.congr hbank hbase) (hbase.symm ▸ hdata) ?_ (hbase.symm ▸ hloops)
      exact hvalue ▸ m₂.valid_value _

/-- **An assignment**, with or without its keyword. -/
theorem assign {word : List ℕ} (e : m.Executes h σ fs p n) (hname : Scalar name) (hc : Integer c)
    (hword : word = [] ∨ word = [letTokenID]) (hp : h.lo ≤ p)
    (hcode : h.Code p n ((word ++ (name ++ equalTokenID :: c.tokens)).map some) q k)
    (hq : q + 2 ≤ h.hi) (hstop : Stops 0 (h.memory.word q)) (hmem : name ∈ h.names)
    (hσ : Stmt.assigned name c σ σ') (hs : m.NearSpace) :
    ∃ m', Steps m m' ∧ m'.Executes h σ' fs q k := by
  rcases hword with rfl | rfl
  · obtain ⟨m', hset, e'⟩ := e.begin.assigns hname hc hp hcode hq hstop hmem hσ hs
    obtain ⟨w, us, rfl, hw, -⟩ := hname.ident.head
    have hwords := hcode.tokens.1
    have hle := hcode.le.1
    have htoken : ({ m with dTempStringPointer := 0 } : Machine).token = w :=
      (e.begin.token hp (by omega)).trans hwords.1
    have hlt : w < 0x10000 := htoken ▸ m.bank.word_lt _
    refine ⟨m', hset.congr fun fuel => ?_, e'⟩
    unfold frunNextInstruction
    dsimp only
    rw [htoken, if_neg (by omega), if_neg (by unfold colonTokenID; omega), if_neg, if_neg (by omega)]
    -- the top bits of an identifier
    intro hkey
    have hand : (w &&& 0xE800) &&& 0xC000 = 0x2800 &&& 0xC000 := congrArg (· &&& 0xC000) hkey
    have htop : w &&& 0xC000 = 0xC000 := by
      rw [show (0xC000 : ℕ) = (2 ^ 2 - 1) <<< 14 from rfl, Stmt.and_shifted]
      omega
    rw [Nat.and_assoc, show (0xE800 : ℕ) &&& 0xC000 = 0xC000 from rfl, htop] at hand
    exact absurd hand (by decide)
  · rw [List.singleton_append, List.map_cons] at hcode
    cases hcode with
    | token hlo hhi hlet _ hcode =>
      refine e.keyword .commandLet hlo hhi hlet (by decide) rfl
        fun m₁ e₁ => ?_
      refine e₁.assigns hname hc (by omega) hcode hq hstop hmem hσ ?_
      unfold Machine.NearSpace
      rw [stack_of_frames e₁.frames, ← stack_of_frames e.frames]
      exact hs

/-! ## Conditions -/

/-- The state behind a condition. -/
theorem condition {b : Bool} (e : m.Executes h σ fs p n) (hc : Integer c) (hp : h.lo ≤ p)
    (hcode : h.Code p n (c.tokens.map some) q k) (hq : q + 2 ≤ h.hi)
    (hstop : Stops 0 (h.memory.word q)) (hb : Stmt.test c σ b) (hs : m.NearSpace) :
    ∃ v m', Settles (fun fuel => evaluateInteger fuel m) (.ok (v, m')) ∧
      m'.Executes h σ fs q k ∧ (v.a ||| v.y ≠ 0 ↔ b = true) ∧
      (v.y ≠ 0 ∨ v.a ≠ 0 ↔ b = true) := by
  obtain ⟨⟨x, y⟩, hv, rfl⟩ := hb
  have hk := hcode.tokens.2.2
  subst hk
  obtain ⟨m', heval, e', -, -⟩ := e.evaluate hc hcode hp hq hstop hv hs
  refine ⟨_, m', heval, e', ?_, ?_⟩
  · simp only [decide_eq_true_eq, ne_eq, Nat.or_eq_zero_iff, Prod.mk.injEq]
  · simp only [decide_eq_true_eq, ne_eq, Prod.mk.injEq]
    tauto

end Machine.Executes

/-- The stack with the marker of an `if` on it. -/
def Machine.openIf (m : Machine) : Machine :=
  Machine.setDp { m with dStack := add16 m.dStack 2 } (add16 m.dStack 2) ifTokenID

/-- An `if` without `then`. -/
theorem commandIf_block {w : Value} {s : Result Machine}
    (heval : Settles (fun fuel => evaluateInteger fuel m) (.ok (w, m₁)))
    (ht : m₁.token ≠ thenTokenID)
    (hr : Settles (fun fuel => fifExtended fuel { m₁ with dTemp1 := w.y }
      (decide (w.a ||| w.y ≠ 0))) s) : Settles (fun fuel => commandIf fuel m) s := by
  unfold commandIf
  refine Settles.bind heval (hr.congr fun fuel => ?_)
  exact if_pos ht

namespace Machine.Executes

theorem inSpace (e : m.Executes h σ fs p n) (hs : basStack + sizeOfFrames fs < 0x200) : m.InSpace := by
  unfold Machine.InSpace
  rw [stack_of_frames e.frames]
  exact hs

/-- The state with the marker of an `if`. -/
theorem openIf (e : m.Executes h σ fs p n) (hs : m.InSpace) :
    m.openIf.Executes h σ (.cond :: fs) p n :=
  e.congr rfl rfl rfl (frames_cond e.frames hs) e.code e.line e.number

/-- The state without the marker of an `if`. -/
theorem closeIf (e : m.Executes h σ (.cond :: fs) p n)
    (hs : basStack + sizeOfFrames (.cond :: fs) < 0x200) :
    { m with dStack := sub16 m.dStack 2 }.Executes h σ fs p n :=
  e.congr rfl rfl rfl (frames_tail e.frames (frames_popCond e.frames (e.inSpace hs)) rfl) e.code
    e.line e.number

/-- **`if`**, when the condition holds. -/
theorem ifOpen (e : m.Executes h σ fs p n) (hc : Integer c)
    (hcode : h.Code p n ((ifTokenID :: c.tokens).map some) q k) (hq : q + 2 ≤ h.hi)
    (hf : Stmt.Follows false (h.memory.word q)) (hb : Stmt.test c σ true)
    (hs : basStack + sizeOfFrames fs < 0x200) :
    ∃ m', Steps m m' ∧ m'.Executes h σ (.cond :: fs) q k := by
  rw [List.map_cons] at hcode
  cases hcode with
  | token hlo hhi hword _ hcode =>
    refine e.keyword .commandIf hlo hhi hword (by decide) rfl
      fun m₁ e₁ => ?_
    obtain ⟨w, m₂, heval, e₂, hiff, -⟩ := e₁.condition hc (by omega) hcode hq (hf.stops 0) hb
      (e₁.inSpace hs).near
    have hle := hcode.le.1
    have htoken : m₂.token ≠ thenTokenID := by
      rw [e₂.token (by omega) hq]
      have hword := hf.word
      unfold thenTokenID at hword ⊢
      omega
    have e₃ : Machine.Executes { m₂ with dTemp1 := w.y } h σ fs q k :=
      e₂.congr rfl rfl rfl e₂.frames e₂.code e₂.line e₂.number
    refine ⟨Machine.openIf { m₂ with dTemp1 := w.y }, commandIf_block heval htoken
      (.of_forall fun fuel => ?_), e₃.openIf (e₃.inSpace hs)⟩
    rw [fifExtended, decide_eq_true (hiff.mpr rfl)]
    rfl

/-- **`if`**, when the condition does not hold: the scanner finds the `else` or the `endif`. -/
theorem ifSkip (e : m.Executes h σ fs p n) (hc : Integer c)
    (hcode : h.Code p n ((ifTokenID :: c.tokens).map some) q k) (hq : q + 2 ≤ h.hi)
    (hf : Stmt.Follows false (h.memory.word q)) (hb : Stmt.test c σ false)
    (hs : basStack + sizeOfFrames (.cond :: fs) < 0x200) (hskip : h.Code q k cs r j)
    (hskims : skims elseTokenID endifTokenID 0 cs = some 0) (hr : r + 2 ≤ h.hi)
    (ht : h.memory.word r = t) (hfound : t = elseTokenID ∨ t = endifTokenID) :
    ∃ m', Steps m m' ∧
      m'.Executes h σ (if t = endifTokenID then fs else .cond :: fs) (r + 2) j := by
  have hs' : basStack + sizeOfFrames fs < 0x200 := by
    unfold sizeOfFrames at hs ⊢
    rw [List.map_cons, List.sum_cons] at hs
    omega
  rw [List.map_cons] at hcode
  cases hcode with
  | token hlo hhi hword _ hcode =>
    refine e.keyword .commandIf hlo hhi hword (by decide) rfl
      fun m₁ e₁ => ?_
    obtain ⟨w, m₂, heval, e₂, hiff, -⟩ := e₁.condition hc (by omega) hcode hq (hf.stops 0) hb
      (e₁.inSpace hs').near
    have hle := hcode.le.1
    have hle' := hskip.le.1
    have htoken : m₂.token ≠ thenTokenID := by
      rw [e₂.token (by omega) hq]
      have hword := hf.word
      unfold thenTokenID at hword ⊢
      omega
    have e₃ : Machine.Executes { m₂ with dTemp1 := w.y } h σ fs q k :=
      e₂.congr rfl rfl rfl e₂.frames e₂.code e₂.line e₂.number
    have hne : t ≠ 0 := by
      rcases hfound with rfl | rfl <;> decide
    obtain ⟨m₄, hscan, e₄, -⟩ := (e₃.openIf (e₃.inSpace hs')).scan hskip hskims
      ⟨by omega, hr⟩ ht hne hfound
    have e₅ := e₄.skip hr
    have hfalse : decide (w.a ||| w.y ≠ 0) = false := by
      rw [decide_eq_false_iff_not, hiff]
      decide
    have hrun : ∀ {s : Result Machine}, (if t = endifTokenID then
        .ok { m₄.skipToken with dStack := sub16 m₄.skipToken.dStack 2 } else .ok m₄.skipToken) = s →
        Settles (fun fuel => fifExtended fuel { m₂ with dTemp1 := w.y }
          (decide (w.a ||| w.y ≠ 0))) s := by
      intro s hs
      rw [hfalse]
      exact Settles.bind hscan (.of_forall fun fuel => hs)
    by_cases hendif : t = endifTokenID
    · rw [if_pos hendif] at hrun ⊢
      exact ⟨_, commandIf_block heval htoken (hrun rfl), e₅.closeIf hs⟩
    · rw [if_neg hendif] at hrun ⊢
      exact ⟨_, commandIf_block heval htoken (hrun rfl), e₅⟩

/-- **`else`** behind the first part: the scanner finds the `endif`. -/
theorem «else» (e : m.Executes h σ (.cond :: fs) p n) (hlo : h.lo ≤ p)
    (hword : h.memory.word p = elseTokenID) (hskip : h.Code (p + 2) n cs r j)
    (hskims : skims endifTokenID 0 0 cs = some 0) (hr : r + 2 ≤ h.hi)
    (ht : h.memory.word r = endifTokenID) (hs : basStack + sizeOfFrames (.cond :: fs) < 0x200) :
    ∃ m', Steps m m' ∧ m'.Executes h σ fs (r + 2) j := by
  have hle := hskip.le.1
  refine e.keyword .handlerElse hlo (by omega) hword (by decide) rfl
    fun m₁ e₁ => ?_
  obtain ⟨m₂, hscan, e₂, -⟩ := e₁.scan hskip hskims ⟨by omega, hr⟩ ht (by decide) (.inl rfl)
  refine ⟨_, Settles.congr ?_ fun fuel => if_neg (not_not.mpr (frames_marker e₁.frames)),
    (e₂.skip hr).closeIf hs⟩
  exact Settles.bind hscan (.of_forall fun fuel => rfl)

/-- **`endif`.** -/
theorem endif (e : m.Executes h σ (.cond :: fs) p n) (hlo : h.lo ≤ p) (hhi : p + 2 ≤ h.hi)
    (hword : h.memory.word p = endifTokenID) (hs : basStack + sizeOfFrames (.cond :: fs) < 0x200) :
    ∃ m', Steps m m' ∧ m'.Executes h σ fs (p + 2) n := by
  refine e.keyword .handlerEndif hlo hhi hword (by decide) rfl
    fun m₁ e₁ => ⟨_, .of_forall fun fuel => ?_, e₁.closeIf hs⟩
  exact if_neg (not_not.mpr (frames_marker e₁.frames))

/-- **`if` with `then`**, when the condition holds. -/
theorem ifThen (e : m.Executes h σ fs p n) (hc : Integer c)
    (hcode : h.Code p n ((ifTokenID :: (c.tokens ++ [thenTokenID])).map some) q k)
    (hq : q + 2 ≤ h.hi) (hgoto : h.memory.word q < 0x4000 ∨ 0xC000 ≤ h.memory.word q)
    (hb : Stmt.test c σ true) (hs : basStack + sizeOfFrames fs < 0x200) :
    ∃ m', Steps m m' ∧ m'.Executes h σ fs q k := by
  rw [List.map_cons, List.map_append] at hcode
  cases hcode with
  | token hlo hhi hword _ hcode =>
    obtain ⟨r, j, hcode₁, hcode₂⟩ := hcode.split
    have hle := hcode₁.le.1
    cases hcode₂ with
    | token hlo₁ hhi₁ hthen _ hnil =>
      cases hnil
      refine e.keyword .commandIf hlo hhi hword (by decide) rfl
        fun m₁ e₁ => ?_
      obtain ⟨w, m₂, heval, e₂, hiff, -⟩ := e₁.condition hc (by omega) hcode₁ hhi₁
        (by rw [hthen]; exact fun h => absurd h (by decide)) hb (e₁.inSpace hs).near
      have e₃ : Machine.Executes { m₂ with dTemp1 := w.y } h σ fs r k :=
        e₂.congr rfl rfl rfl e₂.frames e₂.code e₂.line e₂.number
      have e₄ := e₃.skip hhi₁
      have htoken : m₂.token = thenTokenID := (e₂.token hlo₁ hhi₁).trans hthen
      have hnext := e₄.token (by omega) hq
      refine ⟨_, ?_, e₄⟩
      change Settles (fun fuel => commandIf fuel m₁) _
      unfold commandIf
      refine Settles.bind heval (.of_forall fun fuel => ?_)
      refine (if_neg (not_not.mpr htoken)).trans ((if_neg ?_).trans (if_neg ?_))
      · rw [decide_eq_true (hiff.mpr rfl)]
        decide
      · rw [hnext]
        omega

/-- Skipping the rest of a line. -/
theorem skipLine {ts : List ℕ} (e : m.Executes h σ fs p n) (hcode : h.Code p n (ts.map some) q k)
    (hq : h.lo ≤ q ∧ q + 2 ≤ h.hi) (hzero : h.memory.word q = 0) :
    ∃ m', Settles (fun fuel => fifEndOfLine fuel m) (.ok m') ∧ m'.Executes h σ fs q k := by
  induction ts generalizing m p with
  | nil =>
    cases hcode
    refine ⟨m, Settles.succ (.of_forall fun fuel => ?_), e⟩
    rw [fifEndOfLine]
    exact if_pos ((e.token hq.1 hq.2).trans hzero)
  | cons t ts ih =>
    cases hcode with
    | token hlo hhi hword ht hcode =>
      obtain ⟨m', hset, e'⟩ := ih (e.skip hhi) hcode
      refine ⟨m', hset.unfold fun fuel => ?_, e'⟩
      rw [fifEndOfLine, e.token hlo hhi, hword, if_neg (by omega), if_neg (by omega)]

/-- **`if` with `then`**, when the condition does not hold. -/
theorem ifElseLine {ts : List ℕ} (e : m.Executes h σ fs p n) (hc : Integer c)
    (hcode : h.Code p n ((ifTokenID :: (c.tokens ++ [thenTokenID])).map some) q k)
    (hskip : h.Code q k (ts.map some) r j) (hr : r + 2 ≤ h.hi) (hzero : h.memory.word r = 0)
    (hb : Stmt.test c σ false) (hs : basStack + sizeOfFrames fs < 0x200) :
    ∃ m', Steps m m' ∧ m'.Executes h σ fs r j := by
  rw [List.map_cons, List.map_append] at hcode
  cases hcode with
  | token hlo hhi hword _ hcode =>
    obtain ⟨r₁, j₁, hcode₁, hcode₂⟩ := hcode.split
    have hle := hcode₁.le.1
    have hle' := hskip.le.1
    cases hcode₂ with
    | token hlo₁ hhi₁ hthen _ hnil =>
      cases hnil
      refine e.keyword .commandIf hlo hhi hword (by decide) rfl
        fun m₁ e₁ => ?_
      obtain ⟨w, m₂, heval, e₂, hiff, -⟩ := e₁.condition hc (by omega) hcode₁ hhi₁
        (by rw [hthen]; exact fun h => absurd h (by decide)) hb (e₁.inSpace hs).near
      have e₃ : Machine.Executes { m₂ with dTemp1 := w.y } h σ fs r₁ k :=
        e₂.congr rfl rfl rfl e₂.frames e₂.code e₂.line e₂.number
      have htoken : m₂.token = thenTokenID := (e₂.token hlo₁ hhi₁).trans hthen
      obtain ⟨m', hset, e'⟩ := (e₃.skip hhi₁).skipLine hskip ⟨by omega, hr⟩ hzero
      refine ⟨m', ?_, e'⟩
      change Settles (fun fuel => commandIf fuel m₁) _
      unfold commandIf
      refine Settles.bind heval (hset.congr fun fuel => ?_)
      refine (if_neg (not_not.mpr htoken)).trans (if_pos ?_)
      rw [show decide (w.a ||| w.y ≠ 0) = false from by
        rw [decide_eq_false_iff_not, hiff]
        decide]
      rfl

/-! ## Loops -/

/-- The state with a frame that goes back to the address `a`. -/
theorem push (e : m.Executes h σ fs p n) (kind : BlockKind) (ha : a < 0x10000) (hs : m.InSpace) :
    (m.pushFrame a kind.token).Executes h σ (.block kind a n :: fs) p n := by
  have hframes := frames_pushFrame e.frames hs a kind
  rw [Nat.mod_eq_of_lt ha, e.line, Nat.mod_eq_of_lt e.number.2] at hframes
  refine e.congr ?_ ?_ ?_ hframes ?_ ?_ e.number
  · simp only [Machine.pushFrame, Machine.setDp]
  · simp only [Machine.pushFrame, Machine.setDp]
  · simp only [Machine.pushFrame, Machine.setDp]
  · simpa only [Machine.pushFrame, Machine.setDp] using e.code
  · simpa only [Machine.pushFrame, Machine.setDp] using e.line

/-- The state behind a frame, at the place that the frame goes back to. -/
theorem pop {kind : BlockKind} (e : m.Executes h σ (.block kind a d :: fs) p n)
    (hd : d ≠ 0 ∧ d < 0x10000) (hs : m.InSpace) : m.popFrame.Executes h σ fs a d := by
  obtain ⟨hframes, hcode, hline⟩ := frames_popFrame e.frames hs
  exact e.congr rfl rfl rfl hframes hcode hline hd

/-- **`while`**, when the condition holds. -/
theorem whileOpen (e : m.Executes h σ fs p n) (hc : Integer c)
    (hcode : h.Code p n ((whileTokenID :: c.tokens).map some) q k) (hq : q + 2 ≤ h.hi)
    (hf : Stmt.Follows false (h.memory.word q)) (hb : Stmt.test c σ true)
    (hs : basStack + sizeOfFrames fs < 0x200) :
    ∃ m', Steps m m' ∧ m'.Executes h σ (.block .while p n :: fs) q k := by
  have hlt := e.hi_lt
  rw [List.map_cons] at hcode
  cases hcode with
  | token hlo hhi hword _ hcode =>
    have hk := hcode.tokens.2.2
    subst hk
    refine e.keyword .commandWhile hlo hhi hword (by decide) rfl
      fun m₁ e₁ => ?_
    obtain ⟨w, m₂, heval, e₂, -, hiff⟩ := e₁.condition hc (by omega) hcode hq (hf.stops 0) hb
      (e₁.inSpace hs).near
    have hback : sub16 m₁.dCodePtr 2 = p := by
      rw [e₁.code, sub16_eq (by omega) (by omega)]
      omega
    refine ⟨_, ?_, e₂.push .while (a := p) (by omega) (e₂.inSpace hs)⟩
    change Settles (fun fuel => commandWhile fuel m₁) _
    unfold commandWhile
    refine Settles.bind heval (.of_forall fun fuel => (if_pos (hiff.mpr rfl)).trans ?_)
    rw [hback]
    rfl

/-- **`while`**, when the condition does not hold: the scanner finds the `wend`. -/
theorem whileSkip (e : m.Executes h σ fs p n) (hc : Integer c)
    (hcode : h.Code p n ((whileTokenID :: c.tokens).map some) q k) (hq : q + 2 ≤ h.hi)
    (hf : Stmt.Follows false (h.memory.word q)) (hb : Stmt.test c σ false)
    (hs : basStack + sizeOfFrames fs < 0x200) (hskip : h.Code q k cs r j)
    (hskims : skims wendTokenID 0 0 cs = some 0) (hr : r + 2 ≤ h.hi)
    (ht : h.memory.word r = wendTokenID) :
    ∃ m', Steps m m' ∧ m'.Executes h σ fs (r + 2) j := by
  rw [List.map_cons] at hcode
  cases hcode with
  | token hlo hhi hword _ hcode =>
    refine e.keyword .commandWhile hlo hhi hword (by decide) rfl
      fun m₁ e₁ => ?_
    obtain ⟨w, m₂, heval, e₂, -, hiff⟩ := e₁.condition hc (by omega) hcode hq (hf.stops 0) hb
      (e₁.inSpace hs).near
    have hle := hcode.le.1
    have hle' := hskip.le.1
    obtain ⟨m₃, hscan, e₃, -⟩ := e₂.scan hskip hskims ⟨by omega, hr⟩ ht (by decide) (.inl rfl)
    refine ⟨_, ?_, e₃.skip hr⟩
    change Settles (fun fuel => commandWhile fuel m₁) _
    unfold commandWhile
    refine Settles.bind heval (Settles.congr ?_ fun fuel => if_neg ?_)
    · exact Settles.bind hscan (.of_forall fun fuel => rfl)
    · rw [hiff]
      decide

/-- **`wend`** goes back to its `while`. -/
theorem wend (e : m.Executes h σ (.block .while a d :: fs) p n) (hlo : h.lo ≤ p)
    (hhi : p + 2 ≤ h.hi) (hword : h.memory.word p = wendTokenID) (hd : d ≠ 0 ∧ d < 0x10000)
    (hs : basStack + sizeOfFrames (.block .while a d :: fs) < 0x200) :
    ∃ m', Steps m m' ∧ m'.Executes h σ fs a d := by
  refine e.keyword .commandWend hlo hhi hword (by decide) rfl
    fun m₁ e₁ => ⟨_, .of_forall fun fuel => ?_, e₁.pop hd (e₁.inSpace hs)⟩
  exact if_neg (not_not.mpr (frames_marker e₁.frames))

/-- **`repeat`.** -/
theorem «repeat» (e : m.Executes h σ fs p n) (hlo : h.lo ≤ p) (hhi : p + 2 ≤ h.hi)
    (hword : h.memory.word p = repeatTokenID) (hs : basStack + sizeOfFrames fs < 0x200) :
    ∃ m', Steps m m' ∧ m'.Executes h σ (.block .repeat (p + 2) n :: fs) (p + 2) n := by
  have hlt := e.hi_lt
  refine e.keyword .commandRepeat hlo hhi hword (by decide) rfl
    fun m₁ e₁ => ⟨_, .of_forall fun fuel => ?_,
      e₁.push .repeat (a := p + 2) (by omega) (e₁.inSpace hs)⟩
  rw [← e₁.code]
  rfl

/-- **`until`** goes on, or back behind its `repeat`. -/
theorem «until» {b : Bool} (e : m.Executes h σ (.block .repeat a d :: fs) p n) (hc : Integer c)
    (hcode : h.Code p n ((untilTokenID :: c.tokens).map some) q k) (hq : q + 2 ≤ h.hi)
    (hstop : Stops 0 (h.memory.word q)) (hb : Stmt.test c σ b) (hd : d ≠ 0 ∧ d < 0x10000)
    (hs : basStack + sizeOfFrames (.block .repeat a d :: fs) < 0x200) :
    ∃ m', Steps m m' ∧ if b then m'.Executes h σ fs q k
      else m'.Executes h σ (.block .repeat a d :: fs) a d := by
  rw [List.map_cons] at hcode
  cases hcode with
  | token hlo hhi hword _ hcode =>
    have hrun : ∀ {m₁ : Machine}, m₁.Executes h σ (.block .repeat a d :: fs) (p + 2) n →
        ∃ (w : Value) (m₂ : Machine), m₂.Executes h σ (.block .repeat a d :: fs) q k ∧
          (w.y ≠ 0 ∨ w.a ≠ 0 ↔ b = true) ∧
          Settles (fun fuel => commandUntil fuel m₁) (if w.y ≠ 0 ∨ w.a ≠ 0 then
            .ok { m₂ with dStack := sub16 m₂.dStack 6 } else .ok { m₂ with
              dCodePtr := m₂.dp (sub16 m₂.dStack 6 + 2)
              dLineNumber := m₂.dp (sub16 m₂.dStack 6 + 4) }) := by
      intro m₁ e₁
      obtain ⟨w, m₂, heval, e₂, -, hiff⟩ := e₁.condition hc (by omega) hcode hq hstop hb
        (e₁.inSpace hs).near
      refine ⟨w, m₂, e₂, hiff, Settles.congr ?_ fun fuel =>
        if_neg (not_not.mpr (frames_marker e₁.frames))⟩
      exact Settles.bind heval (.of_forall fun fuel => rfl)
    cases b with
    | true =>
      refine e.keyword .commandUntil hlo hhi hword (by decide) rfl
        fun m₁ e₁ => ?_
      obtain ⟨w, m₂, e₂, hiff, hset⟩ := hrun e₁
      rw [if_pos (hiff.mpr rfl)] at hset
      have hsub := frames_sub e₂.frames (e₂.inSpace hs)
      change sub16 m₂.dStack 6 = m₂.dStack - 6 at hsub
      have hpop : Machine.Frames { m₂ with dStack := sub16 m₂.dStack 6 } fs :=
        frames_tail e₂.frames hsub (by simp only)
      exact ⟨_, hset, e₂.congr rfl rfl rfl hpop e₂.code e₂.line e₂.number⟩
    | false =>
      refine e.keyword .commandUntil hlo hhi hword (by decide) rfl
        fun m₁ e₁ => ?_
      obtain ⟨w, m₂, e₂, hiff, hset⟩ := hrun e₁
      rw [if_neg (by rw [hiff]; decide)] at hset
      obtain ⟨-, hcode', hline'⟩ := frames_popFrame e₂.frames (e₂.inSpace hs)
      exact ⟨_, hset, e₂.congr rfl rfl rfl e₂.frames hcode' hline' hd⟩

end Machine.Executes

end

end Basic65816
