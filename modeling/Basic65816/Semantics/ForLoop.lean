import Basic65816.Semantics.Statements

/-!
# The rounds of `for` and `next` in a program

The frame of a loop has the address of its variable. While the loop is running no record moves, so that
`next` finds the data where `for` has left them.

## Main results

* `Machine.Executes.forOpen`: `for`
* `Machine.Executes.next`: `next`, which goes on or goes back
-/

namespace Basic65816

open Stmt (Scalar Integer)

namespace Host

/-- A loop over the variable `name`, whose data are at `a`. -/
def enter (h : Host) (name : List ℕ) (a : ℕ) : Host := { h with loops := (name, a) :: h.loops }

end Host

section

variable {m m' m₁ : Machine} {h : Host} {σ σ' : Environment} {fs : List StackFrame}
  {p n q k r j t a d : ℕ} {cs : List (Option ℕ)} {c limit start : Expr} {step : Option Expr}
  {v : Long} {name var : List ℕ} {rs : List Record}

theorem CodeAt.otherLine {mem : Memory} {lo hi i : ℕ} {ts : List ℕ}
    (h : CodeAt mem lo hi p n (ts.map some) q k) : CodeAt mem lo hi p i (ts.map some) q i := by
  induction ts generalizing p with
  | nil =>
    cases h
    exact .nil
  | cons t ts ih =>
    cases h with
    | token hlo hhi hword ht h => exact .token hlo hhi hword ht (ih h)

/-- `for` in parts. -/
theorem commandFor_eq {fuel : ℕ} (ht : m.token &&& (idTypeMask + idArrayMask) = 0) :
    commandFor fuel m = forVariable fuel m >>= fun r => expectToken r.2 equalTokenID >>= fun m =>
      evaluateInteger fuel m >>= fun s => expectToken (s.2.store r.1 (s.1.a, s.1.y)) toTokenID >>=
        fun m => evaluateInteger fuel
          (m.pushWords m.dCodePtr m.dLineNumber r.1 forTokenID) >>= fun s =>
            forStep fuel s.2 >>= fun s => .ok s.2 := by
  unfold commandFor
  rw [if_neg (not_not.mpr ht)]
  rfl

/-- The state in which `next` evaluates the limit: without the frame, at the address in it. -/
def Machine.atLimit (m : Machine) : Machine :=
  let m := { m with dStack := sub16 m.dStack 8 }
  { m with dCodePtr := m.dp (m.dStack + 2) }

/-- `next` in parts. -/
theorem commandNext_settles {m₂ m₃ : Machine} {l : Long} {o : Option Value}
    (ht : m.dp m.dStack = forTokenID) (hvar : Settles (fun fuel => nextVariable fuel m) (.ok m₁))
    (hlimit : Settles (fun fuel => evaluateInteger fuel m₁.atLimit) 
      (.ok (⟨l.1, l.2, false⟩, m₂)))
    (hstep : Settles (fun fuel => forStep fuel { m₂ with dTemp1 := 1, dTemp1H := 0 }) (.ok (o, m₃))) :
    Settles (fun fuel => commandNext fuel m) (.ok (nextContinue { m₃ with
      dTemp1 := (stepValue o).1, dTemp1H := (stepValue o).2, dTemp2 := l.1, dTemp2H := l.2 }
      m₁.dCodePtr)) := by
  have hbounds : Settles (fun fuel => nextBounds fuel m)
      (.ok ((l, stepValue o), m₁.dCodePtr, m₃)) := by
    unfold nextBounds
    refine Settles.bind hvar ?_
    refine Settles.bind hlimit ?_
    exact Settles.bind hstep (.of_forall fun fuel => rfl)
  refine hbounds.mono fun fuel h => ?_
  exact commandNext_eq ht m₁.dCodePtr h

namespace Machine.Executes

/-- Leaving a loop. -/
theorem leave (e : m.Executes (h.enter name a) σ fs p n) : m.Executes h σ fs p n :=
  { e with store := e.store.imp fun _ hs => ⟨hs.1, fun x hx => hs.2 x (List.mem_cons_of_mem _ hx)⟩ }

/-- The optional step. -/
theorem forStep {v : Long} (e : m.Executes h σ fs p n) (hstep : ∀ e ∈ step, Integer e)
    (hp : h.lo ≤ p) (hcode : h.Code p n ((Stmt.stepTokens step).map some) q k) (hq : q + 2 ≤ h.hi)
    (hf : Stmt.Follows false (h.memory.word q)) (hv : Stmt.stepOf step σ = some v)
    (hs : m.NearSpace) :
    ∃ r m', Settles (fun fuel => Basic65816.forStep fuel m) (.ok (r, m')) ∧ m'.Executes h σ fs q k ∧
      stepValue r = v ∧ v.Valid ∧ m.Around (m.dStack + 16) m' ∧ m'.bank = m.bank := by
  cases step with
  | none =>
    cases hcode
    obtain rfl := Option.some.inj hv
    refine ⟨none, m, .of_forall fun fuel => ?_, e, rfl, ⟨by decide, by decide⟩, .refl, rfl⟩
    refine if_neg ?_
    rw [e.token hp hq]
    have hword := hf.word
    unfold stepTokenID at hword ⊢
    omega
  | some c =>
    change h.Code p n ((stepTokenID :: c.tokens).map some) q k at hcode
    rw [List.map_cons] at hcode
    cases hcode with
    | token hlo hhi hword _ hcode =>
      have hk := hcode.tokens.2.2
      subst hk
      obtain ⟨m', heval, e', hvalue, haround, hbank⟩ := (e.skip hhi).evaluate (hstep c rfl) hcode
        (by omega) hq (hf.stops 0) hv hs
      change Machine.Around (m.dStack + 16) m.skipToken m' at haround
      refine ⟨some ⟨v.1, v.2, false⟩, m', ?_, e', rfl, hvalue ▸ m'.valid_value _,
        skipToken_preserved.toAround.trans haround, hbank⟩
      refine Settles.congr ?_ fun fuel => if_pos ((e.token hlo hhi).trans hword)
      exact Settles.bind heval (.of_forall fun fuel => rfl)

/-- The token behind a condition that it is compared with. -/
theorem expect (e : m.Executes h σ fs p n) (hlo : h.lo ≤ p) (hhi : p + 2 ≤ h.hi)
    (hword : h.memory.word p = t) : expectToken m t = .ok m.skipToken :=
  if_pos ((e.token hlo hhi).trans hword).symm

/-- Entering a loop. -/
theorem enter (e : m.Executes h σ fs p n) (hvars : m.Variables h.hi rs σ)
    (ha : DataAt m.dBaseAddress rs name a) (hloops : ∀ x ∈ h.loops, DataAt m.dBaseAddress rs x.1 x.2) :
    m.Executes (h.enter name a) σ fs p n := by
  refine { e with store := ⟨rs, hvars, fun x hx => ?_⟩ }
  rcases List.mem_cons.mp hx with rfl | hx
  · exact ha
  · exact hloops x hx

/-- The state with the frame of a loop. -/
theorem pushLoop (e : m.Executes h σ fs p n) (hp : p < 0x10000) (ha : a < 0x10000) (hs : m.InSpace) :
    (m.pushWords m.dCodePtr m.dLineNumber a forTokenID).Executes h σ (.loop p n a :: fs) p n := by
  have hframes : (m.pushWords m.dCodePtr m.dLineNumber a forTokenID).Frames _ :=
    frames_pushLoop e.frames hs
  rw [e.code, e.line, Nat.mod_eq_of_lt hp, Nat.mod_eq_of_lt e.number.2, Nat.mod_eq_of_lt ha] at hframes
  rw [e.code, e.line]
  refine e.congr bank_pushWords ?_ ?_ hframes ?_ ?_ e.number
  · simp only [Machine.pushWords, Machine.setDp]
  · simp only [Machine.pushWords, Machine.setDp]
  · simpa only [Machine.pushWords, Machine.setDp] using e.code
  · simpa only [Machine.pushWords, Machine.setDp] using e.line

/-- **`for`.** -/
theorem forOpen (e : m.Executes h σ fs p n) (hname : Scalar name) (hstart : Integer start)
    (hlimit : Integer limit) (hstep : ∀ e ∈ step, Integer e)
    (hcode : h.Code p n ((forTokenID :: (name ++ equalTokenID :: (start.tokens ++ toTokenID ::
      (limit.tokens ++ Stmt.stepTokens step)))).map some) q k) (hq : q + 2 ≤ h.hi)
    (hf : Stmt.Follows false (h.memory.word q)) (hmem : name ∈ h.names)
    (hσ : Stmt.assigned name start σ σ') (hl : (limit.value σ').isSome)
    (hd : (Stmt.stepOf step σ').isSome) (hs : basStack + sizeOfFrames fs + 8 < 0x200) :
    ∃ m', Steps m m' ∧ ∃ a r, m'.Executes (h.enter name a) σ' (.loop r n a :: fs) q k ∧ h.lo ≤ r ∧
      h.Code r n ((limit.tokens ++ Stmt.stepTokens step).map some) q k := by
  have hlt := e.hi_lt
  obtain ⟨v, hv, rfl⟩ := hσ
  obtain ⟨l, hl⟩ := Option.isSome_iff_exists.mp hl
  obtain ⟨d, hd⟩ := Option.isSome_iff_exists.mp hd
  simp only [List.map_cons, List.map_append] at hcode
  cases hcode with
  | token hlo hhi hword _ hcode₀ =>
  obtain ⟨p₁, n₁, hcode₁, hrest₁⟩ := hcode₀.split
  have hle₁ := hcode₁.le.1
  have hn₁ := hcode₁.tokens.2.2
  subst hn₁
  cases hrest₁ with
  | token hlo₁ hhi₁ hequal _ hrest₁ =>
  obtain ⟨p₂, n₂, hcode₂, hrest₂⟩ := hrest₁.split
  have hle₂ := hcode₂.le.1
  have hn₂ := hcode₂.tokens.2.2
  subst hn₂
  cases hrest₂ with
  | token hlo₂ hhi₂ hto _ hcode₃ =>
  obtain ⟨p₄, n₄, hcode₄, hcode₅⟩ := hcode₃.split
  have hle₄ := hcode₄.le.1
  have hn₄ := hcode₄.tokens.2.2
  subst hn₄
  have hp₄ : p₄ + 2 ≤ h.hi ∧ Stops 0 (h.memory.word p₄) := by
    cases step with
    | none =>
      cases hcode₅
      exact ⟨hq, hf.stops 0⟩
    | some c =>
      have hbounds := hcode₅.bounds (List.cons_ne_nil _ _)
      have hword₅ := CodeAt.word (c := some stepTokenID) hcode₅
      rw [hword₅]
      exact ⟨hbounds.2, fun h => absurd h (by decide)⟩
  refine e.keyword .commandFor hlo hhi hword (by decide) rfl
    fun m₁ e₁ => ?_
  obtain ⟨a, m₂, rs, hfind, e₂, hvars, hdata, hloops⟩ := e₁.target hname (by omega) hcode₁ hhi₁ hmem
  obtain ⟨x, hvariable⟩ := forVariable_settles hfind
  have hspace := e₁.inSpace (by omega)
  have e₃ : Machine.Executes { m₂ with dVariablePtr := x } h (σ.define name) fs p₁ n₄ :=
    e₂.congr rfl rfl rfl e₂.frames e₂.code e₂.line e₂.number
  have hdata₃ : a < 0x10000 := by
    have hlow := m₂.block_lt blockLowMemoryPtr
    have hprogram := hvars.store.program
    have hlow' := hvars.store.low
    unfold blockProgramStart at hprogram
    rcases hdata.place hvars.store with ⟨-, ha⟩ | ⟨-, ha⟩ <;> omega
  obtain ⟨m₄, heval₄, e₄, hvalue, -, hbank₄⟩ := (e₃.skip hhi₁).evaluate hstart hcode₂ (by omega) hhi₂
    (by rw [hto]; exact fun h => absurd h (by decide)) hv ((e₃.skip hhi₁).inSpace (by omega)).near
  have hvalid : v.Valid := hvalue ▸ m₄.valid_value _
  have hbase₄ : m₄.dBaseAddress = m₂.dBaseAddress := e₄.base.trans e₂.base.symm
  have hvars₄ : m₄.Variables h.hi rs (σ.define name) := hvars.congr hbank₄ hbase₄
  have e₅ := e₄.write hvars₄ (hbase₄.symm ▸ hdata) hvalid (hbase₄.symm ▸ hloops)
  have hvars₅ := hvars₄.write (hbase₄.symm ▸ hdata) hvalid
  have e₆ := e₅.skip hhi₂
  have e₇ := e₆.pushLoop (a := a) (by omega) hdata₃ (e₆.inSpace (by omega))
  obtain ⟨m₈, heval₈, e₈, -, haround₈, hbank₈⟩ := e₇.evaluate hlimit hcode₄ (by omega) hp₄.1 hp₄.2 hl
    (by
      unfold Machine.NearSpace
      rw [stack_of_frames e₇.frames]
      unfold sizeOfFrames at hs ⊢
      rw [List.map_cons, List.sum_cons]
      change _ + (8 + _) < _
      omega)
  have hnear₈ : m₈.NearSpace := by
    unfold Machine.NearSpace
    rw [stack_of_frames e₈.frames]
    unfold sizeOfFrames at hs ⊢
    rw [List.map_cons, List.sum_cons]
    change _ + (8 + _) < _
    omega
  obtain ⟨w, m₉, hstep₉, e₉, -, -, -, hbank₉⟩ := e₈.forStep hstep (by omega) hcode₅ hq hf hd hnear₈
  have hbase₉ : m₉.dBaseAddress = m₄.dBaseAddress := e₉.base.trans e₄.base.symm
  have hbank : m₉.bank = (m₄.store a v).bank := by
    rw [hbank₉, hbank₈, bank_pushWords]
    rfl
  have hvars₉ : m₉.Variables h.hi rs _ := hvars₅.congr hbank hbase₉
  have hbase : m₉.dBaseAddress = m₂.dBaseAddress := hbase₉.trans hbase₄
  refine ⟨m₉, ?_, a, p₂ + 2, e₉.enter hvars₉ (hbase.symm ▸ hdata) (hbase.symm ▸ hloops), by omega, ?_⟩
  · obtain ⟨u, us, rfl, -⟩ := hname.ident.head
    have hhead : m₁.token = u := by
      rw [e₁.token (by omega) (by omega)]
      exact hcode₁.tokens.1.1
    have htype : m₁.token &&& (idTypeMask + idArrayMask) = 0 := by
      rw [hhead, show idTypeMask + idArrayMask = idTypeMask ||| idArrayMask from rfl,
        Nat.and_or_distrib_left]
      have h₁ : u &&& idTypeMask = 0 := hname.type
      have h₂ : u &&& idArrayMask = 0 := hname.array
      rw [h₁, h₂]
      rfl
    refine Settles.congr ?_ fun fuel => commandFor_eq htype
    refine Settles.bind hvariable ?_
    refine Settles.bind (.of_forall fun fuel => e₃.expect hlo₁ hhi₁ hequal) ?_
    refine Settles.bind heval₄ ?_
    refine Settles.bind (.of_forall fun fuel => e₅.expect hlo₂ hhi₂ hto) ?_
    refine Settles.bind heval₈ ?_
    exact Settles.bind hstep₉ (.of_forall fun fuel => rfl)
  · rw [List.map_append]
    exact hcode₄.append hcode₅

/-- The optional variable of `next` is that of the loop. -/
theorem nextName (e : m.Executes h σ (.loop r d a :: fs) p n) (hname : Scalar name)
    (hloop : (name, a) ∈ h.loops) (hvar : var = [] ∨ var = name) (hp : h.lo ≤ p)
    (hcode : h.Code p n (var.map some) q k) (hq : q + 2 ≤ h.hi)
    (hf : Stmt.Follows false (h.memory.word q))
    (hs : basStack + sizeOfFrames (.loop r d a :: fs) < 0x200) :
    ∃ m', Settles (fun fuel => nextVariable fuel m) (.ok m') ∧
      m'.Executes h σ (.loop r d a :: fs) q k ∧ m'.bank = m.bank := by
  have hword := hf.word
  have hlt := e.hi_lt
  rcases hvar with rfl | rfl
  · cases hcode
    refine ⟨m, .of_forall fun fuel => if_pos ?_, e, rfl⟩
    rw [e.token hp hq]
    omega
  · obtain ⟨hwords, rfl, rfl⟩ := hcode.tokens
    obtain ⟨rs, hvars, hloops⟩ := e.store
    have hahead : m.Ahead (var ++ [m.bank.word (m.dCodePtr + 2 * var.length)]) := by
      refine ⟨Memory.wordsAt_append.mpr ⟨?_, rfl, trivial⟩, ?_⟩
      · rw [e.code]
        exact hwords.congr (e.memory.mono hp (by omega))
      · rw [List.length_append, List.length_singleton, e.code]
        omega
    obtain ⟨x, t₁, t₂, hset⟩ := hvars.store.finds (hloops _ hloop) rfl rfl hahead
    obtain ⟨u, us, rfl, hu, -⟩ := hname.ident.head
    have htoken : m.token = u := hahead.token
    have htop : a = m.dp (sub16 m.dStack 2) := by
      have hspace : m.dStack < 0x200 := e.inSpace hs
      have hle := e.frames.le
      rw [sub16_eq (by omega) (by unfold basStack at hle; omega)]
      exact e.frames.2.1.2.1.symm
    refine ⟨{ m with
      dCodePtr := m.dCodePtr + 2 * (u :: us).length, dHashTablePtr := x, dTemp1 := t₁, dTemp2 := t₂ },
      ?_, e.congr rfl rfl rfl e.frames (by rw [← e.code]) e.line e.number, rfl⟩
    unfold nextVariable
    refine Settles.congr ?_ fun fuel => if_neg (by omega)
    refine Settles.bind hset (.of_forall fun fuel => ?_)
    exact if_pos htop

/-- **`next`** adds the step to the index. The loop goes back to the end of the `for` statement, or the
frame is gone and the program goes on. -/
theorem next {b : Bool} (e : m.Executes h σ (.loop r d a :: fs) p n) (hname : Scalar name)
    (hloop : (name, a) ∈ h.loops) (hvar : var = [] ∨ var = name) (hlimit : Integer limit)
    (hstep : ∀ e ∈ step, Integer e) (hcode : h.Code p n ((nextTokenID :: var).map some) q k)
    (hq : q + 2 ≤ h.hi) (hf : Stmt.Follows false (h.memory.word q)) (hr : h.lo ≤ r)
    (hback : h.Code r d ((limit.tokens ++ Stmt.stepTokens step).map some) t j) (ht : t + 2 ≤ h.hi)
    (hf' : Stmt.Follows false (h.memory.word t)) (hd : d ≠ 0 ∧ d < 0x10000)
    (hn : Stmt.next name limit step σ (b, σ'))
    (hs : basStack + sizeOfFrames (.loop r d a :: fs) < 0x200) :
    ∃ m', Steps m m' ∧ if b then m'.Executes h σ' (.loop r d a :: fs) t j
      else m'.Executes h σ' fs q k := by
  obtain ⟨i, l, v, hi, hl, hv, hb⟩ := hn
  obtain ⟨rfl, rfl⟩ := Prod.mk.inj hb
  rw [List.map_cons] at hcode
  cases hcode with
  | token hlo hhi hword _ hcode =>
  have hk := CodeAt.tokens hback
  obtain ⟨-, -, rfl⟩ := hk
  rw [List.map_append] at hback
  obtain ⟨r₁, j₁, hback₁, hback₂⟩ := hback.split
  have hle := hcode.le.1
  have hle₁ := hback₁.le.1
  have hr₁ : r₁ + 2 ≤ h.hi ∧ Stops 0 (h.memory.word r₁) := by
    cases step with
    | none =>
      cases hback₂
      exact ⟨ht, hf'.stops 0⟩
    | some c =>
      have hbounds := hback₂.bounds (List.cons_ne_nil _ _)
      have hword₂ := CodeAt.word (c := some stepTokenID) hback₂
      rw [hword₂]
      exact ⟨hbounds.2, fun h => absurd h (by decide)⟩
  refine e.keyword .commandNext hlo hhi hword (by decide) rfl
    fun m₁ e₁ => ?_
  obtain ⟨m₂, hvariable, e₂, hbank₂⟩ := e₁.nextName hname hloop hvar (by omega) hcode hq hf hs
  have hspace : m₂.dStack < 0x200 := e₂.inSpace hs
  have hbottom : basStack + 8 ≤ m₂.dStack := e₂.frames.1
  unfold basStack at hbottom
  have hsub : sub16 m₂.dStack 8 = m₂.dStack - 8 := sub16_eq (by omega) (by omega)
  obtain ⟨-, hindex, hline, hptr⟩ := e₂.frames.2.1
  -- the limit is evaluated on the line of `next`
  have e₃ : m₂.atLimit.Executes h σ fs r k := by
    refine e₂.congr rfl rfl rfl (frames_tail e₂.frames hsub (by simp only [Machine.atLimit])) ?_
      e₂.line e₂.number
    unfold Machine.atLimit
    dsimp only
    rw [hsub, show m₂.dStack - 8 + 2 = m₂.dStack - 6 by omega]
    exact hptr
  have hnear : m₂.atLimit.NearSpace := by
    unfold Machine.NearSpace Machine.atLimit
    dsimp only
    omega
  obtain ⟨m₄, heval, e₄, -, haround₄, hbank₄⟩ :=
    e₃.evaluate hlimit hback₁.otherLine hr hr₁.1 hr₁.2 hl hnear
  have e₅ : { m₄ with dTemp1 := 1, dTemp1H := 0 }.Executes h σ fs r₁ k :=
    e₄.congr rfl rfl rfl e₄.frames e₄.code e₄.line e₄.number
  have hnear₅ : { m₄ with dTemp1 := 1, dTemp1H := 0 }.NearSpace := by
    unfold Machine.NearSpace
    rw [stack_of_frames e₅.frames, ← stack_of_frames e₃.frames]
    exact hnear
  obtain ⟨o, m₆, hset, e₆, hstepValue, hvalid, haround₆, hbank₆⟩ :=
    e₅.forStep hstep (by omega) hback₂.otherLine ht hf' hv hnear₅
  have hstack₄ : m₄.dStack = m₂.dStack - 8 := haround₄.stack.trans hsub
  have hstack₆ : m₆.dStack = m₂.dStack - 8 := haround₆.stack.trans hstack₄
  have hpage : ∀ x < m₂.dStack + 2, m₆.page x = m₂.page x := by
    intro x hx
    refine (haround₆.page x ?_).trans (haround₄.page x ?_)
    · change x < m₄.dStack + 16
      omega
    · change x < sub16 m₂.dStack 8 + 16
      omega
  have hword : ∀ x, x + 1 < m₂.dStack + 2 → m₆.dp x = m₂.dp x := fun x hx =>
    Memory.word_congr (hpage _ (by omega)) (hpage _ (by omega))
  have hy : m₆.dp (m₆.dStack + 6) = a := by
    rw [hstack₆, show m₂.dStack - 8 + 6 = m₂.dStack - 2 by omega, hword _ (by omega)]
    exact hindex
  have hline₆ : m₆.dp (m₆.dStack + 4) = j := by
    rw [hstack₆, show m₂.dStack - 8 + 4 = m₂.dStack - 4 by omega, hword _ (by omega)]
    exact hline
  -- the data in the frame are those of the variable
  obtain ⟨rs, hvars, hloops⟩ := e₆.store
  obtain ⟨a', ha', hvalue⟩ := (hvars.value name i).mp hi
  obtain rfl := (hloops _ hloop).unique hvars.store ha'
  have hsum := valid_addLong i v
  have e₇ := e₆.write hvars ha' hsum hloops
  have hrun := commandNext_settles (frames_marker e₁.frames) hvariable heval hset
  have hend := nextContinue_eq (m := { m₆ with
      dTemp1 := (stepValue o).1, dTemp1H := (stepValue o).2, dTemp2 := l.1, dTemp2H := l.2 })
    (v := addLong i v) hy m₂.dCodePtr (by rw [← hvalue, ← hstepValue]; rfl) rfl
  rw [hend] at hrun
  have hgo := continues_iff (valid_subLong l (addLong i v)) hvalid
  have htop : (stepValue o).2 = v.2 := congrArg Prod.snd hstepValue
  dsimp only at hrun
  rw [htop] at hrun
  by_cases hb : Stmt.goesOn l v (addLong i v) = true
  · rw [if_pos (hgo.mpr (of_decide_eq_true hb))] at hrun
    refine ⟨_, hrun, ?_⟩
    rw [if_pos hb]
    have hframes : m₂.KeepsStack { m₆ with dStack := add16 m₆.dStack 8 } := by
      refine ⟨?_, hpage⟩
      change add16 m₆.dStack 8 = m₂.dStack
      rw [hstack₆, add16_eq (by omega)]
      omega
    exact e₇.congr rfl rfl rfl (hframes.frames e₂.frames) e₆.code hline₆ hd
  · rw [if_neg fun h => hb (decide_eq_true (hgo.mp h))] at hrun
    refine ⟨_, hrun, ?_⟩
    rw [if_neg hb]
    exact e₇.congr rfl rfl rfl e₇.frames e₂.code e₆.line e₆.number

end Machine.Executes

end

end Basic65816
