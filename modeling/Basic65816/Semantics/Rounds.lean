import Basic65816.Semantics.Stmt
import Basic65816.Stack.Runs

/-!
# The interpreter at a position of a program

Between two statements the interpreter stands at a position of the program, with the frames of the
structures around it and the values of the variables.

## Main definitions

* `Host`: where the program is
* `Machine.Executes`: the state of the interpreter between two statements
* `Steps`, `Reaches`: one round of the interpreter, and any number of them

## Main results

* `Machine.Executes.evaluate`: the value of an expression
* `Machine.Executes.scan`: the forward scanner
* `Machine.Executes.gap`: colons and line ends
-/

namespace Basic65816

/-- The memory of a program, which ends before `hi`, the variables that it assigns, and the data addresses
of the variables whose loops are running. -/
structure Host where
  memory : Memory
  base : ℕ
  hi : ℕ
  names : Finset (List ℕ)
  loops : List (List ℕ × ℕ)

namespace Host

variable (h : Host)

/-- The start of the program. -/
def lo : ℕ := h.base + blockProgramStart

/-- The text between two positions. -/
abbrev Code : ℕ → ℕ → List (Option ℕ) → ℕ → ℕ → Prop := CodeAt h.memory h.lo h.hi

end Host

/-- The interpreter is in front of a statement at the address `p` in line `n`. -/
structure Machine.Executes (m : Machine) (h : Host) (σ : Environment) (fs : List StackFrame)
    (p n : ℕ) : Prop where
  base : m.dBaseAddress = h.base
  memory : h.memory.EqOn h.lo h.hi m.bank
  code : m.dCodePtr = p
  line : m.dLineNumber = n
  number : n ≠ 0 ∧ n < 0x10000
  shift : m.dConstantShift = 0
  frames : m.Frames fs
  store : ∃ rs, m.Variables h.hi rs σ ∧ ∀ x ∈ h.loops, DataAt m.dBaseAddress rs x.1 x.2
  space : m.SpaceFor h.names σ

/-- One round of the interpreter. -/
def Steps (m m' : Machine) : Prop := Settles (fun fuel => frunNextInstruction fuel m) (.ok m')

/-- Any number of rounds. -/
abbrev Reaches : Machine → Machine → Prop := Relation.ReflTransGen Steps

/-- The bytes of some frames. -/
def sizeOfFrames (fs : List StackFrame) : ℕ := (fs.map StackFrame.size).sum

section

variable {m m' : Machine} {h : Host} {σ : Environment} {fs fs' : List StackFrame}
  {p n q k t a b : ℕ} {cs : List (Option ℕ)} {c : Expr} {v : Long}

theorem stack_of_frames (hf : m.Frames fs) : m.dStack = basStack + sizeOfFrames fs := by
  have hgen : ∀ (fs : List StackFrame) (s : ℕ), m.page.Frames s fs → s = basStack + sizeOfFrames fs := by
    intro fs
    induction fs with
    | nil => exact fun s hs => hs.1
    | cons f fs ih =>
      intro s hs
      have hrest := ih _ hs.2.2
      have hle := hs.1
      unfold sizeOfFrames at hrest ⊢
      rw [List.map_cons, List.sum_cons]
      omega
  exact hgen fs m.dStack hf

namespace Machine.Executes

/-- Registers that are no part of the state may change. -/
theorem congr (e : m.Executes h σ fs p n) (hbank : m'.bank = m.bank)
    (hbase : m'.dBaseAddress = m.dBaseAddress) (hshift : m'.dConstantShift = m.dConstantShift)
    (hframes : m'.Frames fs') (hcode : m'.dCodePtr = q) (hline : m'.dLineNumber = k)
    (hk : k ≠ 0 ∧ k < 0x10000) : m'.Executes h σ fs' q k where
  base := hbase.trans e.base
  memory := hbank ▸ e.memory
  code := hcode
  line := hline
  number := hk
  shift := hshift.trans e.shift
  frames := hframes
  store := e.store.imp fun _ hv => ⟨hv.1.congr hbank hbase, hbase.symm ▸ hv.2⟩
  space := by
    have hspace := e.space
    unfold Machine.SpaceFor Machine.block at hspace ⊢
    rw [hbank, hbase]
    exact hspace

theorem hi_lt (e : m.Executes h σ fs p n) : h.hi < 0x10000 := by
  obtain ⟨rs, hv, -⟩ := e.store
  exact hv.store.low.trans_lt (m.block_lt _)

theorem token (e : m.Executes h σ fs p n) (hlo : h.lo ≤ p) (hhi : p + 2 ≤ h.hi) :
    m.token = h.memory.word p :=
  m.token_eq e.code (e.memory.word hlo hhi)

/-- The state behind a token. -/
theorem skip (e : m.Executes h σ fs p n) (hhi : p + 2 ≤ h.hi) :
    m.skipToken.Executes h σ fs (p + 2) n := by
  have hlt := e.hi_lt
  refine e.congr rfl rfl rfl e.frames ?_ e.line e.number
  rw [Machine.skipToken, e.code]
  exact add16_eq (by omega)

/-- The state in which a statement is executed. -/
theorem begin (e : m.Executes h σ fs p n) :
    { m with dTempStringPointer := 0 }.Executes h σ fs p n :=
  e.congr rfl rfl rfl e.frames e.code e.line e.number

/-- **The value of an expression.** -/
theorem evaluate (e : m.Executes h σ fs p n) (hc : Stmt.Integer c)
    (hcode : h.Code p n (c.tokens.map some) q k) (hp : h.lo ≤ p) (hq : q + 2 ≤ h.hi)
    (hstop : Stops 0 (h.memory.word q)) (hv : c.value σ = some v) (hs : m.NearSpace) :
    ∃ m', Settles (fun fuel => evaluateInteger fuel m) (.ok (⟨v.1, v.2, false⟩, m')) ∧
      m'.Executes h σ fs q n ∧ m'.value (add16 m.dStack 16) = v ∧
        m.Around (m.dStack + 16) m' ∧ m'.bank = m.bank := by
  obtain ⟨hwords, hq', rfl⟩ := hcode.tokens
  obtain ⟨rs, hvars, -⟩ := e.store
  have hlt := e.hi_lt
  have hle := hcode.le.1
  have hknown : ∀ name ∈ c.names, (σ name).isSome := by
    clear hwords hcode hc hq'
    induction c generalizing v with
    | «variable» name =>
      intro x hx
      obtain rfl := List.mem_singleton.mp hx
      rw [show σ x = some v from hv]
      rfl
    | paren e ih => exact ih hv
    | neg e ih =>
      obtain ⟨w, hw, -⟩ := Option.map_eq_some_iff.mp hv
      exact ih hw
    | binary op l r ihl ihr =>
      obtain ⟨x, hx, hrest⟩ := Option.bind_eq_some_iff.mp hv
      obtain ⟨y, hy, -⟩ := Option.bind_eq_some_iff.mp hrest
      intro name hname
      rcases List.mem_append.mp hname with hname | hname
      · exact ihl hx name hname
      · exact ihr hy name hname
    | _ => exact fun name hname => absurd hname List.not_mem_nil
  have hahead : m.Ahead (c.tokens ++ [h.memory.word q]) := by
    refine ⟨?_, ?_⟩
    · rw [e.code]
      have hall : h.memory.WordsAt p (c.tokens ++ [h.memory.word q]) :=
        Memory.wordsAt_append.mpr ⟨hwords, by rw [hq'], trivial⟩
      refine hall.congr (e.memory.mono hp ?_)
      rw [List.length_append, List.length_singleton]
      omega
    · rw [List.length_append, List.length_singleton, e.code]
      omega
  obtain ⟨m', hread, hset⟩ :=
    (evaluate_of_numeric hc.1 hc.2 hknown hvars.knows e.shift hahead hstop).1 v hv
  have hslot : add16 m.dStack 16 = m.dStack + 16 := by
    have : m.dStack < 0x300 := hs
    exact add16_eq (by omega)
  have hkeeps : m.KeepsStack m' := hread.toAround.keepsStack (by omega)
  refine ⟨m', ?_, ?_, hread.value, hslot ▸ hread.toAround, hread.bank⟩
  · exact hset.bind (g := fun _ r => if r.1.c then fail r.2 .numberExpected else .ok (r.1, r.2))
      (.of_forall fun _ => rfl)
  · refine e.congr hread.bank hread.base hread.shift (hkeeps.frames e.frames) ?_
      (hread.line.trans e.line) e.number
    rw [hread.code, e.code, hq']

/-- **The forward scanner** finds a token behind a text that it passes over. -/
theorem scan (e : m.Executes h σ fs p n) (hcode : h.Code p n cs q k)
    (hskims : skims a b 0 cs = some 0) (hq : h.lo ≤ q ∧ q + 2 ≤ h.hi) (ht : h.memory.word q = t)
    (hne : t ≠ 0) (hfound : t = a ∨ t = b) :
    ∃ m', Settles (fun fuel => scanForwardLevel fuel m a b) (.ok (t, m')) ∧
      m'.Executes h σ fs q k ∧ m.KeepsStack m' ∧ m'.bank = m.bank := by
  obtain ⟨-, hpass⟩ := sflLoop_code m.dLineNumber
    (m := { m with dTemp1 := a, dTemp1H := b, dTemp2 := m.dLineNumber }) hcode e.memory e.hi_lt hskims
    (Nat.zero_le p) e.code e.line
  have htoken : m.bank.word q = t := (e.memory.word hq.1 hq.2).trans ht
  obtain ⟨m', hm'⟩ : ∃ m' : Machine, m' = { m with
    dTemp1 := a, dTemp1H := b, dTemp2 := m.dLineNumber, dCodePtr := q, dLineNumber := k } := ⟨_, rfl⟩
  have htoken' : m'.token = t := by
    rw [hm']
    exact htoken
  have hstep : sflStep a b m.dLineNumber m' 0 = .inl (.ok (t, m')) := by
    unfold sflStep
    dsimp only
    rw [htoken', if_pos ⟨rfl, hne, hfound⟩]
  refine ⟨m', hpass _ (Settles.succ (.of_forall fun fuel => ?_)), ?_, ?_, ?_⟩
  · rw [← hm', sflLoop_succ, hstep]
  · rw [hm']
    exact e.congr rfl rfl rfl e.frames rfl rfl (hcode.number e.number)
  · rw [hm']
    exact ⟨rfl, fun _ _ => rfl⟩
  · rw [hm']

/-! ## Rounds -/

/-- A keyword. -/
theorem keyword {P : Machine → Prop} (e : m.Executes h σ fs p n) (command : Command)
    (hlo : h.lo ≤ p) (hhi : p + 2 ≤ h.hi) (ht : h.memory.word p = t)
    (hkey : t ≠ 0 ∧ t ≠ colonTokenID ∧ t &&& 0xE800 = 0x2800)
    (hc : commandJumpTable[t &&& 0x01FF]? = some (.command command))
    (hr : ∀ m₁ : Machine, m₁.Executes h σ fs (p + 2) n → ∃ m',
      Settles (fun fuel => runCommand fuel m₁ command) (.ok m') ∧ P m') :
    ∃ m', Steps m m' ∧ P m' := by
  obtain ⟨m', hset, he⟩ := hr _ (e.begin.skip hhi)
  obtain ⟨h₀, h₁, h₂⟩ := hkey
  have htoken : ({ m with dTempStringPointer := 0 } : Machine).token = t :=
    (e.begin.token hlo hhi).trans ht
  refine ⟨m', hset.congr fun fuel => ?_, he⟩
  unfold frunNextInstruction
  dsimp only
  rw [htoken, if_neg h₀, if_neg h₁, if_pos h₂, hc]

/-- A colon or a line end. -/
theorem separator {c : Option ℕ} (e : m.Executes h σ fs p n) (hcode : h.Code p n [c] q k)
    (hc : c = none ∨ c = some colonTokenID) : ∃ m', Steps m m' ∧ m'.Executes h σ fs q k := by
  have hlt := e.hi_lt
  rcases hc with rfl | rfl
  · cases hcode with
    | line hlo hhi hend hlink hnumber hj hnil =>
      cases hnil
      have htoken : ({ m with dTempStringPointer := 0 } : Machine).token = 0 :=
        (e.begin.token hlo (by omega)).trans hend
      have hlink' : m.bank.word (p + 2) ≠ 0 := by
        rw [e.memory.word (by omega) (by omega)]
        exact hlink
      have hnumber' : m.bank.word (p + 4) = k := by
        rw [e.memory.word (by omega) (by omega), hnumber]
      refine ⟨{ m with dTempStringPointer := 0, dLineNumber := k, dCodePtr := p + 6 },
        .of_forall fun fuel => ?_, e.congr rfl rfl rfl e.frames rfl rfl
        ⟨hj, hnumber ▸ h.memory.word_lt _⟩⟩
      unfold frunNextInstruction frunEndInstruction frunNextLineNumber
      dsimp only
      rw [htoken, if_pos rfl, e.code, e.line, if_neg e.number.1, add16_eq (by omega),
        if_neg hlink', add16_eq (by omega), hnumber']
  · cases hcode with
    | token hlo hhi hword ht hnil =>
      cases hnil
      have htoken : ({ m with dTempStringPointer := 0 } : Machine).token = colonTokenID :=
        (e.begin.token hlo hhi).trans hword
      refine ⟨_, .of_forall fun fuel => ?_, e.begin.skip hhi⟩
      unfold frunNextInstruction
      dsimp only
      rw [htoken, if_neg (by decide), if_pos rfl]

/-- **Colons and line ends.** -/
theorem gap {line : Bool} {g : List (Option ℕ)} (e : m.Executes h σ fs p n)
    (hcode : h.Code p n g q k) (hg : Stmt.Gap line g) :
    ∃ m', Reaches m m' ∧ m'.Executes h σ fs q k := by
  have hitems := hg.items
  clear hg
  induction g generalizing m p n with
  | nil =>
    cases hcode
    exact ⟨m, .refl, e⟩
  | cons c g ih =>
    rw [← List.singleton_append] at hcode
    obtain ⟨q₁, k₁, h₁, h₂⟩ := hcode.split
    obtain ⟨m₁, hstep, e₁⟩ := e.separator h₁ (hitems c (by simp))
    obtain ⟨m', hreach, e'⟩ := ih e₁ h₂ fun c hc => hitems c (List.mem_cons_of_mem _ hc)
    exact ⟨m', .head hstep hreach, e'⟩

end Machine.Executes

end

end Basic65816
