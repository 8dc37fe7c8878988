import Basic65816.Expression.Operators

/-!
# Integer expressions

The precedence climber against the tree: at any level and in any slot, evaluating the tokens of an
integer expression leads to the operator loop with the value of the tree in the slot. The induction
is on the tree; an expression that may stand at level `p` is read by every call at a level `L ≤ p`,
as long as the token behind it does not bind tighter than `p`.

## Main definitions

* `Expr.value`: the value of an integer expression
* `Machine.Ahead`: the tokens ahead
* `Machine.Knows`: the variables of an environment are found

## Main results

* `climbs_of_numeric`: the climber
* `evaluate_numeric`: the value of an integer expression
-/

namespace Basic65816

/-- The value of a constant. -/
def constantValue (shift : Option ℕ) (t : ℕ) : Long :=
  let s := shift.getD 0 &&& 0x0FFF
  (2 * sub16 t 0x4000 % 0x10000 / 2 + (s % 2) * 0x8000, s / 2)

/-- An assignment of values to integer variables, by name. -/
abbrev Environment := List ℕ → Option Long

namespace Expr

/-- The value of an integer expression: the operators applied from the leaves up. -/
def value (ρ : Environment) : Expr → Option Long
  | .constant shift t => some (constantValue shift t)
  | .variable name => ρ name
  | .paren e => e.value ρ
  | .neg e => (e.value ρ).map (subLong (0, 0))
  | .binary op l r => (l.value ρ).bind fun a => (r.value ρ).bind fun b => op.apply a b
  | _ => none

/-- Expressions over integer constants and integer variables. -/
def Numeric : Expr → Prop
  | .constant _ _ => True
  | .variable name => tokenType name.headI = .integer
  | .paren e => e.Numeric
  | .neg e => e.Numeric
  | .binary _ l r => l.Numeric ∧ r.Numeric
  | _ => False

/-- The names of the variables. -/
def names : Expr → List (List ℕ)
  | .variable name => [name]
  | .paren e => e.names
  | .neg e => e.names
  | .binary _ l r => l.names ++ r.names
  | _ => []

/-- Some division or modulus has a right operand that is zero. -/
def DividesByZero (ρ : Environment) : Expr → Prop
  | .paren e => e.DividesByZero ρ
  | .neg e => e.DividesByZero ρ
  | .binary op l r => l.DividesByZero ρ ∨ r.DividesByZero ρ ∨
      ((op = .divide ∨ op = .modulus) ∧ r.value ρ = some (0, 0))
  | _ => False

/-- **Undefined values**: an integer expression over known variables has a value unless it divides
by zero. -/
theorem value_eq_none_iff {ρ : Environment} {e : Expr} (he : e.Numeric)
    (hρ : ∀ n ∈ e.names, (ρ n).isSome) : e.value ρ = none ↔ e.DividesByZero ρ := by
  induction e with
  | constant shift t => simp [value, DividesByZero]
  | «variable» name =>
    have := hρ name (by simp [names])
    simp only [value, DividesByZero, iff_false]
    exact Option.ne_none_iff_isSome.mpr this
  | paren e ih => exact ih he hρ
  | neg e ih => simpa [value, DividesByZero] using ih he hρ
  | binary op l r ihl ihr =>
    have hl := ihl he.1 fun n hn => hρ n (by simp [names, hn])
    have hr := ihr he.2 fun n hn => hρ n (by simp [names, hn])
    rw [value, DividesByZero, ← hl, ← hr]
    cases l.value ρ with
    | none => simp
    | some a =>
      cases r.value ρ with
      | none => simp
      | some b => simp [BinaryOperator.apply_eq_none_iff]
  | _ => exact absurd he id

end Expr

/-! ## Tokens ahead -/

/-- The tokens `ts` are ahead of the code pointer. -/
def Machine.Ahead (m : Machine) (ts : List ℕ) : Prop :=
  m.bank.WordsAt m.dCodePtr ts ∧ m.dCodePtr + 2 * ts.length ≤ 0x10000

namespace Machine.Ahead

variable {m m' : Machine} {t : ℕ} {ts us : List ℕ}

theorem left (h : m.Ahead (ts ++ us)) : m.Ahead ts := by
  refine ⟨(Memory.wordsAt_append.mp h.1).1, ?_⟩
  have := h.2
  rw [List.length_append] at this
  omega

theorem right (h : m.Ahead (ts ++ us)) (hb : m'.bank = m.bank)
    (hc : m'.dCodePtr = m.dCodePtr + 2 * ts.length) : m'.Ahead us := by
  have := h.2
  rw [List.length_append] at this
  unfold Machine.Ahead
  rw [hb, hc]
  exact ⟨(Memory.wordsAt_append.mp h.1).2, by omega⟩

theorem congr (h : m.Ahead ts) (hb : m'.bank = m.bank) (hc : m'.dCodePtr = m.dCodePtr) :
    m'.Ahead ts := by
  unfold Machine.Ahead
  rw [hb, hc]
  exact h

theorem token (h : m.Ahead (t :: ts)) : m.token = t := h.1.1

theorem skip_code (h : m.Ahead (t :: ts)) (hts : ts ≠ []) :
    m.skipToken.dCodePtr = m.dCodePtr + 2 := by
  have h₀ := h.2
  have h₁ := List.length_pos_iff.mpr hts
  rw [List.length_cons] at h₀
  exact add16_eq (by omega)

theorem skip (h : m.Ahead (t :: ts)) (hts : ts ≠ []) : m.skipToken.Ahead ts := by
  rw [← List.singleton_append] at h
  exact h.right rfl (h.skip_code hts)

end Machine.Ahead

/-- The variables of `ρ` are found, with their values, wherever their names stand in the code. -/
def Machine.Knows (m : Machine) (ρ : Environment) : Prop :=
  ∀ name v, ρ name = some v → ∀ m₁ : Machine, m₁.bank = m.bank →
    m₁.dBaseAddress = m.dBaseAddress → ∀ next, m₁.Ahead (name ++ [next]) →
      ∃ a p t₁ t₂, Settles (fun fuel => variableFind fuel m₁) (.ok (some a, { m₁ with
          dCodePtr := m₁.dCodePtr + 2 * name.length
          dHashTablePtr := p, dTemp1 := t₁, dTemp2 := t₂ })) ∧
        m.bank.word a = v.1 ∧ m.bank.word (a + 2) = v.2

theorem Machine.Knows.congr {m m' : Machine} {ρ : Environment} (h : m.Knows ρ)
    (hb : m'.bank = m.bank) (hbase : m'.dBaseAddress = m.dBaseAddress) : m'.Knows ρ := by
  intro name v hv m₁ hb₁ hbase₁ next ha
  rw [hb]
  exact h name v hv m₁ (hb₁.trans hb) (hbase₁.trans hbase) next ha

/-- An atom has been read into the slot at `x` at level `L`: its value, its type, and the code
pointer behind its `n` tokens. -/
structure Machine.Read (x L n : ℕ) (v : Long) (m m' : Machine) : Prop extends
    m.Preserved x m' where
  value : m'.value x = v
  precType : m'.dp (x + exsPrecType) = L <<< tokenShift
  code : m'.dCodePtr = m.dCodePtr + 2 * n

section

variable {m m' : Machine} {x L p next : ℕ} {e : Expr} {v : Long} {ρ : Environment}

theorem level_lt {L : ℕ} (hL : L ≤ 7) : L <<< tokenShift < 0x8000 := by
  rw [Nat.shiftLeft_eq]
  unfold tokenShift
  omega

theorem level_and {L : ℕ} (hL : L ≤ 7) :
    L <<< tokenShift &&& 15 <<< tokenShift = L <<< tokenShift := by
  interval_cases L <;> rfl

theorem Machine.Read.isString (h : m.Read x L p v m') (hL : L ≤ 7) : m'.isString x = false := by
  have := level_lt hL
  unfold Machine.isString
  rw [h.precType]
  exact decide_eq_false (by omega)

/-- The state in which an atom is read. -/
def atLevel (m : Machine) (x L : ℕ) : Machine := m.setDp (x + exsPrecType) (L <<< tokenShift)

theorem atLevel_preserved : m.Preserved x (atLevel m x L) :=
  Machine.preserved_setDp (by omega)

theorem atLevel_precType (hL : L ≤ 7) :
    (atLevel m x L).dp (x + exsPrecType) = L <<< tokenShift :=
  Machine.dp_setDp (by have := level_lt hL; omega)

/-- Reading an atom leads to the operator loop. -/
theorem settles_of_atom {r : Result (Value × Machine)} (hL : L ≤ 7)
    (h : Settles (fun k => elAtom Handler.routine k (evaluateLevel Handler.routine k)
      (atLevel m x L) x) (.ok m'))
    (hr : Settles (fun k => elGotAtom Handler.routine k m' x) r) :
    Settles (fun k => evaluateLevel Handler.routine k m x (L <<< tokenShift)) r := by
  refine (Settles.bind (g := fun k m => elGotAtom Handler.routine k m x) h hr).unfold fun k => ?_
  rw [evaluateLevel_succ, Nat.mod_eq_of_lt (level_lt hL)]
  rfl

theorem settles_of_atom_error {s : Stop} (hL : L ≤ 7)
    (h : Settles (fun k => elAtom Handler.routine k (evaluateLevel Handler.routine k)
      (atLevel m x L) x) (.error s)) :
    Settles (fun k => evaluateLevel Handler.routine k m x (L <<< tokenShift)) (.error s) := by
  refine (Settles.bind_error (g := fun k m => elGotAtom Handler.routine k m x) h).unfold fun k => ?_
  rw [evaluateLevel_succ, Nat.mod_eq_of_lt (level_lt hL)]
  rfl

/-- The operator loop ends at a token that stops the level. -/
theorem elGotAtom_exit (hL : L ≤ 7) (hp : m.dp (x + exsPrecType) = L <<< tokenShift)
    (hs : Stops L m.token) :
    ∃ t, ∀ k, elGotAtom Handler.routine (k + 1) m x = .ok (elExit { m with dTemp1 := t } x) := by
  by_cases hop : m.token &&& 0xF000 = 0x2000
  · refine ⟨_, fun k => elGotAtom_of_lt hop ?_⟩
    rw [hp, level_and hL]
    exact hs hop
  · exact ⟨m.dTemp1, fun k => elGotAtom_of_ne hop⟩

/-- What the evaluation of `e` in a slot comes to: the operator loop with the value in the slot, or
division by zero. -/
structure Climbs (ρ : Environment) (e : Expr) (m : Machine) (x L : ℕ) : Prop where
  value : ∀ v, e.value ρ = some v → ∃ m', m.Read x L e.tokens.length v m' ∧
    ∀ r, Settles (fun k => elGotAtom Handler.routine k m' x) r →
      Settles (fun k => evaluateLevel Handler.routine k m x (L <<< tokenShift)) r
  none : e.value ρ = none → ∃ m',
    Settles (fun k => evaluateLevel Handler.routine k m x (L <<< tokenShift))
      (fail m' .divisionByZero)

/-- A climb that ends returns the value. -/
theorem Climbs.returns (h : Climbs ρ e m x L) (hL : L ≤ 7) (ha : m.Ahead (e.tokens ++ [next]))
    (hs : Stops L next) (hv : e.value ρ = some v) :
    ∃ m', m.Read x L e.tokens.length v m' ∧
      Settles (fun k => evaluateLevel Handler.routine k m x (L <<< tokenShift))
        (.ok (⟨v.1, v.2, false⟩, m')) := by
  obtain ⟨m₁, hread, hset⟩ := h.value v hv
  have htoken : m₁.token = next := (ha.right hread.bank hread.code).token
  obtain ⟨t, hexit⟩ := elGotAtom_exit hL hread.precType (htoken ▸ hs)
  refine ⟨{ m₁ with dTemp1 := t }, ⟨hread.toPreserved.temps, hread.value, hread.precType,
    hread.code⟩, hset _ (.unfold (.of_forall fun _ => rfl) fun k => ?_)⟩
  rw [hexit k]
  refine congrArg Except.ok (Prod.ext ?_ rfl)
  have hstring := hread.isString hL
  rw [← hread.value]
  exact congrArg (Value.mk _ _) hstring

/-! ## Atoms -/

/-- Reading an atom that has a value. -/
theorem climbs_of_atom {m' : Machine} (hL : L ≤ 7) (hv : e.value ρ = some v)
    (h : Settles (fun k => elAtom Handler.routine k (evaluateLevel Handler.routine k)
      (atLevel m x L) x) (.ok m'))
    (hread : m.Read x L e.tokens.length v m') : Climbs ρ e m x L where
  value w hw := by
    obtain rfl := Option.some.inj (hv.symm.trans hw)
    exact ⟨m', hread, fun r hr => settles_of_atom hL h hr⟩
  none hw := by rw [hv] at hw; cases hw

/-- Reading an atom that divides by zero. -/
theorem climbs_of_error {m' : Machine} (hL : L ≤ 7) (hv : e.value ρ = none)
    (h : Settles (fun k => elAtom Handler.routine k (evaluateLevel Handler.routine k)
      (atLevel m x L) x) (fail m' .divisionByZero)) : Climbs ρ e m x L where
  value w hw := by rw [hv] at hw; cases hw
  none _ := ⟨m', settles_of_atom_error hL h⟩

theorem valid_constantValue (shift : Option ℕ) (t : ℕ) : Long.Valid (constantValue shift t) := by
  have h₁ : shift.getD 0 &&& 0x0FFF ≤ 0x0FFF := Nat.and_le_right
  refine ⟨?_, ?_⟩
  · change 2 * sub16 t 0x4000 % 0x10000 / 2 + (shift.getD 0 &&& 0x0FFF) % 2 * 0x8000 < 0x10000
    omega
  · change (shift.getD 0 &&& 0x0FFF) / 2 < 0x10000
    omega

/-- The constant token, with the shift in its cell. -/
theorem elConstant_read {shift : Option ℕ} {t : ℕ} (ht : m.token = t)
    (hs : m.dConstantShift = shift.getD 0 &&& 0x0FFF) (hc : m.dCodePtr + 2 < 0x10000) :
    (elConstant m x).value x = constantValue shift t ∧
      (elConstant m x).dp (x + exsPrecType) = m.dp (x + exsPrecType) ∧
      (elConstant m x).dCodePtr = m.dCodePtr + 2 ∧
      (elConstant m x).dConstantShift = 0 ∧ m.Around x (elConstant m x) ∧
      (elConstant m x).bank = m.bank ∧
      (elConstant m x).dTempStringPointer = m.dTempStringPointer := by
  have hp := Machine.preserved_setValue (m := m) (w := constantValue shift t) (Nat.le_refl x)
  have heq : elConstant m x = { (m.setValue x (constantValue shift t)) with
      dConstantShift := 0, dCodePtr := add16 m.dCodePtr 2 } := by
    unfold elConstant constantValue
    rw [ht, hs]
    rfl
  rw [heq]
  refine ⟨Machine.value_setValue (valid_constantValue shift t), Machine.precType_setValue,
    add16_eq hc, rfl, ⟨hp.page, rfl, rfl, rfl, rfl, rfl, rfl⟩, rfl, rfl⟩

/-- **A constant.** -/
theorem climbs_constant {shift : Option ℕ} {t : ℕ} (hL : L ≤ 7) (hshift : m.dConstantShift = 0)
    (hw : (Expr.constant shift t).Written p)
    (ha : m.Ahead ((Expr.constant shift t).tokens ++ [next])) :
    Climbs ρ (.constant shift t) m x L := by
  obtain ⟨hs, ht₀, ht₁⟩ := hw
  have hprec : (atLevel m x L).dp (x + exsPrecType) = L <<< tokenShift := atLevel_precType hL
  cases shift with
  | none =>
    have ha₀ : (atLevel m x L).Ahead [t, next] := ha.congr rfl rfl
    have htoken : (atLevel m x L).token = t := ha₀.token
    obtain ⟨hv, hp, hc, hz, haround, hbank, htemp⟩ := @elConstant_read (atLevel m x L) x none t
      htoken hshift (by have := ha₀.2; simp only [List.length_cons] at this; omega)
    refine climbs_of_atom hL rfl (.of_forall fun k => ?_)
      ⟨atLevel_preserved.trans ⟨haround, hbank, hz.trans hshift.symm, htemp⟩, hv,
        hp.trans hprec, hc⟩
    rw [elAtom, htoken, if_neg (by omega), if_pos ht₀]
  | some s =>
    obtain ⟨hs₀, hs₁⟩ := hs s rfl
    have ha₀ : (atLevel m x L).Ahead [s, t, next] := ha.congr rfl rfl
    have htoken : (atLevel m x L).token = s := ha₀.token
    have hskip := ha₀.skip_code (by simp)
    obtain ⟨m₁, hm₁⟩ : ∃ m₁ : Machine, m₁ = { atLevel m x L with
      dConstantShift := (atLevel m x L).token &&& 0x0FFF }.skipToken := ⟨_, rfl⟩
    have ha₁ : m₁.Ahead [t, next] := (ha₀.skip (by simp)).congr (by rw [hm₁]; rfl) (by rw [hm₁]; rfl)
    have hp₁ : m.Around x m₁ := by
      rw [hm₁]
      exact ⟨(atLevel_preserved (L := L)).page, rfl, rfl, rfl, rfl, rfl, rfl⟩
    have hc₁ : m₁.dCodePtr = m.dCodePtr + 2 := by rw [hm₁]; exact hskip
    have hs' : m₁.dConstantShift = (some s).getD 0 &&& 0x0FFF := by
      rw [hm₁]
      change (atLevel m x L).token &&& 0x0FFF = _
      rw [htoken]
      rfl
    have hp' : m₁.dp (x + exsPrecType) = L <<< tokenShift := by rw [hm₁]; exact hprec
    obtain ⟨hv, hp, hc, hz, haround, hbank, htemp⟩ := elConstant_read (m := m₁) (x := x) ha₁.token hs'
      (by have := ha₁.2; simp only [List.length_cons] at this; omega)
    refine climbs_of_atom hL rfl (.of_forall fun k => ?_) 
      ⟨⟨hp₁.trans haround, hbank.trans (by rw [hm₁]; rfl), hz.trans hshift.symm,
        htemp.trans (by rw [hm₁]; rfl)⟩, hv, hp.trans hp', by rw [hc, hc₁]; rfl⟩
    rw [elAtom, htoken, if_neg (by omega), if_neg (by omega), if_neg (by omega), if_pos hs₁,
      elConstantShift, hm₁]

/-- **A variable.** -/
theorem climbs_variable {name : List ℕ} (hL : L ≤ 7) (hn : (Expr.variable name).Numeric)
    (hw : (Expr.variable name).Written p) (ha : m.Ahead (name ++ [next])) (hk : m.Knows ρ)
    (hv : ρ name = some v) : Climbs ρ (.variable name) m x L := by
  obtain ⟨hname, harray⟩ := hw
  obtain ⟨t, ts, rfl⟩ : ∃ t ts, name = t :: ts := by
    cases name with
    | nil => exact absurd hname id
    | cons t ts => exact ⟨t, ts, rfl⟩
  have ht : 0xC000 ≤ t := by
    cases ts with
    | nil => exact hname.1
    | cons u us => exact hname.1
  have htype : t &&& idTypeMask = 0 := by
    change tokenType t = .integer at hn
    unfold tokenType at hn
    split at hn
    · assumption
    · cases hn
  have hlt := level_lt hL
  -- the level is shifted out of the way of the carry
  obtain ⟨m₀, hm₀⟩ : ∃ m₀, m₀ = (atLevel m x L).setDp (x + exsPrecType)
    (2 * (atLevel m x L).dp (x + exsPrecType) % 0x10000) := ⟨_, rfl⟩
  have hp₀ : m.Preserved x m₀ := by
    rw [hm₀]
    exact atLevel_preserved.trans (Machine.preserved_setDp (by omega))
  have hd₀ : m₀.dp (x + exsPrecType) = 2 * (L <<< tokenShift) := by
    rw [hm₀, atLevel_precType hL, Machine.dp_setDp (Nat.mod_lt _ (by decide)),
      Nat.mod_eq_of_lt (by omega)]
  have hc₀ : m₀.dCodePtr = m.dCodePtr := by rw [hm₀]; rfl
  have ha₀ : m₀.Ahead (t :: ts ++ [next]) := ha.congr hp₀.bank hc₀
  obtain ⟨a, q, t₁, t₂, hfind, hlo, hhi⟩ := hk _ v hv m₀ hp₀.bank hp₀.base next ha₀
  obtain ⟨m₁, hm₁⟩ : ∃ m₁ : Machine, m₁ = { m₀ with
    dCodePtr := m₀.dCodePtr + 2 * (t :: ts).length
    dHashTablePtr := q, dTemp1 := t₁, dTemp2 := t₂, dVariablePtr := a } := ⟨_, rfl⟩
  have hp₁ : m.Preserved x m₁ := by
    rw [hm₁]
    exact ⟨⟨hp₀.page, hp₀.far, hp₀.pageNumber, hp₀.base, hp₀.high, hp₀.stack, hp₀.line⟩,
      hp₀.bank, hp₀.shift, hp₀.temp⟩
  have hvalue : variableValue m₁ t = ⟨v.1, v.2, false⟩ := by
    have hb : m₁.bank = m.bank := hp₁.bank
    have hptr : m₁.dVariablePtr = a := by rw [hm₁]
    rw [variableValue, if_pos htype, hb, hptr, hlo, hhi]
  have hd₁ : m₁.dp (x + exsPrecType) = 2 * (L <<< tokenShift) := by rw [hm₁]; exact hd₀
  have haccess : ∀ ev : ℕ → Evaluator, Settles
      (fun k => variableAccessExpression k (ev k) m₀ x) (.ok (⟨v.1, v.2, false⟩, m₁)) := fun ev => by
    refine hfind.bind (.of_forall fun k => ?_)
    dsimp only
    rw [ha₀.token, if_pos (by simpa using harray), ← hvalue, hm₁]
  have hvalid : v.Valid := by
    constructor
    · rw [← hlo]
      exact Memory.word_lt _ _
    · rw [← hhi]
      exact Memory.word_lt _ _
  have hprec : (m₁.setValue x v).dp (x + exsPrecType) / 2 + 0 = L <<< tokenShift := by
    rw [Machine.precType_setValue, hd₁]
    omega
  obtain ⟨m₂, hm₂⟩ : ∃ m₂, m₂ = (m₁.setValue x v).setDp (x + exsPrecType)
    ((m₁.setValue x v).dp (x + exsPrecType) / 2 + 0) := ⟨_, rfl⟩
  have hatom : Settles (fun k => elAtom Handler.routine k (evaluateLevel Handler.routine k)
      (atLevel m x L) x) (.ok m₂) := by
    have ha' : (atLevel m x L).Ahead (t :: ts ++ [next]) := ha.congr rfl rfl
    refine Settles.congr (Settles.bind (g := fun _ r => .ok
      (((r.2.setValue x (r.1.a, r.1.y)).setDp (x + exsPrecType)
        ((r.2.setValue x (r.1.a, r.1.y)).dp (x + exsPrecType) / 2 + if r.1.c then 0x8000 else 0))))
      (haccess (evaluateLevel Handler.routine)) (.of_forall fun _ => by rw [hm₂]; rfl)) fun k => ?_
    rw [elAtom, if_pos (by rw [ha'.token]; exact ht), elVariable, ← hm₀]
  refine climbs_of_atom hL hv hatom ?_
  rw [hm₂]
  refine ⟨(hp₁.trans (Machine.preserved_setValue (Nat.le_refl x))).trans
      (Machine.preserved_setDp (Nat.le_add_right x _)), ?_, ?_, ?_⟩
  · rw [Machine.value_setDp_precType, Machine.value_setValue hvalid]
  · rw [hprec]
    exact Machine.dp_setDp (by omega)
  · change m₁.dCodePtr = _
    rw [hm₁]
    change m₀.dCodePtr + _ = _
    rw [hc₀]
    rfl

/-! ## Composite expressions -/

/-- A token between the constants and the operators is looked at again. -/
theorem elAtom_unary {t : ℕ} (ht : m.token = t) (h₀ : 0x2000 ≤ t) (h₁ : t < 0x4000) (k : ℕ)
    (ev : Evaluator) :
    elAtom Handler.routine k ev m x = elUnaryKeyword Handler.routine k ev m x := by
  rw [elAtom, ht, if_neg (by omega), if_neg (by omega), if_neg (by omega), if_neg (by omega)]

theorem elAtom_lparen (ht : m.token = lparenTokenID) (k : ℕ) (ev : Evaluator) :
    elAtom Handler.routine k ev m x =
      (ev m.skipToken (x + exsNext) (0 <<< tokenShift) >>= fun r =>
        expectRightBracket r.2 >>= fun m => .ok (elCopy m x)) := by
  rw [elAtom_unary ht (by decide) (by decide), elUnaryKeyword, ht]
  rfl

theorem elAtom_minus (ht : m.token = minusTokenID) (k : ℕ) (ev : Evaluator) :
    elAtom Handler.routine k ev m x =
      (ev m.skipToken (x + exsNext) (7 <<< tokenShift) >>= fun r => .ok (elMinus r.2 x)) := by
  rw [elAtom_unary ht (by decide) (by decide), elUnaryKeyword, ht]
  rfl

/-- Skipping a token. -/
theorem skipToken_preserved : m.Preserved x m.skipToken :=
  ⟨⟨fun _ _ => rfl, rfl, rfl, rfl, rfl, rfl, rfl⟩, rfl, rfl, rfl⟩

/-- What was below the next slot is still there after an evaluation in it. -/
theorem Machine.Read.below {n : ℕ} (h : m.Read (x + exsNext) L n v m') {b : ℕ}
    (hb : b + 2 ≤ x + exsNext) : m'.dp b = m.dp b := h.toAround.dp hb

/-- **Parentheses.** -/
theorem climbs_paren (hL : L ≤ 7) (ha : m.Ahead ((Expr.paren e).tokens ++ [next]))
    (ih : Climbs ρ e (atLevel m x L).skipToken (x + exsNext) 0) : Climbs ρ (.paren e) m x L := by
  have ha₀ : (atLevel m x L).Ahead (lparenTokenID :: (e.tokens ++ [rparenTokenID] ++ [next])) :=
    ha.congr rfl rfl
  have htoken := ha₀.token
  have ha₁ := ha₀.skip (by simp)
  have hc₁ : (atLevel m x L).skipToken.dCodePtr = m.dCodePtr + 2 := ha₀.skip_code (by simp)
  cases hv : e.value ρ with
  | none =>
    obtain ⟨m', hset⟩ := ih.none hv
    exact climbs_of_error hL hv (hset.bind_error.congr fun k => elAtom_lparen htoken k _)
  | some v =>
    obtain ⟨m₂, hread, hset⟩ := ih.returns (by decide) ha₁.left (stops_rparen 0) hv
    have ha₂ : m₂.Ahead [rparenTokenID, next] := by
      rw [List.append_assoc] at ha₁
      exact ha₁.right hread.bank hread.code
    have hexpect : expectRightBracket m₂ = .ok m₂.skipToken := if_pos ha₂.token.symm
    have hatom : Settles (fun k => elAtom Handler.routine k (evaluateLevel Handler.routine k)
        (atLevel m x L) x) (.ok (elCopy m₂.skipToken x)) := by
      refine Settles.congr (Settles.bind (g := fun _ r => expectRightBracket r.2 >>= fun m =>
        .ok (elCopy m x)) hset (.of_forall fun k => ?_)) fun k => elAtom_lparen htoken k _
      rw [hexpect]
      rfl
    have hp : m.Preserved x m₂ := (atLevel_preserved.trans skipToken_preserved).trans
      (hread.toPreserved.mono (Nat.le_add_right x _))
    refine climbs_of_atom hL hv hatom
      ⟨(hp.trans skipToken_preserved).trans (Machine.preserved_setValue (Nat.le_refl x)), ?_, ?_, ?_⟩
    · rw [elCopy, Machine.value_setValue (Machine.valid_value _ _)]
      exact hread.value
    · rw [elCopy, Machine.precType_setValue]
      exact (hread.below (Nat.le_refl _)).trans (atLevel_precType hL)
    · change m₂.skipToken.dCodePtr = _
      rw [ha₂.skip_code (by simp), hread.code, hc₁]
      simp only [Expr.tokens, List.length_append, List.length_cons, List.length_nil]
      omega

/-- **Unary minus.** -/
theorem climbs_neg (hL : L ≤ 7) (ha : m.Ahead ((Expr.neg e).tokens ++ [next]))
    (hs : Stops 7 next) (ih : Climbs ρ e (atLevel m x L).skipToken (x + exsNext) 7) :
    Climbs ρ (.neg e) m x L := by
  have ha₀ : (atLevel m x L).Ahead (minusTokenID :: (e.tokens ++ [next])) := ha.congr rfl rfl
  have htoken := ha₀.token
  have ha₁ := ha₀.skip (by simp)
  have hc₁ : (atLevel m x L).skipToken.dCodePtr = m.dCodePtr + 2 := ha₀.skip_code (by simp)
  cases hv : e.value ρ with
  | none =>
    obtain ⟨m', hset⟩ := ih.none hv
    exact climbs_of_error hL (by rw [Expr.value, hv]; rfl)
      (hset.bind_error.congr fun k => elAtom_minus htoken k _)
  | some v =>
    obtain ⟨m₂, hread, hset⟩ := ih.returns (by decide) ha₁ hs hv
    have hatom : Settles (fun k => elAtom Handler.routine k (evaluateLevel Handler.routine k)
        (atLevel m x L) x) (.ok (elMinus m₂ x)) :=
      Settles.congr (Settles.bind (g := fun _ r => .ok (elMinus r.2 x)) hset
        (.of_forall fun _ => rfl)) fun k => elAtom_minus htoken k _
    have hp : m.Preserved x m₂ := (atLevel_preserved.trans skipToken_preserved).trans
      (hread.toPreserved.mono (Nat.le_add_right x _))
    refine climbs_of_atom (v := subLong (0, 0) v) hL (by rw [Expr.value, hv]; rfl) hatom
      ⟨hp.trans (Machine.preserved_setValue (Nat.le_refl x)), ?_, ?_, ?_⟩
    · rw [elMinus, Machine.value_setValue (valid_subLong _ _), hread.value]
    · rw [elMinus, Machine.precType_setValue]
      exact (hread.below (Nat.le_refl _)).trans (atLevel_precType hL)
    · change m₂.dCodePtr = _
      rw [hread.code, hc₁]
      simp only [Expr.tokens, List.length_cons]
      omega

/-- An operator whose level is high enough is applied. -/
theorem elGotAtom_operator {op : BinaryOperator} (hL : L ≤ op.level)
    (hp : m.dp (x + exsPrecType) = L <<< tokenShift) (ht : m.token = op.token) (k : ℕ) :
    elGotAtom Handler.routine (k + 1) m x =
      (evaluateLevel Handler.routine k { m with dTemp1 := L <<< tokenShift }.skipToken
        (x + exsNext) ((op.level + 1) <<< tokenShift) >>= fun r =>
      op.routine r.2 x >>= fun m => elGotAtom Handler.routine k m x) := by
  have hop := op.level_le
  have hexec : ∀ (m : Machine) (ev : Evaluator), elExecuteY Handler.routine k ev m x op.token =
      op.routine m x := fun m ev => by
    rw [elExecuteY, op.vector]
    rfl
  rw [elGotAtom_of_le (by rw [ht]; exact op.token_group) (by
      rw [hp, level_and (by omega), ht, op.token_level]
      simp only [Nat.shiftLeft_eq]
      exact Nat.mul_le_mul_right _ hL),
    hp, level_and (by omega), ht, op.token_level]
  simp only [hexec]
  rw [show op.level <<< tokenShift + 1 <<< tokenShift = (op.level + 1) <<< tokenShift by
    simp only [Nat.shiftLeft_eq, Nat.add_mul]]

/-- **A binary operator.** The left operand leads to the operator loop, which evaluates the right
operand one level higher. -/
theorem climbs_binary {op : BinaryOperator} {l r : Expr} (hL : L ≤ op.level)
    (ha : m.Ahead ((Expr.binary op l r).tokens ++ [next])) (hs : Stops (op.level + 1) next)
    (ihl : Climbs ρ l m x L)
    (ihr : ∀ m₁ : Machine, m₁.Ahead (r.tokens ++ [next]) → m.Around x m₁ → m₁.bank = m.bank →
      m₁.dConstantShift = m.dConstantShift → Climbs ρ r m₁ (x + exsNext) (op.level + 1)) :
    Climbs ρ (.binary op l r) m x L := by
  have hop := op.level_le
  cases hv : l.value ρ with
  | none =>
    refine ⟨fun v h => ?_, fun _ => ihl.none hv⟩
    rw [Expr.value, hv] at h
    cases h
  | some a =>
    obtain ⟨m₁, hread, hset⟩ := ihl.value a hv
    have ha₁ : m₁.Ahead (op.token :: (r.tokens ++ [next])) := by
      rw [Expr.tokens, List.append_assoc, List.append_assoc] at ha
      exact ha.right hread.bank hread.code
    obtain ⟨m₂, hm₂⟩ : ∃ m₂ : Machine, m₂ = { m₁ with dTemp1 := L <<< tokenShift }.skipToken :=
      ⟨_, rfl⟩
    have ha₂ : m₂.Ahead (r.tokens ++ [next]) := by
      rw [hm₂]
      exact (ha₁.skip (by simp)).congr rfl rfl
    have hp₂ : m.Preserved x m₂ := by
      rw [hm₂]
      exact hread.toPreserved.temps.trans skipToken_preserved
    have hc₂ : m₂.dCodePtr = m.dCodePtr + 2 * l.tokens.length + 2 := by
      rw [hm₂]
      refine (ha₁.skip_code (by simp)).trans ?_
      rw [hread.code]
    have hloop := fun k => elGotAtom_operator hL hread.precType ha₁.token k
    rw [← hm₂] at hloop
    have ih := ihr m₂ ha₂ hp₂.toAround hp₂.bank hp₂.shift
    cases hw : r.value ρ with
    | none =>
      refine ⟨fun v h => ?_, fun _ => ?_⟩
      · rw [Expr.value, hv, hw] at h
        cases h
      · obtain ⟨m', hfail⟩ := ih.none hw
        exact ⟨m', hset _ (hfail.bind_error.unfold hloop)⟩
    | some b =>
      obtain ⟨m₃, hread', hret⟩ := ih.returns (by omega) ha₂ hs hw
      have hval : m₃.value x = a := by
        rw [← hread.value]
        unfold Machine.value exsValueL exsValueH
        rw [hread'.below (by unfold exsNext; omega), hread'.below (by unfold exsNext; omega), hm₂]
        rfl
      have hprec : m₃.dp (x + exsPrecType) = L <<< tokenShift := by
        refine (hread'.below (Nat.le_refl _)).trans ?_
        rw [hm₂]
        exact hread.precType
      have hint : m₃.isString x = false := by
        have := level_lt (L := L) (by omega)
        unfold Machine.isString
        rw [hprec]
        exact decide_eq_false (by omega)
      have hint' := hread'.isString (by omega)
      have hp₃ : m.Preserved x m₃ := hp₂.trans (hread'.toPreserved.mono (Nat.le_add_right x _))
      have happly : ∀ c, op.apply a b = c → (Expr.binary op l r).value ρ = c := fun c hc => by
        rw [Expr.value, hv, hw, ← hc]
        rfl
      cases hc : op.apply a b with
      | none =>
        refine ⟨fun v h => ?_, fun _ => ?_⟩
        · rw [happly _ hc] at h
          cases h
        · rw [← hval, ← hread'.value] at hc
          have hfail := BinaryOperator.routine_none hint hint' hc
          refine ⟨m₃, hset _ ((hret.bind (.of_forall fun k => ?_)).unfold hloop)⟩
          dsimp only
          rw [hfail]
          rfl
      | some c =>
        refine ⟨fun v h => ?_, fun h => ?_⟩
        · rw [happly _ hc] at h
          obtain rfl := Option.some.inj h
          rw [← hval, ← hread'.value] at hc
          obtain ⟨m₄, hok, hd⟩ := BinaryOperator.routine_integer hint hint' hc
          refine ⟨m₄, ⟨hp₃.trans hd.toPreserved, hd.value, hd.precType.trans hprec, ?_⟩,
            fun q hq => hset _ ((hret.bind (g := fun k r => op.routine r.2 x >>= fun m =>
              elGotAtom Handler.routine k m x) ?_).unfold hloop)⟩
          · rw [hd.code, hread'.code, hc₂]
            simp only [Expr.tokens, List.length_append, List.length_cons, List.length_nil]
            omega
          · refine hq.congr fun k => ?_
            rw [hok]
            rfl
        · rw [happly _ hc] at h
          cases h

/-- **The climber.** In any slot and at any level that the expression may be read at, evaluation
leads to the operator loop with the value of the tree, or fails when the tree divides by zero. -/
theorem climbs_of_numeric (he : e.Numeric) (hw : e.Written p) (hL : L ≤ p) (hL' : L ≤ 7)
    (hρ : ∀ n ∈ e.names, (ρ n).isSome) (hk : m.Knows ρ) (hshift : m.dConstantShift = 0)
    (ha : m.Ahead (e.tokens ++ [next])) (hs : Stops (p + 1) next) (hs' : Stops 4 next) :
    Climbs ρ e m x L := by
  induction e generalizing m x L p next with
  | constant shift t => exact climbs_constant hL' hshift hw ha
  | «variable» name =>
    obtain ⟨v, hv⟩ := Option.isSome_iff_exists.mp (hρ name (by simp [Expr.names]))
    exact climbs_variable hL' he hw ha hk hv
  | paren e ih =>
    have ha₀ : (atLevel m x L).Ahead (lparenTokenID :: (e.tokens ++ [rparenTokenID] ++ [next])) :=
      ha.congr rfl rfl
    exact climbs_paren hL' ha (ih he hw (Nat.le_refl 0) (by decide) hρ (hk.congr rfl rfl) hshift
      (ha₀.skip (by simp)).left (stops_rparen _) (stops_rparen _))
  | neg e ih =>
    have ha₀ : (atLevel m x L).Ahead (minusTokenID :: (e.tokens ++ [next])) := ha.congr rfl rfl
    exact climbs_neg hL' ha (hs'.mono (by decide)) (ih he hw (Nat.le_refl 7) (by decide) hρ
      (hk.congr rfl rfl) hshift (ha₀.skip (by simp)) (hs'.mono (by decide)) hs')
  | binary op l r ihl ihr =>
    obtain ⟨hle, hwl, hwr⟩ := hw
    have hop := op.level_le
    have hal : m.Ahead (l.tokens ++ [op.token]) := by
      rw [Expr.tokens, List.append_assoc] at ha
      exact ha.left
    refine climbs_binary (by omega) ha (hs.mono (by omega))
      (ihl he.1 hwl (by omega) hL' (fun n hn => hρ n (by simp [Expr.names, hn])) hk hshift hal
        op.stops (op.stops.mono (by omega))) fun m₁ ha₁ haround hbank hsh => ?_
    exact ihr he.2 hwr (Nat.le_refl _) (by omega) (fun n hn => hρ n (by simp [Expr.names, hn]))
      (hk.congr hbank haround.base) (hsh.trans hshift) ha₁ (hs.mono (by omega)) hs'
  | _ => exact absurd he id

/-- **Evaluation of integer expressions** over known variables. -/
theorem evaluate_of_numeric (he : e.Numeric) (hw : e.Written 0) (hρ : ∀ n ∈ e.names, (ρ n).isSome)
    (hk : m.Knows ρ) (hshift : m.dConstantShift = 0) (ha : m.Ahead (e.tokens ++ [next]))
    (hs : Stops 0 next) :
    (∀ v, e.value ρ = some v → ∃ m', m.Read (add16 m.dStack 16) 0 e.tokens.length v m' ∧
      Settles (fun fuel => evaluate fuel m) (.ok (⟨v.1, v.2, false⟩, m'))) ∧
    (e.value ρ = none →
      ∃ m', Settles (fun fuel => evaluate fuel m) (fail m' .divisionByZero)) := by
  have h := climbs_of_numeric (x := add16 m.dStack 16) he hw (Nat.le_refl 0) (by decide) hρ hk hshift
    ha (hs.mono (by decide)) (hs.mono (by decide))
  exact ⟨fun v hv => h.returns (by decide) ha hs hv, h.none⟩

/-- **Integer constants and operators.** An expression without variables is evaluated to the value of
its tree, with the carry clear and the code pointer on the next token; it ends in a division by zero
exactly when some division or modulus has a right operand that is zero. -/
theorem evaluate_numeric (m : Machine) (e : Expr) (next : ℕ) (he : e.Numeric) (hn : e.names = [])
    (hw : e.Written 0) (ha : m.Ahead (e.tokens ++ [next])) (hs : Stops 0 next)
    (hshift : m.dConstantShift = 0) :
    (¬ e.DividesByZero (fun _ => none) → ∃ v m', e.value (fun _ => none) = some v ∧
      Settles (fun fuel => evaluate fuel m) (.ok (⟨v.1, v.2, false⟩, m')) ∧
      m'.dCodePtr = m.dCodePtr + 2 * e.tokens.length ∧ m'.token = next) ∧
    (e.DividesByZero (fun _ => none) ↔
      ∃ m', Settles (fun fuel => evaluate fuel m) (fail m' .divisionByZero)) := by
  have hρ : ∀ n ∈ e.names, ((fun _ => none : Environment) n).isSome := by simp [hn]
  have hk : m.Knows fun _ => none := fun _ _ h => by cases h
  obtain ⟨hvalue, hnone⟩ := evaluate_of_numeric he hw hρ hk hshift ha hs
  have hiff := Expr.value_eq_none_iff he hρ
  have hdeliver : ¬ e.DividesByZero (fun _ => none) → ∃ v m', e.value (fun _ => none) = some v ∧
      Settles (fun fuel => evaluate fuel m) (.ok (⟨v.1, v.2, false⟩, m')) ∧
      m'.dCodePtr = m.dCodePtr + 2 * e.tokens.length ∧ m'.token = next := fun h => by
    obtain ⟨v, hv⟩ := Option.ne_none_iff_exists'.mp (hiff.not.mpr h)
    obtain ⟨m', hread, hset⟩ := hvalue v hv
    exact ⟨v, m', hv, hset, hread.code, (ha.right hread.bank hread.code).token⟩
  refine ⟨hdeliver, fun h => hnone (hiff.mpr h), ?_⟩
  rintro ⟨m', hfail⟩
  by_contra h
  obtain ⟨v, m'', -, hset, -⟩ := hdeliver h
  have := hset.unique hfail
  cases this

end

/-- `2+3*4` in the token buffer. -/
def sumProduct : Machine :=
  { (default : Machine) with
    dCodePtr := 0x4100, dStack := basStack
    bank := (((((default : Memory).setWord 0x4100 0x4002).setWord 0x4102 0x240a).setWord
      0x4104 0x4003).setWord 0x4106 0x260c).setWord 0x4108 0x4004 }

/-- `2+3*4` has a value, and is evaluated to it. -/
theorem evaluate_numeric_sum :
    ∃ m', Settles (fun fuel => evaluate fuel sumProduct) (.ok (⟨14, 0, false⟩, m')) ∧
      m'.dCodePtr = 0x410A ∧ m'.token = 0 := by
  have h := (evaluate_numeric sumProduct (.binary .add (.constant none 0x4002)
    (.binary .multiply (.constant none 0x4003) (.constant none 0x4004))) 0
    (by simp [Expr.Numeric]) rfl (by simp [Expr.Written, BinaryOperator.level])
    ⟨by repeat' constructor, by decide⟩ (fun h => absurd h (by decide)) rfl).1
    (by simp [Expr.DividesByZero])
  obtain ⟨v, m', hv, hset, hc, ht⟩ := h
  have hval : (Expr.binary .add (.constant none 0x4002) (.binary .multiply (.constant none 0x4003)
    (.constant none 0x4004))).value (fun _ => none) = some (14, 0) := by decide +kernel
  rw [hval] at hv
  obtain rfl := Option.some.inj hv
  exact ⟨m', hset, hc, ht⟩

end Basic65816
