import Basic65816.Storage.StringAssign
import Basic65816.Strings.Requests

/-!
# Temporary strings and stored data

The interpreter does not check the place of a temporary string. Where every string that an expression
makes lies between the low and the high memory pointer, the evaluation leaves the stored data alone;
where every string is as long as the length that was asked for, it leaves the other temporary strings
alone.

## Main definitions

* `Machine.StringsFit`: every string made by an evaluation passes a check
* `StringRequest.InFreeMemory`, `StringRequest.InBlock`: the two checks

## Main results

* `evaluation_frame`: the stored data
* `temporary_strings`: the other temporary strings
-/

namespace Basic65816

/-- Every string that is made passes the check: the evaluation that checks each of them succeeds. -/
def Machine.StringsFit (P : StringRequest → Prop) [DecidablePred P] (fuel : ℕ) (m : Machine)
    (x a : ℕ) : Prop :=
  ∃ r, evaluateLevel (Handler.checked P) fuel m x a = .ok r

/-! ## Stored data -/

/-- Only the bytes from `f` to `g` are written. -/
def Machine.WritesIn (f g : ℕ) (_ : ℕ) (m m' : Machine) : Prop := Memory.EqOff f g m.bank m'.bank

theorem frame_writesIn (f g : ℕ) : Frame (Machine.WritesIn f g) where
  trans := Memory.EqOff.trans
  mono h _ := h
  registers h _ _ := by rw [h.bank]
  setDp _ := Memory.EqOff.refl f g _

/-- The string lies between `f` and `g`. -/
def StringRequest.InFreeMemory (f g : ℕ) (r : StringRequest) : Prop :=
  f ≤ r.address ∧ r.address + r.touched < g

instance (f g : ℕ) : DecidablePred (StringRequest.InFreeMemory f g) :=
  fun _ => inferInstanceAs (Decidable (_ ∧ _))

theorem StringRequest.InFreeMemory.within {f g : ℕ} (hg : g ≤ 0x10000) {r : StringRequest}
    (h : r.InFreeMemory f g) : r.Within (Machine.WritesIn f g) :=
  ⟨h.2.trans_le hg, fun _ _ _ hopen => hopen.bank.mono h.1 h.2⟩

/-- The string lies between the low and the high memory pointer of `m`. -/
abbrev Machine.FreeMemory (m : Machine) : StringRequest → Prop :=
  StringRequest.InFreeMemory (m.block blockLowMemoryPtr) (m.block blockHighMemoryPtr)

/-- Every temporary string of the expression at the code pointer lies between the low and the high
memory pointer. -/
def Machine.StringsInFreeMemory (fuel : ℕ) (m : Machine) : Prop :=
  m.StringsFit m.FreeMemory fuel (add16 m.dStack 16) (0 <<< tokenShift)

/-- What is expected of an evaluation that delivers `v` in the state `m'`: the stored data is as
before, and an evaluation that ends at a string which does not fit delivers the same. -/
structure Machine.EvaluatesApart (fuel : ℕ) (m : Machine) (v : Value) (m' : Machine) : Prop where
  low : ∀ a, m.dBaseAddress ≤ a → a < m.block blockLowMemoryPtr → m'.bank a = m.bank a
  high : ∀ a, m.block blockHighMemoryPtr ≤ a → a < m.dHighAddress → m'.bank a = m.bank a
  strings : evaluateLevel (Handler.checked m.FreeMemory) fuel m (add16 m.dStack 16)
    (0 <<< tokenShift) = .ok (v, m')

/-- Strings in the free memory change nothing else, and the checks change nothing. -/
theorem Machine.StringsInFreeMemory.eqOff {fuel : ℕ} {m m' : Machine} {v : Value}
    (hfit : m.StringsInFreeMemory fuel) (h : evaluate fuel m = .ok (v, m')) :
    evaluateLevel (Handler.checked m.FreeMemory) fuel m (add16 m.dStack 16) (0 <<< tokenShift) =
        .ok (v, m') ∧
      m.bank.EqOff (m.block blockLowMemoryPtr) (m.block blockHighMemoryPtr) m'.bank := by
  obtain ⟨r, hr⟩ := hfit
  have hg : m.block blockHighMemoryPtr ≤ 0x10000 := (Memory.word_lt _ _).le
  have hwithin := (frame_writesIn (m.block blockLowMemoryPtr) (m.block blockHighMemoryPtr)).evaluateLevel
    (Handler.respects_checked (frame_writesIn _ _) fun _ => StringRequest.InFreeMemory.within hg)
    fuel m (add16 m.dStack 16) (0 <<< tokenShift)
  rw [hr] at hwithin
  -- the interpreter does what the checked evaluation does
  obtain rfl : r = (v, m') := Except.ok.inj (hwithin.agree.symm.trans h)
  exact ⟨hr, hwithin.post⟩

/-- **An evaluation leaves the stored data alone** if and only if its strings lie in the free
memory. -/
theorem evaluation_frame {fuel : ℕ} {m m' : Machine} {v : Value} (h : evaluate fuel m = .ok (v, m')) :
    m.EvaluatesApart fuel v m' ↔ m.StringsInFreeMemory fuel := by
  constructor
  · intro hapart
    exact ⟨(v, m'), hapart.strings⟩
  · intro hfit
    obtain ⟨hchecked, hbank⟩ := hfit.eqOff h
    exact ⟨fun a _ ha => hbank a (.inl ha), fun a ha _ => hbank a (.inr ha), hchecked⟩

/-- `chr$(65)`, with enough memory. -/
theorem evaluation_frame_chr : ∃ v m',
    evaluate 3 (commandMachine [0x3017, 0x4041, rparenTokenID, 0]) = .ok (v, m') ∧
      Machine.EvaluatesApart 3 (commandMachine [0x3017, 0x4041, rparenTokenID, 0]) v m' := by
  obtain ⟨⟨v, m'⟩, h, -⟩ := Except.exists_of_check
    (r := evaluate 3 (commandMachine [0x3017, 0x4041, rparenTokenID, 0])) (P := fun _ => True)
    (by rfl)
  refine ⟨v, m', h, (evaluation_frame h).mpr ?_⟩
  obtain ⟨r, hr, -⟩ := Except.exists_of_check (P := fun _ => True)
    (r := evaluateLevel (Handler.checked (StringRequest.InFreeMemory 0x4206 0x5000)) 3
      (commandMachine [0x3017, 0x4041, rparenTokenID, 0]) (add16 basStack 16) (0 <<< tokenShift))
    (by rfl)
  exact ⟨r, hr⟩

/-- A workspace whose free memory is 250 bytes. -/
def tightMachine (ts : List ℕ) : Machine :=
  { commandMachine ts with
    dHighAddress := 0x4300
    bank := (commandMachine ts).bank.setWord 0x400a 0x4300 }

/-- `chr$(65)` is delivered without an error and lies below the low memory pointer. -/
theorem evaluation_frame_tight : ∃ v m',
    evaluate 3 (tightMachine [0x3017, 0x4041, rparenTokenID, 0]) = .ok (v, m') ∧
      ¬ ∀ a, (tightMachine [0x3017, 0x4041, rparenTokenID, 0]).dBaseAddress ≤ a →
        a < (tightMachine [0x3017, 0x4041, rparenTokenID, 0]).block blockLowMemoryPtr →
          m'.bank a = (tightMachine [0x3017, 0x4041, rparenTokenID, 0]).bank a := by
  obtain ⟨⟨v, m'⟩, h, hbyte⟩ := Except.exists_of_check
    (r := evaluate 3 (tightMachine [0x3017, 0x4041, rparenTokenID, 0]))
    (P := fun r => r.2.bank.byte 0x41FF = 65) (by rfl)
  refine ⟨v, m', h, fun hsame => ?_⟩
  have h0 : (tightMachine [0x3017, 0x4041, rparenTokenID, 0]).bank.byte 0x41FF = 0 := by
    rfl
  have heq := hsame 0x41FF (by decide) (by decide)
  rw [Memory.byte_congr heq, h0] at hbyte
  cases hbyte

/-! ## The other temporary strings -/

/-- Strings are only added below the others. -/
def Machine.AddsStrings (_ : ℕ) (m m' : Machine) : Prop :=
  m'.dBaseAddress = m.dBaseAddress ∧
    (m'.dTempStringPointer = m.dTempStringPointer ∧ m'.bank = m.bank ∨
      m'.dTempStringPointer ≠ 0 ∧ m'.dTempStringPointer ≤ m.tempTop ∧
        Memory.EqOff m'.dTempStringPointer m.tempTop m.bank m'.bank)

theorem Machine.AddsStrings.trans {x : ℕ} {m m₁ m₂ : Machine} (h : m.AddsStrings x m₁)
    (h' : m₁.AddsStrings x m₂) : m.AddsStrings x m₂ := by
  obtain ⟨hbase, h⟩ := h
  obtain ⟨hbase', h'⟩ := h'
  refine ⟨hbase'.trans hbase, ?_⟩
  rcases h' with ⟨hptr', hbank'⟩ | ⟨hne', hle', heq'⟩
  · -- the second part adds nothing
    rwa [hptr', hbank']
  rcases h with ⟨hptr, hbank⟩ | ⟨hne, hle, heq⟩
  · have htop : m₁.tempTop = m.tempTop := by
      unfold Machine.tempTop Machine.block
      rw [hptr, hbase, hbank]
    rw [htop] at hle' heq'
    rw [hbank] at heq'
    exact .inr ⟨hne', hle', heq'⟩
  · have htop : m₁.tempTop = m₁.dTempStringPointer := if_neg hne
    rw [htop] at hle' heq'
    exact .inr ⟨hne', hle'.trans hle,
      (heq.mono hle' (Nat.le_refl _)).trans (heq'.mono (Nat.le_refl _) hle)⟩

theorem frame_addsStrings : Frame Machine.AddsStrings where
  trans := Machine.AddsStrings.trans
  mono h _ := h
  registers h := ⟨h.base, .inl ⟨h.temp, h.bank⟩⟩
  setDp _ := ⟨rfl, .inl ⟨rfl, rfl⟩⟩

/-- The string is no longer than the length that was asked for, and there is room for it below the
other temporary strings. -/
def StringRequest.InBlock (r : StringRequest) : Prop :=
  r.address ≠ 0 ∧ r.address + (r.size % 256 + 1) = r.state.tempTop ∧ r.state.tempTop ≤ 0x10000 ∧
    r.touched ≤ r.size % 256

instance : DecidablePred StringRequest.InBlock := fun _ => inferInstanceAs (Decidable (_ ∧ _ ∧ _ ∧ _))

theorem StringRequest.InBlock.within {r : StringRequest} (h : r.InBlock) :
    r.Within Machine.AddsStrings := by
  obtain ⟨hne, htop, hlt, htouched⟩ := h
  refine ⟨by omega, fun _ m n hopen => ⟨hopen.base, .inr ?_⟩⟩
  rw [hopen.pointer]
  exact ⟨hne, by omega, hopen.bank.mono (Nat.le_refl _) (by omega)⟩

/-- What happens in a statement after a temporary string was delivered: other expressions are
evaluated, routines of the vector table are called, and registers and the direct page change. Every
string that is made is as long as the length that was asked for. -/
inductive StatementRun : Machine → Machine → Prop
  | refl {m : Machine} : StatementRun m m
  | evaluate {m m₁ : Machine} {fuel x a : ℕ} {r : Value × Machine} (h : StatementRun m m₁)
      (hfit : m₁.StringsFit StringRequest.InBlock fuel x a)
      (he : evaluateLevel Handler.routine fuel m₁ x a = .ok r) : StatementRun m r.2
  | call {m m₁ m₂ : Machine} {c : Handler} {fuel fuel' x : ℕ} (h : StatementRun m m₁)
      (hfit : ∃ m', c.checked StringRequest.InBlock fuel
        (evaluateLevel (Handler.checked StringRequest.InBlock) fuel') m₁ x = .ok m')
      (hc : c.routine fuel (evaluateLevel Handler.routine fuel') m₁ x = .ok m₂) : StatementRun m m₂
  | registers {m m₁ m₂ : Machine} (h : StatementRun m m₁) (hr : m₁.Registers m₂) :
      StatementRun m m₂
  | page {m m₁ : Machine} {a v : ℕ} (h : StatementRun m m₁) : StatementRun m (m₁.setDp a v)

/-- By induction on the run. -/
theorem StatementRun.addsStrings {m m' : Machine} (h : StatementRun m m') : m.AddsStrings 0 m' := by
  have hchecked : ∀ c, Respects Machine.AddsStrings (Handler.checked StringRequest.InBlock c)
      c.routine := Handler.respects_checked frame_addsStrings fun _ => StringRequest.InBlock.within
  induction h with
  | refl => exact frame_addsStrings.refl
  | @evaluate m₁ fuel x a r h hfit he ih =>
    obtain ⟨r', hr'⟩ := hfit
    have hwithin := frame_addsStrings.evaluateLevel hchecked fuel m₁ x a
    rw [hr'] at hwithin
    obtain rfl : r' = r := Except.ok.inj (hwithin.agree.symm.trans he)
    exact ih.trans hwithin.post
  | @call m₁ m₂ c fuel fuel' x h hfit hc ih =>
    obtain ⟨m'', hm''⟩ := hfit
    have hwithin := hchecked c fuel _ _ m₁ x (frame_addsStrings.evaluateLevel hchecked fuel')
    rw [hm''] at hwithin
    obtain rfl : m'' = m₂ := Except.ok.inj (hwithin.agree.symm.trans hc)
    exact ih.trans hwithin.post
  | registers h hr ih => exact ih.trans (frame_addsStrings.registers hr)
  | page h ih => exact ih.trans (frame_addsStrings.setDp (Nat.zero_le _))

/-- **A temporary string is not changed** by what is evaluated later in its statement, as long as
every string that is made is as long as the length that was asked for. -/
theorem temporary_strings {m m' : Machine} {a : ℕ} {s : List ℕ} (hs : m.bank.StringAt a s)
    (ha : m.tempTop ≤ a) (h : StatementRun m m') : m'.bank.StringAt a s := by
  obtain ⟨-, ⟨-, hbank⟩ | ⟨-, -, heq⟩⟩ := h.addsStrings
  · rwa [hbank]
  · exact hs.copy fun i _ => heq (a + i) (.inr (by omega))

/-- `chr$(65)+upper$("aaaaaaaaaaaaaaaa")`. The literal is at `$410c`, so twelve bytes are asked for. -/
def upperLine : List ℕ :=
  [0x3017, 0x4041, rparenTokenID, 0x240a, 0x301e, 0x0014, 0x6110] ++ List.replicate 7 0x6161 ++
    [0x0061, rparenTokenID, 0]

/-- The two operands of an expression. -/
def operands (m : Machine) : Result ((Value × Machine) × (Value × Machine)) := do
  let r ← evaluateLevel Handler.routine 3 m 0xd0 0x600
  let r' ← evaluateLevel Handler.routine 3 r.2.skipToken 0xd6 0x600
  .ok (r, r')

theorem operands_eq_ok {m : Machine} {r r' : Value × Machine} (h : operands m = .ok (r, r')) :
    evaluateLevel Handler.routine 3 m 0xd0 0x600 = .ok r ∧
      evaluateLevel Handler.routine 3 r.2.skipToken 0xd6 0x600 = .ok r' := by
  obtain ⟨r₁, h₁, h⟩ := Except.bind_eq_ok.mp h
  obtain ⟨r₂, h₂, h⟩ := Except.bind_eq_ok.mp h
  cases h
  exact ⟨h₁, h₂⟩

/-- The second operand overwrites the first one. -/
theorem temporary_strings_upper : ∃ v m₁ v₂ m₂,
    evaluateLevel Handler.routine 3 (commandMachine upperLine) 0xd0 0x600 = .ok (v, m₁) ∧
      m₁.bank.StringAt v.a [65] ∧ m₁.tempTop ≤ v.a ∧
        evaluateLevel Handler.routine 3 m₁.skipToken 0xd6 0x600 = .ok (v₂, m₂) ∧
          ¬m₂.bank.StringAt v.a [65] := by
  obtain ⟨⟨⟨v, m₁⟩, v₂, m₂⟩, h, hs, ht, hne⟩ := Except.exists_of_check
    (r := operands (commandMachine upperLine))
    (P := fun r => r.1.2.bank.StringAt r.1.1.a [65] ∧ r.1.2.tempTop ≤ r.1.1.a ∧
      ¬r.2.2.bank.StringAt r.1.1.a [65]) (by decide +kernel)
  obtain ⟨h₁, h₂⟩ := operands_eq_ok h
  exact ⟨v, m₁, v₂, m₂, h₁, hs, ht, h₂, hne⟩

/-- `chr$(65)+chr$(66)`. -/
theorem temporary_strings_chr : ∃ v m₁ r,
    evaluateLevel Handler.routine 3 (commandMachine [0x3017, 0x4041, rparenTokenID, 0x240a, 0x3017,
      0x4042, rparenTokenID, 0]) 0xd0 0x600 = .ok (v, m₁) ∧
        evaluateLevel Handler.routine 3 m₁.skipToken 0xd6 0x600 = .ok r ∧
          r.2.bank.StringAt v.a [65] := by
  obtain ⟨⟨⟨v, m₁⟩, r⟩, h, hs, ht, hfit⟩ := Except.exists_of_check
    (r := operands (commandMachine [0x3017, 0x4041, rparenTokenID, 0x240a, 0x3017, 0x4042,
      rparenTokenID, 0]))
    (P := fun r => r.1.2.bank.StringAt r.1.1.a [65] ∧ r.1.2.tempTop ≤ r.1.1.a ∧
      (evaluateLevel (Handler.checked StringRequest.InBlock) 3 r.1.2.skipToken 0xd6
        0x600).isOk = true) (by decide +kernel)
  obtain ⟨h₁, h₂⟩ := operands_eq_ok h
  have hrun : StatementRun m₁ r.2 := by
    have hskip : StatementRun m₁ m₁.skipToken :=
      .registers .refl ⟨rfl, rfl, rfl, rfl, rfl, rfl, rfl, rfl, rfl⟩
    refine .evaluate hskip ?_ h₂
    cases hr : evaluateLevel (Handler.checked StringRequest.InBlock) 3 m₁.skipToken 0xd6 0x600 with
    | ok r' => exact ⟨r', hr⟩
    | error e =>
      rw [hr] at hfit
      cases hfit
  exact ⟨v, m₁, r, h₁, h₂, temporary_strings hs ht hrun⟩

end Basic65816
