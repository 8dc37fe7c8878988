import Basic65816.Machine.Commands
import Basic65816.Program.Session
import Basic65816.Semantics.Refinement

/-!
# Running a stored program

`run` clears all variables but those with a single letter, and begins with the first line. A stored
program whose text is that of a structured program comes to its end with the variables that the meaning
of the program says; what is proved of its meaning holds of the run.

## Main definitions

* `Machine.fastVariables`: the variables behind `run`
* `Machine.Suits`: a workspace with a structured program and space for it
* `Machine.AtEnd`: the end of a program

## Main results

* `run_simulates`: a run of a structured program
-/

namespace Basic65816

open Relation Structured

/-- The variables with a single letter. -/
def Machine.fastVariables (m : Machine) : Environment
  | [w] =>
    if 0xC001 ≤ w ∧ w < 0xC001 + 26 then
      some (m.index (m.dBaseAddress + blockFastVariables + 4 * (w - 0xC001)))
    else none
  | _ => none

/-- The workspace holds the structured program `s`, with separators in front of it and behind it, and
there is space for its variables and its structures. -/
structure Machine.Suits (m : Machine) (p : Program) (s : Stmt) : Prop where
  holds : m.Holds p
  text : ∃ g cs g', codeOf p.lines = g ++ (cs ++ g') ∧ Stmt.Gap false g ∧ s.Laid cs ∧
    Stmt.Gap s.endsLine g'
  numeric : s.Numeric
  shift : m.dConstantShift = 0
  stack : basStack + s.depth < 0x200
  room : m.codeEnd p + 6 +
    8 * (s.targets.toFinset.filter fun name => (m.fastVariables name).isNone).card < m.dHighAddress

/-- Behind the last line. -/
structure Machine.AtEnd (m : Machine) : Prop where
  token : m.token = 0
  line : m.dLineNumber ≠ 0
  link : m.bank.word (add16 m.dCodePtr 2) = 0

section

variable {m m' : Machine} {p : Program} {s : Stmt} {cs g : List (Option ℕ)} {σ σ' : Environment}
  {t : ℕ} {line : Bool}

/-- At the end of a program the next round leaves it. -/
theorem Machine.AtEnd.leaves (h : m.AtEnd) (fuel : ℕ) : frunNextInstruction fuel m = .error .leaves := by
  have htoken : ({ m with dTempStringPointer := 0 } : Machine).token = 0 := h.token
  unfold frunNextInstruction frunEndInstruction frunNextLineNumber
  dsimp only
  rw [htoken, if_pos rfl, if_neg h.line, if_pos h.link]

/-- Behind `clear` there are only the variables with a single letter. -/
theorem Machine.Clear.variables (h : m.Clear p) :
    m.Variables (m.codeEnd p + 6) [] m.fastVariables := by
  refine ⟨⟨?_, h.low.ge, fun c hc => ?_, ?_, ?_, ?_, ?_, List.nodup_nil⟩, fun name v => ⟨?_, ?_⟩⟩
  · unfold Machine.codeEnd
    omega
  · exact (congrArg _ (Nat.add_assoc _ _ _)).trans (h.table c hc)
  iterate 4
    intro r hr
    cases hr
  · intro hv
    unfold Machine.fastVariables at hv
    split at hv
    · rename_i w
      split_ifs at hv with hw
      obtain ⟨k, rfl⟩ := Nat.exists_eq_add_of_le hw.1
      refine ⟨_, .fast (by omega), ?_⟩
      rw [Nat.add_sub_cancel_left] at hv
      exact Option.some.inj hv
    · cases hv
  · rintro ⟨a, ha, rfl⟩
    cases ha with
    | @fast k hk =>
      refine (if_pos ⟨Nat.le_add_right _ _, by omega⟩).trans ?_
      rw [Nat.add_sub_cancel_left]
    | record hr => cases hr

/-! ## Texts of programs -/

theorem tokens_ge {e : Expr} {p : ℕ} (he : e.Numeric) (hw : e.Written p) :
    ∀ t ∈ e.tokens, 0x100 ≤ t := by
  induction e generalizing p with
  | constant shift t =>
    obtain ⟨hs, ht, -⟩ := hw
    intro u hu
    rcases List.mem_append.mp hu with hu | hu
    · have hrange := hs u (by simpa using hu)
      omega
    · obtain rfl := List.mem_singleton.mp hu
      omega
  | «variable» name => exact fun u hu => (Stmt.name_ge hw.1 u hu).trans' (by decide)
  | paren e ih =>
    intro u hu
    rcases List.mem_append.mp hu with hu | hu
    · rcases List.mem_cons.mp hu with rfl | hu
      · decide
      · exact ih he hw u hu
    · obtain rfl := List.mem_singleton.mp hu
      decide
  | neg e ih =>
    intro u hu
    rcases List.mem_cons.mp hu with rfl | hu
    · decide
    · exact ih he hw u hu
  | binary op l r ihl ihr =>
    intro u hu
    rcases List.mem_append.mp hu with hu | hu
    · rcases List.mem_append.mp hu with hu | hu
      · exact ihl he.1 hw.2.1 u hu
      · obtain rfl := List.mem_singleton.mp hu
        cases op <;> decide
    · exact ihr he.2 hw.2.2 u hu
  | _ => exact absurd he id

theorem Stmt.Gap.ge (hg : Gap line g) (ht : some t ∈ g) : 0x100 ≤ t := by
  rcases hg.items _ ht with h | h
  · cases h
  · rw [Option.some.inj h]
    decide

/-- The words of a text are no strings. -/
theorem Stmt.Laid.ge (h : s.Laid cs) (hs : s.Numeric) : ∀ t, some t ∈ cs → 0x100 ≤ t := by
  have hexpr : ∀ {e : Expr} {t : ℕ}, Integer e → t ∈ e.tokens → 0x100 ≤ t := fun he =>
    tokens_ge he.1 he.2 _
  have hname : ∀ {name : List ℕ} {t : ℕ}, Scalar name → t ∈ name → 0x100 ≤ t := fun hn ht =>
    (identifier_ge hn.ident _ ht).le.trans' (by decide)
  induction h with
  | assign word hword =>
    intro t ht
    simp only [List.map_append, List.map_cons, List.mem_append, List.mem_cons, List.mem_map,
      Option.some.injEq, exists_eq_right] at ht
    rcases ht with ht | ht | rfl | ht
    · rcases hword with rfl | rfl
      · cases ht
      · obtain rfl := List.mem_singleton.mp ht
        decide
    · exact hname hs.1 ht
    · decide
    · exact hexpr hs.2 ht
  | seq _ hg _ _ ihs iht =>
    intro t ht
    simp only [List.mem_append] at ht
    rcases ht with ht | ht | ht
    · exact ihs hs.1 t ht
    · exact hg.ge ht
    · exact iht hs.2 t ht
  | ifThen hg _ _ hg' ih =>
    intro t ht
    simp only [List.map_cons, List.mem_append, List.mem_cons, List.mem_map, Option.some.injEq,
      exists_eq_right, List.not_mem_nil, or_false] at ht
    rcases ht with (rfl | ht) | ht | ht | ht | rfl
    · decide
    · exact hexpr hs.1 ht
    · exact hg.ge ht
    · exact ih hs.2 t ht
    · exact hg'.ge ht
    · decide
  | ifElse hg _ _ hg' hh _ hh' ihs iht =>
    intro t ht
    simp only [List.map_cons, List.mem_append, List.mem_cons, List.mem_map, Option.some.injEq,
      exists_eq_right, List.not_mem_nil, or_false] at ht
    rcases ht with (rfl | ht) | ht | ht | ht | rfl | ht | ht | ht | rfl
    · decide
    · exact hexpr hs.1 ht
    · exact hg.ge ht
    · exact ihs hs.2.1 t ht
    · exact hg'.ge ht
    · decide
    · exact hh.ge ht
    · exact iht hs.2.2 t ht
    · exact hh'.ge ht
    · decide
  | ifLine hg _ _ ih =>
    intro t ht
    simp only [List.map_cons, List.map_append, List.map_nil, List.mem_append, List.mem_cons,
      List.mem_map, Option.some.injEq, exists_eq_right, List.not_mem_nil, or_false] at ht
    rcases ht with (rfl | ht | rfl) | ht | ht
    · decide
    · exact hexpr hs.1 ht
    · decide
    · rw [Option.some.inj (hg _ ht)]
      decide
    · exact ih hs.2 t ht
  | whileLoop hg _ _ hg' ih =>
    intro t ht
    simp only [List.map_cons, List.mem_append, List.mem_cons, List.mem_map, Option.some.injEq,
      exists_eq_right, List.not_mem_nil, or_false] at ht
    rcases ht with (rfl | ht) | ht | ht | ht | rfl
    · decide
    · exact hexpr hs.1 ht
    · exact hg.ge ht
    · exact ih hs.2 t ht
    · exact hg'.ge ht
    · decide
  | repeatLoop hg _ hg' ih =>
    intro t ht
    simp only [List.map_cons, List.mem_append, List.mem_cons, List.mem_map, Option.some.injEq,
      exists_eq_right] at ht
    rcases ht with rfl | ht | ht | ht | rfl | ht
    · decide
    · exact hg.ge ht
    · exact ih hs.1 t ht
    · exact hg'.ge ht
    · decide
    · exact hexpr hs.2 ht
  | @forLoop name start limit step s cs g g' var hvar hg _ _ hg' ih =>
    obtain ⟨hn, hstart, hlimit, hstep, hs⟩ := hs
    intro t ht
    simp only [List.map_cons, List.map_append, List.mem_append, List.mem_cons, List.mem_map,
      Option.some.injEq, exists_eq_right] at ht
    rcases ht with (rfl | ht | rfl | ht | rfl | ht | ht) | ht | ht | ht | rfl | ht
    · decide
    · exact hname hn ht
    · decide
    · exact hexpr hstart ht
    · decide
    · exact hexpr hlimit ht
    · cases step with
      | none => cases ht
      | some e =>
        rcases List.mem_cons.mp ht with rfl | ht
        · decide
        · exact hexpr (hstep e rfl) ht
    · exact hg.ge ht
    · exact ih hs t ht
    · exact hg'.ge ht
    · decide
    · rcases hvar with rfl | rfl
      · cases ht
      · exact hname hn ht

theorem mem_codeOf {ls : List Line} {l : Line} (hl : l ∈ ls) (ht : t ∈ l.tokens) :
    some t ∈ codeOf ls := by
  induction ls with
  | nil => cases hl
  | cons k ls ih =>
    rcases List.mem_cons.mp hl with rfl | hl
    · cases ls with
      | nil => exact List.mem_map_of_mem ht
      | cons k' ls => exact List.mem_append_left _ (List.mem_map_of_mem ht)
    · cases ls with
      | nil => cases hl
      | cons k' ls => exact List.mem_append_right _ (List.mem_cons_of_mem _ (ih hl))

/-! ## Runs -/

theorem clearVariablesPointersAndStacks_shift {fuel : ℕ}
    (h : clearVariablesPointersAndStacks fuel m = .ok m') : m'.dConstantShift = m.dConstantShift := by
  have hloop : ∀ (is : List ℕ) (m : Machine),
      (is.foldl (fun m i => m.setBlock (blockHashTable + 2 * i) 0x0000) m).dConstantShift =
        m.dConstantShift := by
    intro is
    induction is with
    | nil => exact fun m => rfl
    | cons i is ih => exact fun m => ih _
  unfold clearVariablesPointersAndStacks at h
  obtain ⟨y, -, h⟩ := Except.bind_eq_ok.mp h
  rw [← Except.ok.inj h]
  unfold stringResetPermanent fcLoop Machine.setBlock
  dsimp only
  exact hloop _ _

/-- Clearing leaves the variables with a single letter alone. -/
theorem Machine.fastVariables_clear (hbase : m'.dBaseAddress = m.dBaseAddress)
    (hkeep : ∀ a, ¬ clearCells m.dBaseAddress (m.codeEnd p) a → m'.bank a = m.bank a) :
    m'.fastVariables = m.fastVariables := by
  have hend : m.dBaseAddress + 0x200 ≤ m.codeEnd p := Nat.le_add_right _ _
  have hword : ∀ a, m.dBaseAddress + 0x10 ≤ a → a + 2 ≤ m.dBaseAddress + 0x80 →
      m'.bank.word a = m.bank.word a := fun a h₁ h₂ =>
    Memory.word_congr (hkeep _ (by unfold clearCells; omega)) (hkeep _ (by unfold clearCells; omega))
  ext1 name
  unfold Machine.fastVariables
  split
  · split_ifs with hw
    · unfold Machine.index
      rw [hbase, hword _ (by unfold blockFastVariables; omega) (by unfold blockFastVariables; omega),
        hword _ (by unfold blockFastVariables; omega) (by unfold blockFastVariables; omega)]
    · rfl
  · rfl

/-- The state in front of the first line. -/
theorem Machine.Suits.begins (h : m.Suits p s) : ∃ m₁ h₀ q k,
    Settles (fun fuel => commandRun fuel m) (.ok m₁) ∧ h₀.hi = m.codeEnd p + 6 ∧
      h₀.base = m.dBaseAddress ∧ h₀.names = s.targets.toFinset ∧
      StoredAt h₀.memory h₀.lo p.lines ∧ ∃ a n, m₁.Executes h₀ m.fastVariables [] a n ∧ h₀.lo ≤ a ∧
        h₀.Code a n (codeOf p.lines) q k ∧ h₀.memory.word q = 0 ∧ h₀.memory.word (q + 2) = 0 ∧
        q + 4 ≤ h₀.hi := by
  obtain ⟨g, cs, g', htext, hg, hlaid, hg'⟩ := h.text
  obtain ⟨m₀, hclear, hc, hbase, hhigh, hkeep⟩ := clearVariablesPointersAndStacks_spec h.holds
  obtain ⟨fuel, hfuel⟩ := hclear.exists_fuel
  have hshift := (clearVariablesPointersAndStacks_shift hfuel).trans h.shift
  have hend : m₀.codeEnd p = m.codeEnd p := by
    unfold Machine.codeEnd
    rw [hbase]
  have hfast := Machine.fastVariables_clear hbase hkeep
  have hroom := hc.room
  have htop := hc.top
  obtain ⟨l, ls, hlines⟩ : ∃ l ls, p.lines = l :: ls := by
    cases hp : p.lines with
    | nil =>
      obtain ⟨t, ht, -⟩ := hlaid.head h.numeric
      obtain ⟨ds, rfl⟩ := List.head?_eq_some_iff.mp ht
      rw [hp] at htext
      simp [codeOf] at htext
    | cons l ls => exact ⟨l, ls, rfl⟩
  have hstored := hc.stored
  rw [hlines] at hstored
  have hfits : m₀.dBaseAddress + blockProgramStart + sizeOfLines (l :: ls) + 2 ≤ m₀.codeEnd p + 6 := by
    unfold Machine.codeEnd
    rw [hlines]
    omega
  obtain ⟨q, k, hcode, hq, hq', hbound⟩ := hstored.codeAt (Nat.le_refl _) hfits fun l' hl' => by
      rw [← hlines] at hl'
      refine ⟨Nat.one_le_iff_ne_zero.mp (p.numbered l' hl').1, fun t ht => ?_⟩
      have hmem := mem_codeOf hl' ht
      rw [htext] at hmem
      rcases List.mem_append.mp hmem with hmem | hmem
      · exact hg.ge hmem
      rcases List.mem_append.mp hmem with hmem | hmem
      · exact hlaid.ge h.numeric t hmem
      · exact hg'.ge hmem
  have hnumber := (p.numbered l (hlines ▸ List.mem_cons_self ..))
  have hstart : add16 m₀.dBaseAddress blockProgramStart = m₀.dBaseAddress + blockProgramStart :=
    add16_eq (by unfold blockProgramStart at *; omega)
  refine ⟨{ m₀ with
      dLineNumber := l.number, dCodePtr := m₀.dBaseAddress + blockProgramStart + 4 },
    ⟨m₀.bank, m₀.dBaseAddress, m₀.codeEnd p + 6, s.targets.toFinset, []⟩, q, k, ?_, by rw [hend], hbase,
    rfl, hc.stored, m₀.dBaseAddress + blockProgramStart + 4, l.number, ?_, Nat.le_add_right _ _,
    hlines ▸ hcode, hq, hq', hbound⟩
  · refine Settles.bind hclear (.of_forall fun fuel => ?_)
    unfold frunNextLineNumber
    rw [hstart, if_neg (by rw [hstored.word_offset]; omega), hstored.word_number,
      add16_eq (by unfold blockProgramStart at *; omega)]
  · refine ⟨rfl, .refl _ _ _, rfl, rfl, ⟨by omega, by omega⟩, hshift, ⟨hc.stack, hc.stack.symm ▸ hc.bottom⟩,
      ⟨[], ?_, fun x hx => by cases hx⟩, ?_⟩
    · rw [← hfast]
      exact hc.variables.congr rfl rfl
    · have hspace := h.room
      have hlow := hc.low
      have hhigh' := hc.high
      unfold Machine.SpaceFor
      change m₀.block blockLowMemoryPtr + _ < m₀.block blockHighMemoryPtr
      rw [hlow, hhigh', hend, hhigh]
      exact hspace

theorem Steps.unique {m₁ m₂ : Machine} (h : Steps m m₁) (h' : Steps m m₂) : m₁ = m₂ :=
  Except.ok.inj (Settles.unique h h')

theorem Machine.AtEnd.not_steps (h : m.AtEnd) : ¬ Steps m m' := fun hs => by
  have hleaves : Settles (fun fuel => frunNextInstruction fuel m) (.error .leaves) := .of_forall h.leaves
  cases hleaves.unique hs

/-- Every state of a run that comes to its end leads there. -/
theorem Reaches.to_end {m₁ m₂ : Machine} (h : Reaches m₁ m₂) (hend : m₂.AtEnd) (h' : Reaches m₁ m') :
    Reaches m' m₂ := by
  have hunique : Relator.RightUnique Steps := fun _ _ _ => Steps.unique
  rcases ReflTransGen.total_of_right_unique hunique h h' with h | h
  · rcases ReflTransGen.cases_head h with rfl | ⟨m₃, hs, -⟩
    · exact .refl
    · exact absurd hs hend.not_steps
  · exact h

/-- **A run of a structured program** leads from each of its states to the end of the program, with the
variables that the meaning of the program says, the stack as at the beginning and the program in its
place. -/
theorem run_simulates (h : m.Suits p s) (hσ : s.Exec m.fastVariables σ') :
    ∃ m₁ m₂ rs, Settles (fun fuel => commandRun fuel m) (.ok m₁) ∧
      Reaches m₁ m₂ ∧ (∀ m', Reaches m₁ m' → Reaches m' m₂) ∧ m₂.AtEnd ∧ m₂.dStack = basStack ∧
      m₂.Variables (m.codeEnd p + 6) rs σ' ∧
        StoredAt m₂.bank (m₂.dBaseAddress + blockProgramStart) p.lines := by
  obtain ⟨g, cs, g', htext, hg, hlaid, hg'⟩ := h.text
  obtain ⟨m₁, h₀, q, k, hrun, hhi, hbase, hnames, hstored, a, n, e, ha, hcode, hq, hq', hbound⟩ := h.begins
  rw [htext] at hcode
  have hle := hcode.le.1
  obtain ⟨m₂, hreach, e₂⟩ := (hlaid.simulated h.numeric).block hg hg' e hcode ha (by omega)
    (.of_zero hq) (fun x hx => by rw [hnames]; exact List.mem_toFinset.mpr hx)
    (by have := h.stack; exact this) hσ
  have hlt := e₂.hi_lt
  obtain ⟨rs, hvars, -⟩ := e₂.store
  have hend : m₂.AtEnd := by
    refine ⟨?_, ?_, ?_⟩
    · rw [e₂.token (by omega) (by omega)]
      exact hq
    · rw [e₂.line]
      exact e₂.number.1
    · rw [e₂.code, add16_eq (by omega), e₂.memory.word (by omega) (by omega)]
      exact hq'
  refine ⟨m₁, m₂, rs, hrun, hreach, fun m' => hreach.to_end hend, hend, e₂.frames.1, hhi ▸ hvars, ?_⟩
  rw [e₂.base]
  refine hstored.congr (e₂.memory.mono (Nat.le_refl _) ?_)
  change h₀.base + blockProgramStart + _ + 2 ≤ _
  rw [hhi, hbase]
  unfold Machine.codeEnd
  omega

end

/-! ## A program -/

namespace Sum

/-- The tokens of the letters `a` and `b`. -/
def nameA : List ℕ := [0xC001]

def nameB : List ℕ := [0xC002]

/-- `b=b+a:a=a-1` -/
def body : Stmt :=
  .seq (.assign nameB (.binary .add (.variable nameB) (.variable nameA)))
    (.assign nameA (.binary .subtract (.variable nameA) (.constant none 0x4001)))

/-- The sum of the numbers up to `a`. -/
def program : Stmt := .seq (.assign nameB (.constant none 0x4000)) (.whileLoop (.variable nameA) body)

/-- What is left to be added. -/
def Left (n : ℕ) (σ : Environment) : Prop :=
  ∃ v w : Long, v.Valid ∧ w.Valid ∧ σ nameA = some v ∧ σ nameB = some w ∧
    (w.toNat + v.toNat * (v.toNat + 1) / 2) % 2 ^ 32 = n

theorem define_of_isSome {name : List ℕ} {v : Long} {σ : Environment} (h : σ name = some v) :
    σ.define name = σ := by
  unfold Environment.define
  rw [h]
  rfl

theorem total_body (n k : ℕ) :
    Total (fun σ => Left n σ ∧ Stmt.test (.variable nameA) σ true ∧
        (σ nameA).elim 0 Long.toNat = k) body.Exec
      fun σ => Left n σ ∧ (σ nameA).elim 0 Long.toNat < k := by
  rintro σ ⟨⟨v, w, hv, hw, ha, hb, hsum⟩, ⟨v', hv', htest⟩, hk⟩
  obtain rfl := Option.some.inj (hv'.symm.trans ha)
  rw [ha] at hk
  change v'.toNat = k at hk
  have hne : v' ≠ (0, 0) := of_decide_eq_true htest.symm
  have hpos : 0 < v'.toNat := by
    by_contra hzero
    refine hne (Prod.ext ?_ ?_) <;> unfold Long.toNat at hzero <;> omega
  have hadd := toNat_addLong w v'
  have hsub := toNat_subLong hv (b := (1, 0)) ⟨by decide, by decide⟩
  change _ = (v'.toNat + 2 ^ 32 - 1) % 2 ^ 32 at hsub
  have hlt := hv.toNat_lt
  obtain ⟨σ₁, hσ₁⟩ : ∃ σ₁, σ₁ = Function.update σ nameB (some (addLong w v')) := ⟨_, rfl⟩
  have ha₁ : σ₁ nameA = some v' := by
    rw [hσ₁, Function.update_of_ne (by decide), ha]
  refine ⟨Function.update σ₁ nameA (some (subLong v' (1, 0))), ⟨σ₁, ⟨addLong w v', ?_, ?_⟩,
    ⟨subLong v' (1, 0), ?_, ?_⟩⟩, ⟨subLong v' (1, 0), addLong w v', valid_subLong _ _, valid_addLong _ _,
    Function.update_self .., ?_, ?_⟩, ?_⟩
  · rw [define_of_isSome hb]
    simp only [Expr.value, ha, hb, Option.bind_some]
    rfl
  · rw [define_of_isSome hb, hσ₁]
  · rw [define_of_isSome ha₁]
    simp only [Expr.value, ha₁, Option.bind_some]
    rfl
  · rw [define_of_isSome ha₁]
  · rw [Function.update_of_ne (by decide), hσ₁, Function.update_self]
  · obtain ⟨u, hu⟩ := Nat.exists_eq_add_of_le' hpos
    rw [hadd, hsub, ← hsum, hu, show (u + 1) * (u + 1 + 1) = u * (u + 1) + 2 * (u + 1) by ring,
      show (u + 1 + 2 ^ 32 - 1) % 2 ^ 32 = u by omega]
    omega
  · rw [Function.update_self]
    change (subLong v' (1, 0)).toNat < k
    omega

/-- **The sum**, modulo `2 ^ 32`: the loop keeps what is left to be added, and `a` becomes smaller. -/
theorem total_program (n : ℕ) :
    Total (fun σ => ∃ v : Long, v.Valid ∧ σ nameA = some v ∧ v.toNat = n) program.Exec
      fun σ => ∃ w : Long, σ nameB = some w ∧ w.toNat = n * (n + 1) / 2 % 2 ^ 32 := by
  have hloop : Total (Left (n * (n + 1) / 2 % 2 ^ 32)) (While (Stmt.test (.variable nameA)) body.Exec)
      fun σ => ∃ w : Long, σ nameB = some w ∧ w.toNat = n * (n + 1) / 2 % 2 ^ 32 := by
    refine Total.while (fun σ => (σ nameA).elim 0 Long.toNat) ?_ (total_body _)
    rintro σ ⟨v, w, hv, hw, ha, hb, hsum⟩
    rcases eq_or_ne v (0, 0) with rfl | hne
    · refine .inr ⟨⟨(0, 0), ha, rfl⟩, w, hb, ?_⟩
      have hlt := hw.toNat_lt
      rw [← hsum]
      change _ = (w.toNat + 0 * (0 + 1) / 2) % 2 ^ 32
      omega
    · exact .inl ⟨v, ha, (decide_eq_true hne).symm⟩
  refine Total.comp ?_ hloop
  rintro σ ⟨v, hv, ha, rfl⟩
  have ha' : (σ.define nameB) nameA = some v := by
    unfold Environment.define
    split_ifs
    · rw [Function.update_of_ne (by decide), ha]
    · exact ha
  refine ⟨_, ⟨(0, 0), rfl, rfl⟩, v, (0, 0), hv, valid_zero, ?_, Function.update_self .., ?_⟩
  · rw [Function.update_of_ne (by decide), ha']
  · rw [show Long.toNat (0, 0) = 0 from rfl, Nat.zero_add]

/-- The program on four lines. -/
def lines : Program where
  lines := [⟨10, [0xC002, 0x2206, 0x4000]⟩, ⟨20, [whileTokenID, 0xC001]⟩,
    ⟨30, [0xC002, 0x2206, 0xC002, 0x240a, 0xC001, colonTokenID, 0xC001, 0x2206, 0xC001, 0x240b, 0x4001]⟩,
    ⟨40, [wendTokenID]⟩]
  ascending := by decide
  numbered := by decide

/-- A workspace with the program and the value 100 of `a`. -/
def workspace : Machine :=
  let words : List ℕ := wordsOfLines lines.lines ++ [0x0000]
  let bank := words.zipIdx.foldl (fun bank w => bank.setWord (0x4200 + 2 * w.2) w.1) (default : Memory)
  { emptyWorkspace with bank := bank.setWord 0x4010 100 }

instance (mem : Memory) : (a : ℕ) → (ws : List ℕ) → Decidable (mem.WordsAt a ws)
  | _, [] => .isTrue trivial
  | a, w :: ws =>
    have := instDecidableWordsAt mem (a + 2) ws
    inferInstanceAs (Decidable (mem.word a = w ∧ mem.WordsAt (a + 2) ws))

theorem workspace_suits : workspace.Suits lines program where
  holds := ⟨⟨by decide +kernel, by decide⟩, by decide, by decide⟩
  text := by
    have hbody : body.Laid _ := .seq (.assign [] (.inl rfl))
      (.colons fun _ h => List.mem_singleton.mp h) (List.cons_ne_nil _ []) (.assign [] (.inl rfl))
    refine ⟨[], codeOf lines.lines, [], rfl, .nil, ?_, .nil⟩
    exact .seq (.assign [] (.inl rfl)) (.lineEnd _) (List.cons_ne_nil _ [])
      (.whileLoop (.lineEnd _) (List.cons_ne_nil _ []) hbody (.lineEnd _))
  numeric := by
    have ha : Stmt.Scalar nameA := ⟨.last (by decide) (by decide), rfl, rfl⟩
    have hb : Stmt.Scalar nameB := ⟨.last (by decide) (by decide), rfl, rfl⟩
    have hva : Stmt.Integer (.variable nameA) := ⟨rfl, ⟨by decide, rfl⟩, rfl⟩
    have hvb : Stmt.Integer (.variable nameB) := ⟨rfl, ⟨by decide, rfl⟩, rfl⟩
    have hconst : ∀ t, 0x4000 ≤ t ∧ t < 0xC000 → Stmt.Integer (.constant none t) := fun t ht =>
      ⟨trivial, fun s hs => (by cases hs), ht⟩
    have hone := hconst 0x4001 (by decide)
    exact ⟨⟨hb, hconst _ (by decide)⟩, hva, ⟨hb, ⟨hvb.1, hva.1⟩, by decide, hvb.2, hva.2⟩,
      ha, ⟨hva.1, hone.1⟩, by decide, hva.2, hone.2⟩
  shift := rfl
  stack := by decide
  room := by decide +kernel

/-- The sum of the numbers up to 100. -/
theorem run_simulates_sum : ∃ σ' m₁ m₂ rs, Settles (fun fuel => commandRun fuel workspace) (.ok m₁) ∧
    Reaches m₁ m₂ ∧ m₂.AtEnd ∧ m₂.Variables (workspace.codeEnd lines + 6) rs σ' ∧
      ∃ w : Long, σ' nameB = some w ∧ w.toNat = 5050 := by
  obtain ⟨σ', hσ, w, hw, hsum⟩ := total_program 100 workspace.fastVariables
    ⟨(100, 0), ⟨by decide, by decide⟩, by decide +kernel, rfl⟩
  obtain ⟨m₁, m₂, rs, hrun, hreach, -, hend, -, hvars, -⟩ := run_simulates workspace_suits hσ
  exact ⟨σ', m₁, m₂, rs, hrun, hreach, hend, hvars, w, hw, hsum⟩

end Sum

end Basic65816
