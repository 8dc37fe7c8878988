import Basic65816.Expression.Surroundings
import Basic65816.Machine.Procedure
import Basic65816.Storage.Record

/-!
# Failing allocations

Every allocator moves its pointer before it looks whether there is room, and `dim` links the record
of an array before the size is known. So a statement that ends in an error of the allocation leaves
the store changed: this module finds, for each statement, the step that fails, and compares the store
before that step with the store it leaves.

## Main definitions

* `AllocatingStatement`: the statements that allocate permanent memory
* `Machine.SameStore`: pointers, chains, records and strings are the same
* `FailedAllocation`: a failing step, the state before it and the state it has reached
* `AllocatingStatement.Allocates`: the states in which the steps of a statement begin

## Main results

* `allocation_failure`: a failing step never leaves the store as it was
-/

namespace Basic65816

/-- The statements that allocate permanent memory. The parameter set-up of a procedure is entered with
the code pointer behind the name of the definition. -/
inductive AllocatingStatement
  | assignment | loop | makeLocal | dim | parameters
  deriving DecidableEq, Repr

/-- Execute the statement at the code pointer. -/
def AllocatingStatement.run (fuel : ℕ) (m : Machine) : AllocatingStatement → Result Machine
  | .assignment => commandLet fuel m
  | .loop => commandFor fuel m
  | .makeLocal => commandLocal fuel m
  | .dim => functionDim fuel m
  | .parameters => fproParameter fuel m

/-- The store is the same: both pointers, the fast variables and the hash chains, the program and the
records and arrays behind it, and the blocks of the strings. -/
structure Machine.SameStore (m m' : Machine) : Prop where
  low : m'.block blockLowMemoryPtr = m.block blockLowMemoryPtr
  high : m'.block blockHighMemoryPtr = m.block blockHighMemoryPtr
  chains : Memory.EqOn (m.dBaseAddress + blockFastVariables) (m.dBaseAddress + blockTokenBuffer)
    m.bank m'.bank
  records : Memory.EqOn (m.dBaseAddress + blockProgramStart) (m.block blockLowMemoryPtr)
    m.bank m'.bank
  strings : Memory.EqOn (m.block blockHighMemoryPtr) m.dHighAddress m.bank m'.bank

/-- The store is in order: the header lies below the low memory pointer, the chain of an identifier
begins in the hash table and with a record below the low memory pointer, and the strings begin above
the header. -/
structure Machine.StoreInOrder (m : Machine) : Prop where
  low : m.dBaseAddress + blockProgramStart ≤ m.block blockLowMemoryPtr
  between : m.block blockLowMemoryPtr ≤ m.block blockHighMemoryPtr
  chain : m.bank.word m.dHashTablePtr < m.block blockLowMemoryPtr
  table : m.dBaseAddress + blockHashTable ≤ m.dHashTablePtr
  tableEnd : m.dHashTablePtr + 2 ≤ m.dBaseAddress + blockTokenBuffer

/-- A step that fails with the error `e`: the state `m` before it, the state `m₁` when it has made its
last change to the store, and the state `m'` in which the error is raised. Between `m₁` and `m'` there
is at most the evaluation of a size. -/
inductive FailedAllocation : Error → Machine → Machine → Machine → Prop
  /-- The record of a variable. -/
  | record {fuel : ℕ} {e : Error} {m m' : Machine}
    (h : variableCreate fuel m = .error (.error e m')) : FailedAllocation e m m' m'
  /-- The block of a string, for the string at `a` and the variable whose data is at `y`. -/
  | string {a y : ℕ} {e : Error} {m m' : Machine}
    (h : stringAssign m a y = .error (.error e m')) : FailedAllocation e m m' m'
  /-- An array whose size is out of range. -/
  | size {fuel a : ℕ} {v : Value} {m m₁ m₂ m' : Machine} (h : variableCreate fuel m = .ok (a, m₁))
    (hv : evaluateInteger fuel m₁ = .ok (v, m₂)) (hb : expectRightBracket m₂ = .ok m')
    (hs : v.y ≠ 0 ∨ v.a = 0) : FailedAllocation .dimTooLarge m m₁ m'
  /-- The elements of an array. -/
  | elements {fuel a : ℕ} {e : Error} {v : Value} {m m₁ m₂ m₃ m' : Machine}
    (h : variableCreate fuel m = .ok (a, m₁)) (hv : evaluateInteger fuel m₁ = .ok (v, m₂))
    (hb : expectRightBracket m₂ = .ok m₃) (hs : v.y = 0) (h₀ : v.a ≠ 0)
    (hd : dimCreateArrayBlock m₃ v.a = .error (.error e m')) : FailedAllocation e m m₁ m'

/-! ## What a failing step has changed -/

section

variable {fuel : ℕ} {e : Error} {m m₁ m' : Machine}

/-- A string that cannot be stored has moved the high memory pointer below the low one. -/
theorem saAllocate_fails {a y : ℕ} (h : saAllocate m a y = .error (.error e m')) :
    m'.block blockHighMemoryPtr < m.block blockLowMemoryPtr := by
  unfold saAllocate at h
  dsimp only at h
  split at h
  · have hlow := ‹_ < _›
    cases h
    rw [Machine.block_setBlock _ (sub16_lt _ _)]
    rwa [Machine.block_setBlock_of_disjoint _ (by decide)] at hlow
  · cases h

theorem stringAssign_fails {a y : ℕ} (h : stringAssign m a y = .error (.error e m')) :
    m'.block blockHighMemoryPtr < m.block blockLowMemoryPtr := by
  unfold stringAssign at h
  dsimp only at h
  split at h
  · exact saAllocate_fails h
  split at h
  · exact saAllocate_fails h
  split at h
  · cases h
  split at h
  · exact saAllocate_fails h
  · have hlow := saAllocate_fails h
    rwa [Machine.block_setBlock_of_disjoint _ (by decide)] at hlow

/-- The record of an array is the head of its chain before its size is known. -/
theorem not_sameStore_of_variableCreate {a : ℕ} (hm : m.StoreInOrder)
    (h : variableCreate fuel m = .ok (a, m₁)) : ¬m.SameStore m₁ := by
  intro hs
  have hhead : m₁.bank.word m.dHashTablePtr = m.block blockLowMemoryPtr := by
    have ho := variableCreate_outcome fuel 0 m
    rw [h] at ho
    exact ho.post
  have hlo : m.dBaseAddress + blockFastVariables ≤ m.dHashTablePtr := by
    have := hm.table
    unfold blockHashTable at this
    unfold blockFastVariables
    omega
  have heq := hs.chains.word hlo hm.tableEnd
  have := hm.chain
  omega

/-- **A failing step leaves the store changed**, from every state in which the store is in order. -/
theorem FailedAllocation.not_sameStore (h : FailedAllocation e m m₁ m') (hm : m.StoreInOrder) :
    ¬m.SameStore m₁ := by
  cases h with
  | record h =>
    intro hs
    have ho := variableCreate_outcome ‹_› 0 m
    rw [h] at ho
    have hlow := hs.low
    rw [(ho.stop _ _ rfl).2, Machine.takeRecord, Machine.block_setBlock _ (add16_lt _ _)] at hlow
    have := m.block_lt blockLowMemoryPtr
    unfold add16 at hlow
    omega
  | string h =>
    intro hs
    have hlow := stringAssign_fails h
    have hhigh := hs.high
    have := hm.between
    omega
  | size h _ _ _ => exact not_sameStore_of_variableCreate hm h
  | elements h _ _ _ _ _ => exact not_sameStore_of_variableCreate hm h

end

/-! ## Where a statement fails -/

/-- Where `_FPROSetupLoop` begins to allocate: the record of the parameter, or its string. -/
inductive ParameterAllocates : ℕ → Machine → ℕ → Machine → Prop
  | record {fuel x : ℕ} {m m₀ : Machine} (h : variableFind fuel m = .ok (none, m₀)) :
    ParameterAllocates (fuel + 1) m x m₀
  | string {fuel x : ℕ} {m m₀ : Machine} {r : ℕ × Bool}
    (h : localProcessVariable fuel m = .ok (r, m₀)) : ParameterAllocates (fuel + 1) m x m₀
  | next {fuel x : ℕ} {m m₁ m₂ m₀ : Machine} (h : fproSetup fuel m x = .ok m₁)
    (hc : expectComma m₁ = .ok m₂) (hnext : ParameterAllocates fuel m₂ (add16 x 2) m₀) :
    ParameterAllocates (fuel + 1) m x m₀

/-- Where a statement that is executed in the state `m` begins to allocate. -/
inductive AllocatingStatement.Allocates : ℕ → AllocatingStatement → Machine → Machine → Prop
  /-- The record of the variable that is assigned to. -/
  | target {fuel : ℕ} {m m₀ : Machine} (h : variableFind fuel m = .ok (none, m₀)) :
    Allocates fuel .assignment m { m₀ with dVariablePtr := 0 }
  /-- The string that is assigned. -/
  | string {fuel : ℕ} {v : Value} {m m₁ m₀ : Machine} (h : letTarget fuel m = .ok m₁)
    (hv : evaluateString fuel m₁ = .ok (v, m₀)) : Allocates fuel .assignment m m₀
  /-- The record of the index. -/
  | index {fuel : ℕ} {m m₀ : Machine} (h : variableFind fuel m = .ok (none, m₀)) :
    Allocates fuel .loop m m₀
  /-- The record of the first local variable. -/
  | local_ {fuel : ℕ} {m m₀ : Machine} (h : variableFind fuel m = .ok (none, m₀)) :
    Allocates (fuel + 1) .makeLocal m m₀
  | nextLocal {fuel : ℕ} {r : ℕ × Bool} {m m₁ m₀ : Machine}
    (h : localProcessVariable fuel m = .ok (r, m₁))
    (hnext : Allocates fuel .makeLocal m₁.skipToken m₀) : Allocates (fuel + 1) .makeLocal m m₀
  /-- The record of the first array. -/
  | array {fuel : ℕ} {m m₀ : Machine} (h : variableFind fuel m = .ok (none, m₀)) :
    Allocates (fuel + 1) .dim m m₀
  | nextArray {fuel : ℕ} {m m₁ m₀ : Machine} (h : dimArray fuel m = .ok m₁)
    (hnext : Allocates fuel .dim m₁.skipToken m₀) : Allocates (fuel + 1) .dim m m₀
  /-- Behind the arguments, the parameters. -/
  | parameters {fuel x : ℕ} {m m₁ m₀ : Machine}
    (h : fproGetValues fuel { m with dCodePtr := m.dp (sub16 m.dStack 4) } prmBuffer = .ok (x, m₁))
    (hnext : ParameterAllocates fuel
      { m₁.setDp (sub16 m.dStack 4) m₁.dCodePtr with dCodePtr := m.dCodePtr } prmBuffer m₀) :
    Allocates fuel .parameters m m₀

/-- If it is an error of the allocation, it was raised by a step that failed in a state of `P`. -/
def Stop.FromAllocation (P : Machine → Prop) (s : Stop) : Prop :=
  ∀ e m', s = .error e m' → e.IsAllocation → ∃ m₀ m₁, P m₀ ∧ FailedAllocation e m₀ m₁ m'

section

variable {fuel : ℕ} {m : Machine} {P Q : Machine → Prop}

theorem Stop.FromAllocation.mono {s : Stop} (h : s.FromAllocation P) (hPQ : ∀ m, P m → Q m) :
    s.FromAllocation Q := by
  intro e m' hs he
  obtain ⟨m₀, m₁, hp, hf⟩ := h e m' hs he
  exact ⟨m₀, m₁, hPQ m₀ hp, hf⟩

theorem Stop.Spares.fromAllocation {s : Stop} (h : s.Spares) : s.FromAllocation P := by
  rintro e m' rfl he
  exact absurd he h

theorem fail_fromAllocation {α : Type} {R : α → Prop} {r : Result α} {e : Error}
    (h : ¬e.IsAllocation) : Outcome R (Stop.FromAllocation P) (fail m e) r :=
  .error (Stop.Spares.fromAllocation h)

theorem spares_fromAllocation {α : Type} {R : α → Prop} {r r' : Result α}
    (h : Outcome R Stop.Spares r r') : Outcome R (Stop.FromAllocation P) r r' :=
  h.imp (fun _ h => h) fun _ h => h.fromAllocation

theorem variableCreate_fromAllocation (hm : P m) :
    Outcome (fun _ => True) (Stop.FromAllocation P) (variableCreate fuel m)
      (variableCreate fuel m) := by
  refine .self (fun _ _ => trivial) ?_
  rintro s h e m' rfl _
  exact ⟨m, m', hm, .record h⟩

theorem stringAssign_fromAllocation {a y : ℕ} (hm : P m) :
    Outcome (fun _ => True) (Stop.FromAllocation P) (stringAssign m a y) (stringAssign m a y) := by
  refine .self (fun _ _ => trivial) ?_
  rintro s h e m' rfl _
  exact ⟨m, m', hm, .string h⟩

theorem variableFind_fromAllocation : Outcome (fun _ => True) (Stop.FromAllocation P)
    (variableFind fuel m) (variableFind fuel m) :=
  (spares_fromAllocation (frame_around.find (x := 0) fuel .refl)).mono fun _ _ => trivial

theorem expectToken_fromAllocation {a : ℕ} : Outcome (fun _ => True) (Stop.FromAllocation P)
    (expectToken m a) (expectToken m a) :=
  .ite (fun _ => .ok trivial) fun _ => fail_fromAllocation (by decide)

theorem evaluateInteger_fromAllocation : Outcome (fun _ => True) (Stop.FromAllocation P)
    (evaluateInteger fuel m) (evaluateInteger fuel m) :=
  (spares_fromAllocation (evaluateInteger_around fuel)).mono fun _ _ => trivial

theorem evaluateString_fromAllocation : Outcome (fun _ => True) (Stop.FromAllocation P)
    (evaluateString fuel m) (evaluateString fuel m) :=
  (spares_fromAllocation (evaluateString_around fuel)).mono fun _ _ => trivial

theorem letFind_fromAllocation : Outcome (fun _ => True)
    (Stop.FromAllocation (AllocatingStatement.Allocates fuel .assignment m)) (letFind fuel m)
    (letFind fuel m) := by
  -- that the variable was not found says where the allocation begins
  refine variableFind_fromAllocation.bind_eq ?_
  rintro ⟨data, m₁⟩ h -
  cases data with
  | some a => exact .ok trivial
  | none =>
    refine .ite (fun _ => fail_fromAllocation (by decide)) fun _ => ?_
    exact (variableCreate_fromAllocation (.target h)).bind fun _ _ => .ok trivial

theorem letTarget_fromAllocation : Outcome (fun _ => True)
    (Stop.FromAllocation (AllocatingStatement.Allocates fuel .assignment m)) (letTarget fuel m)
    (letTarget fuel m) := by
  have hend : ∀ m₁ : Machine, Outcome (fun _ => True)
      (Stop.FromAllocation (AllocatingStatement.Allocates fuel .assignment m))
      (if equalTokenID ≠ m₁.token then fail m₁ .missingEquals else .ok m₁.skipToken)
      (if equalTokenID ≠ m₁.token then fail m₁ .missingEquals else .ok m₁.skipToken) :=
    fun m₁ => .ite (fun _ => fail_fromAllocation (by decide)) fun _ => .ok trivial
  refine letFind_fromAllocation.bind fun m₁ _ => .ite (fun _ => hend _) fun _ => ?_
  have hsub := frame_around.subscript (m := m₁) (x := add16 m₁.dStack 2)
    (evaluateLevel_around fuel) .refl m₁.dVariablePtr
  exact (spares_fromAllocation hsub).bind fun _ _ => hend _

theorem commandLet_fromAllocation : Outcome (fun _ => True)
    (Stop.FromAllocation (AllocatingStatement.Allocates fuel .assignment m)) (commandLet fuel m)
    (commandLet fuel m) := by
  refine letTarget_fromAllocation.bind_eq fun m₁ h₁ _ => .ite (fun _ => ?_) fun _ => ?_
  · exact evaluateInteger_fromAllocation.bind fun _ _ => .ok trivial
  · refine evaluateString_fromAllocation.bind_eq ?_
    rintro ⟨v, m₂⟩ h₂ -
    exact stringAssign_fromAllocation (.string h₁ h₂)

theorem forStep_fromAllocation : Outcome (fun _ => True) (Stop.FromAllocation P)
    (forStep fuel m) (forStep fuel m) :=
  .ite (fun _ => evaluateInteger_fromAllocation.bind fun _ _ => .ok trivial) fun _ => .ok trivial

theorem commandFor_fromAllocation : Outcome (fun _ => True)
    (Stop.FromAllocation (AllocatingStatement.Allocates fuel .loop m)) (commandFor fuel m)
    (commandFor fuel m) := by
  refine .ite (fun _ => fail_fromAllocation (by decide)) fun _ => ?_
  have hvar : Outcome (fun _ => True)
      (Stop.FromAllocation (AllocatingStatement.Allocates fuel .loop m)) (forVariable fuel m)
      (forVariable fuel m) := by
    refine variableFind_fromAllocation.bind_eq ?_
    rintro ⟨data, m₁⟩ h -
    cases data with
    | some a => exact .ok trivial
    | none => exact variableCreate_fromAllocation (.index h)
  refine hvar.bind fun _ _ => expectToken_fromAllocation.bind fun _ _ => ?_
  refine evaluateInteger_fromAllocation.bind fun _ _ => expectToken_fromAllocation.bind fun _ _ => ?_
  refine evaluateInteger_fromAllocation.bind fun _ _ => ?_
  exact forStep_fromAllocation.bind fun _ _ => .ok trivial

theorem localProcessVariable_fromAllocation
    (hP : ∀ m₀, variableFind fuel m = .ok (none, m₀) → P m₀) :
    Outcome (fun _ => True) (Stop.FromAllocation P) (localProcessVariable fuel m)
      (localProcessVariable fuel m) := by
  refine .ite (fun _ => fail_fromAllocation (by decide)) fun _ => ?_
  refine .ite (fun _ => fail_fromAllocation (by decide)) fun _ => ?_
  refine variableFind_fromAllocation.bind_eq ?_
  rintro ⟨data, m₁⟩ h -
  cases data with
  | some a => exact .ite (fun _ => .ok trivial) fun _ => .ok trivial
  | none =>
    refine (variableCreate_fromAllocation (hP _ h)).bind fun _ _ => ?_
    exact .ite (fun _ => .ok trivial) fun _ => .ok trivial

theorem commandLocal_fromAllocation : Outcome (fun _ => True)
    (Stop.FromAllocation (AllocatingStatement.Allocates fuel .makeLocal m)) (commandLocal fuel m)
    (commandLocal fuel m) := by
  induction fuel generalizing m with
  | zero => exact .error (Stop.Spares.fromAllocation trivial)
  | succ fuel ih =>
    refine (localProcessVariable_fromAllocation fun _ => .local_).bind_eq ?_
    rintro ⟨r, m₁⟩ h -
    refine .ite (fun _ => ?_) fun _ => .ok trivial
    -- a later variable begins behind the comma
    exact ih.imp (fun _ h => h) fun _ hs => hs.mono fun _ => .nextLocal h

theorem dimArray_fromAllocation (hP : ∀ m₀, variableFind fuel m = .ok (none, m₀) → P m₀) :
    Outcome (fun _ => True) (Stop.FromAllocation P) (dimArray fuel m) (dimArray fuel m) := by
  refine .ite (fun _ => fail_fromAllocation (by decide)) fun _ => ?_
  refine variableFind_fromAllocation.bind_eq ?_
  rintro ⟨data, m₁⟩ h₁ -
  cases data with
  | some a => exact fail_fromAllocation (by decide)
  | none =>
    refine (variableCreate_fromAllocation (hP _ h₁)).bind_eq ?_
    rintro ⟨a, m₂⟩ h₂ -
    refine evaluateInteger_fromAllocation.bind_eq ?_
    rintro ⟨v, m₃⟩ h₃ -
    refine Outcome.bind_eq expectToken_fromAllocation fun m₄ h₄ _ => ?_
    refine .ite (fun hy => .error ?_) fun hy => .ite (fun h₀ => .error ?_) fun h₀ => ?_
    · rintro e m' h -
      cases h
      exact ⟨m₁, m₂, hP _ h₁, .size h₂ h₃ h₄ (.inl hy)⟩
    · rintro e m' h -
      cases h
      exact ⟨m₁, m₂, hP _ h₁, .size h₂ h₃ h₄ (.inr h₀)⟩
    · refine Outcome.bind (P := fun _ => True) (.self (fun _ _ => trivial) ?_) fun _ _ =>
        .ok trivial
      rintro s h e m' rfl -
      exact ⟨m₁, m₂, hP _ h₁, .elements h₂ h₃ h₄ (not_not.mp hy) h₀ h⟩

theorem functionDim_fromAllocation : Outcome (fun _ => True)
    (Stop.FromAllocation (AllocatingStatement.Allocates fuel .dim m)) (functionDim fuel m)
    (functionDim fuel m) := by
  induction fuel generalizing m with
  | zero => exact .error (Stop.Spares.fromAllocation trivial)
  | succ fuel ih =>
    refine (dimArray_fromAllocation fun _ => .array).bind_eq fun m₁ h _ => ?_
    refine .ite (fun _ => ?_) fun _ => .ok trivial
    exact ih.imp (fun _ h => h) fun _ hs => hs.mono fun _ => .nextArray h

theorem fproGetValues_fromAllocation {x : ℕ} : Outcome (fun _ => True) (Stop.FromAllocation P)
    (fproGetValues fuel m x) (fproGetValues fuel m x) := by
  induction fuel generalizing m x with
  | zero => exact .error (Stop.Spares.fromAllocation trivial)
  | succ fuel ih =>
    refine (spares_fromAllocation (evaluate_around fuel)).bind fun _ _ => ?_
    refine .ite (fun _ => ih) fun _ => ?_
    exact .ite (fun _ => fail_fromAllocation (by decide)) fun _ => .ok trivial

theorem fproSetup_fromAllocation {x : ℕ} : Outcome (fun _ => True)
    (Stop.FromAllocation (ParameterAllocates (fuel + 1) m x)) (fproSetup fuel m x)
    (fproSetup fuel m x) := by
  refine (localProcessVariable_fromAllocation fun _ => .record).bind_eq ?_
  rintro ⟨⟨y, c⟩, m₁⟩ h -
  refine .ite (fun _ => ?_) fun _ => ?_
  · exact .ite (fun _ => stringAssign_fromAllocation (.string h)) fun _ =>
      fail_fromAllocation (by decide)
  · exact .ite (fun _ => fail_fromAllocation (by decide)) fun _ => .ok trivial

theorem fproSetupLoop_fromAllocation {x : ℕ} : Outcome (fun _ => True)
    (Stop.FromAllocation (ParameterAllocates fuel m x)) (fproSetupLoop fuel m x)
    (fproSetupLoop fuel m x) := by
  induction fuel generalizing m x with
  | zero => exact .error (Stop.Spares.fromAllocation trivial)
  | succ fuel ih =>
    refine fproSetup_fromAllocation.bind_eq fun m₁ h _ => .ite (fun _ => ?_) fun _ => ?_
    · exact expectToken_fromAllocation
    · refine Outcome.bind_eq expectToken_fromAllocation fun m₂ hc _ => ?_
      exact ih.imp (fun _ h => h) fun _ hs => hs.mono fun _ => .next h hc

theorem AllocatingStatement.fromAllocation (s : AllocatingStatement) :
    Outcome (fun _ => True) (Stop.FromAllocation (s.Allocates fuel m)) (s.run fuel m)
      (s.run fuel m) := by
  cases s with
  | assignment => exact commandLet_fromAllocation
  | loop => exact commandFor_fromAllocation
  | makeLocal => exact commandLocal_fromAllocation
  | dim => exact functionDim_fromAllocation
  | parameters =>
    refine fproGetValues_fromAllocation.bind_eq ?_
    rintro ⟨x, m₁⟩ h -
    exact fproSetupLoop_fromAllocation.imp (fun _ h => h) fun _ hs => hs.mono fun _ => .parameters h

/-- **An error of the allocation never leaves the store as it was**: whatever the statement, it has come
to a state in which a step that allocates began, and that step has changed the store, if the store was
in order before it, and raised the error. -/
theorem allocation_failure (s : AllocatingStatement) {e : Error} {m' : Machine}
    (h : s.run fuel m = .error (.error e m')) (he : e.IsAllocation) :
    ∃ m₀ m₁, s.Allocates fuel m m₀ ∧ FailedAllocation e m₀ m₁ m' ∧
      (m₀.StoreInOrder → ¬m₀.SameStore m₁) := by
  have ho : Outcome (fun _ => True) (Stop.FromAllocation (s.Allocates fuel m)) (s.run fuel m)
      (s.run fuel m) := s.fromAllocation
  rw [h] at ho
  obtain ⟨m₀, m₁, ha, hf⟩ := ho.stop e m' rfl he
  exact ⟨m₀, m₁, ha, hf, hf.not_sameStore⟩

end

/-! ## A full workspace -/

/-- The empty program in a workspace with four bytes left, and a command line that assigns 5 to a
variable that is not there. -/
def fullMachine : Machine :=
  { (default : Machine) with
    dBaseAddress := 0x4000
    dHighAddress := 0x420a
    dCodePtr := 0x4100
    dStack := basStack
    bank := (((((((Memory.ofBytes 0 []).setWord 0x4008 0x4206).setWord 0x400a 0x420a).setWord
      0x4100 0xC040).setWord 0x4102 equalTokenID).setWord 0x4104 0x4005).setWord
      0x4202 0xEEEE).setWord 0x4204 0xEEEE }

/-- The assignment ends in an error, with the high memory pointer below the low one. -/
theorem allocation_failure_full :
    ∃ m', AllocatingStatement.assignment.run 3 fullMachine = .error (.error .outOfMemory m') ∧
      m'.block blockHighMemoryPtr < m'.block blockLowMemoryPtr ∧ ¬fullMachine.SameStore m' := by
  refine ⟨_, rfl, by decide, fun h => ?_⟩
  exact absurd h.low (by decide)

/-- The record of the variable is made in a state in which the store is in order. -/
theorem allocation_failure_step :
    ∃ m', AllocatingStatement.assignment.run 3 fullMachine = .error (.error .outOfMemory m') ∧
      ∃ m₀ m₁, AllocatingStatement.assignment.Allocates 3 fullMachine m₀ ∧
        FailedAllocation .outOfMemory m₀ m₁ m' ∧ m₀.StoreInOrder ∧ ¬m₀.SameStore m₁ := by
  have hrun : ∃ m', AllocatingStatement.assignment.run 3 fullMachine =
      .error (.error .outOfMemory m') := ⟨_, rfl⟩
  obtain ⟨m', h⟩ := hrun
  obtain ⟨m₀, m₁, ha, hf, hstore⟩ := allocation_failure .assignment h (.inl rfl)
  have horder : m₀.StoreInOrder := by
    cases ha with
    | target h =>
      -- the variable is not found in its empty chain
      have hfind : variableFind 3 fullMachine = .ok (none, _) := rfl
      cases hfind.symm.trans h
      exact ⟨by decide, by decide, by decide, by decide, by decide⟩
    | string h _ =>
      have hfails : letTarget 3 fullMachine = .error _ := rfl
      cases hfails.symm.trans h
  exact ⟨m', h, m₀, m₁, ha, hf, horder, hstore horder⟩

end Basic65816
