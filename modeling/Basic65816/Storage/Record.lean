import Basic65816.Lib.Outcome
import Basic65816.Machine.Variable

/-!
# Making a record

`VariableCreate` in parts: the record is allocated and cleared, its name is copied if it stands in the
token buffer, and the record is linked in at the head of its chain.

## Main definitions

* `Machine.openRecord`, `Machine.link`: the parts

## Main results

* `variableCreate_eq`: `VariableCreate` is made of the parts
* `variableCreate_outcome`: what a success and a failure leave behind
-/

namespace Basic65816

namespace Machine

variable (m : Machine) {y z a : ℕ}

theorem block_lt (y : ℕ) : m.block y < 0x10000 := m.bank.word_lt _

theorem block_setBlock (h : a < 0x10000) : (m.setBlock y a).block y = a :=
  Memory.word_setWord h

theorem block_setBlock_of_disjoint (h : z + 2 ≤ y ∨ y + 2 ≤ z) :
    (m.setBlock y a).block z = m.block z := by
  have h' : m.dBaseAddress + z + 2 ≤ m.dBaseAddress + y ∨
      m.dBaseAddress + y + 2 ≤ m.dBaseAddress + z := by omega
  exact Memory.word_setWord_of_disjoint h'

/-- The low memory pointer is moved over a record. -/
def takeRecord : Machine :=
  m.setBlock blockLowMemoryPtr (add16 (m.block blockLowMemoryPtr) 8)

/-- The record at `y` is cleared and gets the head of its chain as its link. -/
def openRecord (y : ℕ) : Machine :=
  let m₁ := { m with bank := (m.bank.setWord (y + 4) 0).setWord (y + 6) 0 }
  { m₁ with
    bank := m₁.bank.setWord y (m₁.bank.word m₁.dHashTablePtr)
    dTemp1 := add16 blockProgramStart m.dBaseAddress }

/-- The record at `y` gets its name and becomes the head of its chain. -/
def link (y name : ℕ) : Machine :=
  { m with bank := (m.bank.setWord (y + 2) name).setWord m.dHashTablePtr y }

end Machine

section

variable {m : Machine} {fuel : ℕ}

/-- `VariableCreate`, part by part. -/
theorem variableCreate_eq : variableCreate fuel m =
    if m.takeRecord.block blockHighMemoryPtr ≤ add16 (m.block blockLowMemoryPtr) 8 then
      fail m.takeRecord .outOfMemory
    else if m.dCodePtr < add16 blockProgramStart m.dBaseAddress then
      vcCloneIdentifier fuel (m.takeRecord.openRecord (m.block blockLowMemoryPtr)) m.dCodePtr >>=
        fun r => vcSkipToken fuel (r.2.link (m.block blockLowMemoryPtr) r.1) >>= fun m' =>
          .ok (add16 (m.block blockLowMemoryPtr) 4, m')
    else
      vcSkipToken fuel ((m.takeRecord.openRecord (m.block blockLowMemoryPtr)).link
        (m.block blockLowMemoryPtr) m.dCodePtr) >>= fun m' =>
          .ok (add16 (m.block blockLowMemoryPtr) 4, m') := rfl

/-- Skipping an identifier changes the code pointer only, and can only run out of fuel. -/
theorem vcSkipToken_outcome (fuel k : ℕ) (m : Machine) :
    Outcome (fun m' => m'.bank = m.bank) (· = .outOfFuel) (vcSkipToken fuel m)
      (vcSkipToken (fuel + k) m) := by
  induction fuel generalizing m with
  | zero => exact .error rfl
  | succ fuel ih =>
    rw [Nat.add_right_comm]
    exact .ite (fun _ => ih m.skipToken) fun _ => .ok rfl

/-- Copying an identifier keeps the pointer to its chain, and can only run out of fuel. -/
theorem vcCloneLoop_outcome (fuel k : ℕ) (m : Machine) (x : ℕ) :
    Outcome (fun m' => m'.dHashTablePtr = m.dHashTablePtr) (· = .outOfFuel)
      (vcCloneLoop fuel m x) (vcCloneLoop (fuel + k) m x) := by
  induction fuel generalizing m x with
  | zero => exact .error rfl
  | succ fuel ih =>
    rw [Nat.add_right_comm]
    exact .ite (fun _ => (ih _ _).mono fun _ h => h) fun _ => .ok rfl

/-- A record that is linked is the head of its chain. -/
theorem word_link (m : Machine) {y : ℕ} (name : ℕ) (h : y < 0x10000) :
    (m.link y name).bank.word m.dHashTablePtr = y :=
  Memory.word_setWord h

/-- A record that is made is the head of its chain; one that cannot be made has moved the low memory
pointer. -/
theorem variableCreate_outcome (fuel k : ℕ) (m : Machine) :
    Outcome (fun r => r.2.bank.word m.dHashTablePtr = m.block blockLowMemoryPtr)
      (fun s => ∀ e m', s = .error e m' → e = .outOfMemory ∧ m' = m.takeRecord)
      (variableCreate fuel m) (variableCreate (fuel + k) m) := by
  have hfuel : ∀ s : Stop, s = .outOfFuel → ∀ e m', s = .error e m' →
      e = .outOfMemory ∧ m' = m.takeRecord := by
    rintro s rfl e m' h
    cases h
  have hlink : ∀ (m₁ : Machine) (name : ℕ), m₁.dHashTablePtr = m.dHashTablePtr →
      Outcome (fun r => r.2.bank.word m.dHashTablePtr = m.block blockLowMemoryPtr)
        (fun s => ∀ e m', s = .error e m' → e = .outOfMemory ∧ m' = m.takeRecord)
        (vcSkipToken fuel (m₁.link (m.block blockLowMemoryPtr) name) >>= fun m' =>
          .ok (add16 (m.block blockLowMemoryPtr) 4, m'))
        (vcSkipToken (fuel + k) (m₁.link (m.block blockLowMemoryPtr) name) >>= fun m' =>
          .ok (add16 (m.block blockLowMemoryPtr) 4, m')) := by
    intro m₁ name h₁
    refine ((vcSkipToken_outcome fuel k _).imp (fun _ h => h) hfuel).bind fun m₂ h₂ => .ok ?_
    change m₂.bank.word m.dHashTablePtr = _
    rw [h₂, ← h₁]
    exact word_link m₁ name (m.block_lt _)
  rw [variableCreate_eq, variableCreate_eq]
  refine .ite (fun _ => .error ?_) fun _ => .ite (fun _ => ?_) fun _ => hlink _ _ rfl
  · rintro e m' h
    cases h
    exact ⟨rfl, rfl⟩
  · refine Outcome.bind (P := fun r => r.2.dHashTablePtr = m.dHashTablePtr) ?_ ?_
    · exact ((vcCloneLoop_outcome fuel k _ _).imp (fun _ h => h) hfuel).bind fun m₁ h₁ => .ok h₁
    · rintro ⟨name, m₁⟩ h₁
      exact hlink m₁ name h₁

end

end Basic65816
