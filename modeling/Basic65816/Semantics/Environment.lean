import Basic65816.Expression.Numeric
import Basic65816.Loops.ForNext
import Basic65816.Storage.Runs

/-!
# Environments

The values of the variables are a function of their names. The single letters always have a value,
the other variables have one as soon as they are created; the first assignment creates them.

## Main definitions

* `DataAt`: where the data of a variable is
* `Machine.Variables`: the values of the variables
* `Environment.define`: a variable is created if it is not there

## Main results

* `Machine.Variables.knows`: an expression finds the variables
* `Machine.Variables.write`: the data of one variable is written
* `Machine.Variables.create`: a variable is created
-/

namespace Basic65816

/-- The data of a variable: single letters have fixed places, the others a record. -/
inductive DataAt (base : ℕ) (rs : List Record) : List ℕ → ℕ → Prop
  | fast {k : ℕ} (hk : k < 26) : DataAt base rs [0xC001 + k] (base + blockFastVariables + 4 * k)
  | record {r : Record} (hr : r ∈ rs) (hslow : 0xC01A + 1 ≤ r.words.headD 0) :
      DataAt base rs r.words (r.address + 4)

/-- The store holds the variables of `σ` and no other ones. -/
structure Machine.Variables (m : Machine) (lo : ℕ) (rs : List Record) (σ : Environment) : Prop where
  store : m.Store lo rs
  value : ∀ name v, σ name = some v ↔ ∃ a, DataAt m.dBaseAddress rs name a ∧ m.index a = v

/-- The variable is created with the value zero if it is not there. -/
def Environment.define (σ : Environment) (name : List ℕ) : Environment :=
  if (σ name).isNone then Function.update σ name (some (0, 0)) else σ

section

variable {m m' m₁ : Machine} {lo a a' : ℕ} {ws name name' : List ℕ} {rs : List Record}
  {σ : Environment} {v : Long}

theorem DataAt.unique (hs : m.Store lo rs) (h : DataAt m.dBaseAddress rs name a)
    (h' : DataAt m.dBaseAddress rs name a') : a = a' := by
  generalize hname : name = ws at h'
  cases h with
  | @fast k hk =>
    cases h' with
    | @fast j hj =>
      have := (List.cons.inj hname).1
      omega
    | record hr hslow =>
      rw [← hname, List.headD_cons] at hslow
      omega
  | record hr hslow =>
    cases h' with
    | fast hj =>
      rw [hname, List.headD_cons] at hslow
      omega
    | record hr' hslow' => rw [hs.eq_of_words hr hr' hname]

/-- A new record leaves the other ones. -/
theorem DataAt.cons {base : ℕ} (r : Record) (h : DataAt base rs name a) :
    DataAt base (r :: rs) name a := by
  cases h with
  | fast hk => exact .fast hk
  | record hr hslow => exact .record (List.mem_cons_of_mem r hr) hslow

/-- The data of different variables are apart. -/
theorem DataAt.apart (hs : m.Store lo rs) (h : DataAt m.dBaseAddress rs name a)
    (h' : DataAt m.dBaseAddress rs name' a') (hne : name ≠ name') : a + 4 ≤ a' ∨ a' + 4 ≤ a := by
  have hprogram := hs.program
  unfold blockProgramStart at hprogram
  cases h with
  | @fast k hk =>
    cases h' with
    | @fast j hj =>
      have : k ≠ j := by
        rintro rfl
        exact hne rfl
      omega
    | record hr hslow =>
      obtain ⟨haddress, -⟩ := hs.places _ hr
      unfold blockFastVariables
      omega
  | record hr hslow =>
    cases h' with
    | @fast j hj =>
      obtain ⟨haddress, -⟩ := hs.places _ hr
      unfold blockFastVariables
      omega
    | record hr' hslow' =>
      have := hs.apart _ hr _ hr' hne
      omega

/-- The data of a variable are fast variables or lie behind the program. -/
theorem DataAt.place (hs : m.Store lo rs) (h : DataAt m.dBaseAddress rs name a) :
    m.dBaseAddress + 0x10 ≤ a ∧ a + 4 ≤ m.dBaseAddress + 0x80 ∨
      lo ≤ a ∧ a + 4 ≤ m.block blockLowMemoryPtr := by
  cases h with
  | fast hk =>
    unfold blockFastVariables
    omega
  | record hr hslow =>
    obtain ⟨h₁, h₂, -⟩ := hs.places _ hr
    omega

/-- A variable is found where its name stands in the code. -/
theorem Machine.Store.finds {next : ℕ} (hs : m.Store lo rs) (h : DataAt m.dBaseAddress rs name a)
    (hbank : m₁.bank = m.bank) (hbase : m₁.dBaseAddress = m.dBaseAddress)
    (ha : m₁.Ahead (name ++ [next])) :
    ∃ p t₁ t₂, Settles (fun fuel => variableFind fuel m₁) (.ok (some a, { m₁ with
      dCodePtr := m₁.dCodePtr + 2 * name.length
      dHashTablePtr := p, dTemp1 := t₁, dTemp2 := t₂ })) := by
  have hbound := ha.2
  rw [List.length_append, List.length_singleton] at hbound
  have hwords := ha.left.1
  have hprogram := hs.program
  have hlow := hs.low
  have hlt := m.block_lt blockLowMemoryPtr
  unfold blockProgramStart at hprogram
  cases h with
  | @fast k hk =>
    rw [List.length_singleton] at hbound ⊢
    have htoken : m₁.token = 0xC001 + k := hwords.1
    have hskip : m₁.skipToken = { m₁ with dCodePtr := m₁.dCodePtr + 2 * 1 } := by
      rw [Machine.skipToken, add16_eq (by omega)]
    refine ⟨m₁.dHashTablePtr, m₁.dTemp1, m₁.dTemp2, .of_forall fun fuel => ?_⟩
    rw [variableFind, htoken, if_neg (by omega), if_pos (by omega),
      fastVariable_eq hk (by rw [hbase]; omega), hskip, Machine.fastPlace, hbase]
  | @record r hr hslow =>
    have hident := (hs.records r hr).ident
    obtain ⟨w, us, hw, -⟩ := hident.head
    have htoken : m₁.token = r.words.headD 0 := by
      rw [hw] at hwords ⊢
      exact hwords.1
    have hptr : hashTablePtr m₁ m₁.token = m.chainHead (chainOf (r.words.headD 0)) := by
      rw [hashTablePtr_eq (by rw [hbase]; omega), htoken, hbase]
      rfl
    have hdistinct : ((rs.filter fun s => s.chain = chainOf (r.words.headD 0)).map
        Record.words).Nodup := hs.distinct.sublist (List.filter_sublist.map _)
    obtain ⟨-, haddress, -⟩ := hs.places r hr
    obtain ⟨t, t', hset⟩ := vfNext_found (m := { m₁ with
        dHashTablePtr := hashTablePtr m₁ m₁.token, dTemp1 := hashTablePtr m₁ m₁.token })
      (r := r)
      (by
        rw [hptr, hbank]
        exact hs.chains _ (chainOf_lt _))
      (fun s hs' => by
        rw [hbank]
        exact hs.records s (mem_chain.mp hs').1)
      hident hwords (by dsimp only; omega) hdistinct (mem_chain.mpr ⟨hr, rfl⟩) rfl
    rw [add16_eq (by omega)] at hset
    refine ⟨_, t, t', hset.congr fun fuel => variableFind_slow ?_ fuel⟩
    rw [htoken]
    exact hslow

/-- **An expression finds the variables.** -/
theorem Machine.Variables.knows (h : m.Variables lo rs σ) : m.Knows σ := by
  intro name v hv m₁ hbank hbase next ha
  obtain ⟨a, hdata, hindex⟩ := (h.value name v).mp hv
  obtain ⟨p, t₁, t₂, hset⟩ := h.store.finds hdata hbank hbase ha
  exact ⟨a, p, t₁, t₂, hset, congrArg Prod.fst hindex, congrArg Prod.snd hindex⟩

/-- The environment is kept with the part of the bank that it depends on. -/
theorem Machine.Variables.congr (h : m.Variables lo rs σ) (hbank : m'.bank = m.bank)
    (hbase : m'.dBaseAddress = m.dBaseAddress) : m'.Variables lo rs σ := by
  refine ⟨h.store.congr hbase ?_ (hbank ▸ .refl _ _ _) (hbank ▸ .refl _ _ _), fun name v => ?_⟩
  · unfold Machine.block
    rw [hbank, hbase]
  · rw [h.value name v, hbase]
    unfold Machine.index
    rw [hbank]

/-! ## Writing -/

/-- The bank with the value `v` at `a`. -/
def Machine.store (m : Machine) (a : ℕ) (v : Long) : Machine :=
  { m with bank := (m.bank.setWord a v.1).setWord (a + 2) v.2 }

theorem Machine.store_eqOff (m : Machine) (a : ℕ) (v : Long) :
    m.bank.EqOff a (a + 4) (m.store a v).bank :=
  ((Memory.EqOff.refl _ _ _).setWord (Nat.le_refl a) (by omega)).setWord (by omega) (by omega)

theorem Machine.index_store (hv : v.Valid) : (m.store a v).index a = v := by
  refine Prod.ext ?_ (Memory.word_setWord hv.2)
  exact (Memory.word_setWord_of_disjoint (.inl (by omega))).trans (Memory.word_setWord hv.1)

/-- **The data of one variable is written.** -/
theorem Machine.Variables.write (h : m.Variables lo rs σ) (ha : DataAt m.dBaseAddress rs name a)
    (hv : v.Valid) : (m.store a v).Variables lo rs (Function.update σ name (some v)) := by
  have hoff := m.store_eqOff a v
  have hprogram := h.store.program
  unfold blockProgramStart at hprogram
  refine ⟨?_, fun name' w => ?_⟩
  · cases ha with
    | fast hk =>
      unfold blockFastVariables at hoff ⊢
      refine h.store.congr rfl (hoff.word ?_).ge (hoff.eqOn (.inr (by omega)))
        (hoff.eqOn (.inr ?_))
      · unfold blockLowMemoryPtr
        omega
      · unfold blockProgramStart
        omega
    | record hr hslow => exact h.store.write hr hoff
  · rcases eq_or_ne name' name with rfl | hne
    · rw [Function.update_self, Option.some.injEq]
      constructor
      · rintro rfl
        exact ⟨a, ha, index_store hv⟩
      · rintro ⟨a', ha', rfl⟩
        obtain rfl := ha.unique h.store ha'
        exact (index_store hv).symm
    · rw [Function.update_of_ne hne, h.value]
      have hsame : ∀ a', DataAt m.dBaseAddress rs name' a' →
          (m.store a v).index a' = m.index a' := by
        intro a' ha'
        have hapart := ha.apart h.store ha' hne.symm
        exact Prod.ext (hoff.word (by omega)) (hoff.word (by omega))
      constructor
      · rintro ⟨a', ha', hw⟩
        exact ⟨a', ha', (hsame a' ha').trans hw⟩
      · rintro ⟨a', ha', hw⟩
        exact ⟨a', ha', (hsame a' ha').symm.trans hw⟩

/-- Writing a variable keeps the program and the pointers. -/
theorem Machine.Variables.write_keeps (h : m.Variables lo rs σ)
    (ha : DataAt m.dBaseAddress rs name a) :
    m.bank.EqOn (m.dBaseAddress + blockProgramStart) lo (m.store a v).bank ∧
      (m.store a v).block blockLowMemoryPtr = m.block blockLowMemoryPtr ∧
      (m.store a v).block blockHighMemoryPtr = m.block blockHighMemoryPtr := by
  have hoff := m.store_eqOff a v
  have hplace := ha.place h.store
  have hprogram := h.store.program
  unfold blockProgramStart at hprogram ⊢
  refine ⟨hoff.eqOn (by omega), hoff.word ?_, hoff.word ?_⟩
  · unfold blockLowMemoryPtr
    change m.dBaseAddress + 8 + 2 ≤ _ ∨ _ ≤ m.dBaseAddress + 8
    omega
  · unfold blockHighMemoryPtr
    change m.dBaseAddress + 10 + 2 ≤ _ ∨ _ ≤ m.dBaseAddress + 10
    omega

end

/-! ## Creating -/

/-- There is room for the variables of `ns` that are not there yet. -/
def Machine.SpaceFor (m : Machine) (ns : Finset (List ℕ)) (σ : Environment) : Prop :=
  m.block blockLowMemoryPtr + 8 * (ns.filter fun name => (σ name).isNone).card <
    m.block blockHighMemoryPtr

/-- The stack, the line and the shift of a constant are kept. -/
structure Machine.Steady (m m' : Machine) : Prop where
  page : m'.page = m.page
  stack : m'.dStack = m.dStack
  line : m'.dLineNumber = m.dLineNumber
  base : m'.dBaseAddress = m.dBaseAddress
  shift : m'.dConstantShift = m.dConstantShift

/-- The record of a variable whose name is in the program, linked to its chain. -/
def Machine.linked (m : Machine) : Machine :=
  (m.takeRecord.openRecord (m.block blockLowMemoryPtr)).link (m.block blockLowMemoryPtr) m.dCodePtr

section

variable {m m' m₁ : Machine} {lo a fuel : ℕ} {name : List ℕ} {rs : List Record} {r : Record}
  {σ : Environment} {v : Long} {ns : Finset (List ℕ)}

theorem vcSkipToken_eq (h : vcSkipToken fuel m = .ok m') :
    m' = { m with dCodePtr := m'.dCodePtr } := by
  induction fuel generalizing m with
  | zero => cases h
  | succ fuel ih =>
    rw [vcSkipToken] at h
    split_ifs at h
    · exact ih (m := m.skipToken) h
    · exact Except.ok.inj h ▸ rfl

/-- A name in the program is not copied. -/
theorem variableCreate_linked (hcode : m.dBaseAddress + blockProgramStart ≤ m.dCodePtr)
    (hbase : m.dBaseAddress + blockProgramStart < 0x10000)
    (hroom : m.block blockLowMemoryPtr + 8 < m.block blockHighMemoryPtr) :
    variableCreate fuel m = vcSkipToken fuel m.linked >>= fun m' =>
      .ok (m.block blockLowMemoryPtr + 4, m') := by
  have hhigh := m.block_lt blockHighMemoryPtr
  have htake : m.takeRecord.block blockHighMemoryPtr = m.block blockHighMemoryPtr :=
    m.block_setBlock_of_disjoint (.inr (by decide))
  have hstart : add16 blockProgramStart m.dBaseAddress = m.dBaseAddress + blockProgramStart := by
    rw [add16_eq (by omega), Nat.add_comm]
  have h₄ : add16 (m.block blockLowMemoryPtr) 4 = m.block blockLowMemoryPtr + 4 :=
    add16_eq (by omega)
  rw [variableCreate_eq, htake, add16_eq (by omega), if_neg (by omega), hstart, if_neg (by omega), h₄]
  rfl

/-- The pointers after a record has been linked. -/
theorem Machine.block_linked (hroom : m.block blockLowMemoryPtr + 8 < 0x10000)
    (hlow : m.dBaseAddress + blockProgramStart ≤ m.block blockLowMemoryPtr)
    (hslot : m.dBaseAddress + 0x80 ≤ m.dHashTablePtr) :
    m.linked.block blockLowMemoryPtr = m.block blockLowMemoryPtr + 8 ∧
      m.linked.block blockHighMemoryPtr = m.block blockHighMemoryPtr := by
  unfold blockProgramStart at hlow
  unfold Machine.linked Machine.link Machine.openRecord Machine.takeRecord Machine.setBlock
  rw [add16_eq hroom]
  generalize m.block blockLowMemoryPtr = q at hroom hlow
  unfold Machine.block blockLowMemoryPtr blockHighMemoryPtr
  dsimp only
  constructor
  · rw [Memory.word_setWord_of_disjoint (.inl (by omega)),
      Memory.word_setWord_of_disjoint (.inl (by omega)),
      Memory.word_setWord_of_disjoint (.inl (by omega)),
      Memory.word_setWord_of_disjoint (.inl (by omega)),
      Memory.word_setWord_of_disjoint (.inl (by omega)), Memory.word_setWord (by omega)]
  · rw [Memory.word_setWord_of_disjoint (.inl (by omega)),
      Memory.word_setWord_of_disjoint (.inl (by omega)),
      Memory.word_setWord_of_disjoint (.inl (by omega)),
      Memory.word_setWord_of_disjoint (.inl (by omega)),
      Memory.word_setWord_of_disjoint (.inl (by omega)),
      Memory.word_setWord_of_disjoint (.inr (by omega))]

/-- The data of a linked record are zero. -/
theorem Machine.index_linked (hlow : m.dBaseAddress + blockProgramStart ≤ m.block blockLowMemoryPtr)
    (hslot : m.dBaseAddress + 0x80 ≤ m.dHashTablePtr ∧
      m.dHashTablePtr + 2 ≤ m.dBaseAddress + 0x100) :
    m.linked.index (m.block blockLowMemoryPtr + 4) = (0, 0) := by
  unfold blockProgramStart at hlow
  unfold Machine.linked Machine.link Machine.openRecord
  generalize m.block blockLowMemoryPtr = q at hlow
  have hslot' : m.takeRecord.dHashTablePtr = m.dHashTablePtr := rfl
  unfold Machine.index
  dsimp only
  rw [hslot']
  refine Prod.ext ?_ ?_
  · dsimp only
    rw [Memory.word_setWord_of_disjoint (by omega),
      Memory.word_setWord_of_disjoint (by omega),
      Memory.word_setWord_of_disjoint (by omega),
      Memory.word_setWord_of_disjoint (by omega), Memory.word_setWord (by decide)]
  · dsimp only
    rw [Memory.word_setWord_of_disjoint (by omega),
      Memory.word_setWord_of_disjoint (by omega),
      Memory.word_setWord_of_disjoint (by omega), Memory.word_setWord (by decide)]

/-- A new record is one more variable, if its data are zero. -/
theorem Machine.Variables.cons (h : m.Variables lo rs σ) (hs : m'.Store lo (r :: rs))
    (hbase : m'.dBaseAddress = m.dBaseAddress) (hslow : 0xC01A + 1 ≤ r.words.headD 0)
    (hne : ∀ s ∈ rs, s.words ≠ r.words) (hzero : m'.index (r.address + 4) = (0, 0))
    (hkeep : ∀ name a, DataAt m.dBaseAddress rs name a → m'.index a = m.index a) :
    m'.Variables lo (r :: rs) (Function.update σ r.words (some (0, 0))) := by
  have hdata : ∀ name a, name ≠ r.words →
      (DataAt m'.dBaseAddress (r :: rs) name a ↔ DataAt m.dBaseAddress rs name a) := by
    intro name a hname
    rw [hbase]
    constructor
    · intro h
      cases h with
      | fast hk => exact .fast hk
      | record hr hslow =>
        rcases List.mem_cons.mp hr with rfl | hr
        · exact (hname rfl).elim
        · exact .record hr hslow
    · exact fun h => h.cons r
  have hnew : DataAt m'.dBaseAddress (r :: rs) r.words (r.address + 4) :=
    .record List.mem_cons_self hslow
  refine ⟨hs, fun name v => ?_⟩
  rcases eq_or_ne name r.words with rfl | hname
  · rw [Function.update_self, Option.some.injEq]
    constructor
    · rintro rfl
      exact ⟨_, hnew, hzero⟩
    · rintro ⟨a, ha, rfl⟩
      obtain rfl := hnew.unique hs ha
      exact hzero.symm
  · rw [Function.update_of_ne hname, h.value]
    constructor
    · rintro ⟨a, ha, hv⟩
      exact ⟨a, (hdata name a hname).mpr ha, (hkeep name a ha).trans hv⟩
    · rintro ⟨a, ha, hv⟩
      have ha' := (hdata name a hname).mp ha
      exact ⟨a, ha', (hkeep name a ha').symm.trans hv⟩

/-- One variable less is missing. -/
theorem card_define (hname : name ∈ ns) (hσ : σ name = none) :
    (ns.filter fun x => (Function.update σ name (some v) x).isNone).card + 1 =
      (ns.filter fun x => (σ x).isNone).card := by
  have heq : (ns.filter fun x => (Function.update σ name (some v) x).isNone) =
      (ns.filter fun x => (σ x).isNone).erase name := by
    ext x
    simp only [Finset.mem_filter, Finset.mem_erase]
    rcases eq_or_ne x name with rfl | hx
    · simp
    · simp [hx]
  rw [heq]
  refine Finset.card_erase_add_one (Finset.mem_filter.mpr ⟨hname, ?_⟩)
  rw [hσ]
  rfl

/-- Finding the variable at the code pointer, and creating it if it is not there. -/
inductive Machine.FindsOrCreates (m : Machine) (a : ℕ) (m' : Machine) : Prop
  | found (h : Settles (fun fuel => variableFind fuel m) (.ok (some a, m')))
  | created {m₁ : Machine} (h : Settles (fun fuel => variableFind fuel m) (.ok (none, m₁)))
      (hcreate : ∀ d, Settles (fun fuel => variableCreate fuel { m₁ with dVariablePtr := d })
        (.ok (a, { m' with dVariablePtr := d })))

/-- A variable that has no value is missing in the store. -/
theorem Machine.Variables.missing (h : m.Variables lo rs σ) (hi : Identifier name)
    (hσ : σ name = none) : 0xC01A + 1 ≤ name.headD 0 ∧ ∀ r ∈ rs, r.words ≠ name := by
  have hnone : ∀ a, ¬ DataAt m.dBaseAddress rs name a := by
    intro a ha
    have hsome := (h.value name _).mpr ⟨a, ha, rfl⟩
    rw [hσ] at hsome
    cases hsome
  have hslow : 0xC01A + 1 ≤ name.headD 0 := by
    obtain ⟨w, us, rfl, hw, hus⟩ := hi.head
    by_contra hlt
    rw [List.headD_cons] at hlt
    obtain rfl := hus (by omega)
    obtain ⟨k, rfl⟩ : ∃ k, w = 0xC001 + k := ⟨w - 0xC001, by omega⟩
    exact hnone _ (.fast (by omega))
  refine ⟨hslow, ?_⟩
  rintro r hr rfl
  exact hnone _ (.record hr hslow)

/-- **Creating a variable** whose name is in the program. -/
theorem Machine.Variables.create (h : m.Variables lo rs σ) (hi : Identifier name)
    (hwords : m.bank.WordsAt m.dCodePtr name)
    (hcode : m.dBaseAddress + blockProgramStart ≤ m.dCodePtr ∧ m.dCodePtr + 2 * name.length + 2 ≤ lo)
    (hroom : m.block blockLowMemoryPtr + 8 < m.block blockHighMemoryPtr) (hσ : σ name = none) :
    ∃ a m' rs', m.FindsOrCreates a m' ∧
      m'.Variables lo rs' (Function.update σ name (some (0, 0))) ∧
      DataAt m'.dBaseAddress rs' name a ∧ m.Steady m' ∧
      m.bank.EqOn (m.dBaseAddress + blockProgramStart) lo m'.bank ∧
      m'.block blockLowMemoryPtr = m.block blockLowMemoryPtr + 8 ∧
      m'.block blockHighMemoryPtr = m.block blockHighMemoryPtr ∧
      m'.dCodePtr = m.dCodePtr + 2 * name.length ∧
      ∀ x b, DataAt m.dBaseAddress rs x b → DataAt m'.dBaseAddress rs' x b := by
  have hs := h.store
  have hlow := hs.low
  have hprogram := hs.program
  have hhigh := m.block_lt blockHighMemoryPtr
  obtain ⟨hslow, hmissing⟩ := h.missing hi hσ
  have hat : m.AtIdentifier lo name := ⟨hi, hwords, .inr ⟨hcode.1, by omega⟩⟩
  have hroomFor : m.RoomFor name := by
    unfold Machine.RoomFor
    rw [if_neg (by omega)]
    exact hroom
  obtain ⟨t, t', hfind⟩ := hs.find_missing hat hslow hmissing
  obtain ⟨m', r, hset, rfl, -, hstore, -, hmem, hfast, -⟩ := hs.created hat hroomFor hfind
  obtain ⟨m₁, hm₁⟩ : ∃ m₁ : Machine, m₁ = { m with
    dHashTablePtr := m.chainHead (chainOf (r.words.headD 0)), dTemp1 := t, dTemp2 := t' } :=
    ⟨_, rfl⟩
  rw [← hm₁] at hfind hset
  have hbase₁ : m₁.dBaseAddress = m.dBaseAddress := by rw [hm₁]
  have hcode₁ : m₁.dCodePtr = m.dCodePtr := by rw [hm₁]
  have hblock₁ : ∀ y, m₁.block y = m.block y := by
    intro y
    rw [hm₁]
    rfl
  have hslot : m₁.dBaseAddress + 0x80 ≤ m₁.dHashTablePtr ∧
      m₁.dHashTablePtr + 2 ≤ m₁.dBaseAddress + 0x100 := by
    have hlt := chainOf_lt (r.words.headD 0)
    rw [hm₁]
    unfold Machine.chainHead blockHashTable
    dsimp only
    omega
  have hsteady : m.Steady m₁.linked := by
    rw [hm₁]
    exact ⟨rfl, rfl, rfl, rfl, rfl⟩
  obtain ⟨hlow₁, hhigh₁⟩ := m₁.block_linked (by rw [hblock₁]; omega) (by rw [hbase₁, hblock₁]; omega)
    hslot.1
  have hindex₁ := m₁.index_linked (by rw [hbase₁, hblock₁]; omega) hslot
  rw [hblock₁] at hlow₁ hhigh₁
  rw [hblock₁] at hindex₁
  -- creating comes to the linked record, whatever is in the cell for the data address
  have hrun : ∀ d fuel, variableCreate fuel { m₁ with dVariablePtr := d } =
      vcSkipToken fuel { m₁.linked with dVariablePtr := d } >>= fun m' =>
        .ok (m.block blockLowMemoryPtr + 4, m') := by
    intro d fuel
    rw [← hblock₁]
    refine variableCreate_linked ?_ ?_ ?_
    · exact hbase₁.symm ▸ hcode₁.symm ▸ hcode.1
    · change m₁.dBaseAddress + _ < _
      omega
    · change m₁.block _ + 8 < m₁.block _
      rw [hblock₁, hblock₁]
      exact hroom
  obtain ⟨fuel, hfuel⟩ := hset.exists_fuel
  obtain ⟨m₂, hskip, hok⟩ := Except.bind_eq_ok.mp ((hrun m₁.dVariablePtr fuel).symm.trans hfuel)
  obtain ⟨haddress, rfl⟩ := Prod.mk.inj (Except.ok.inj hok)
  have hmade := vcSkipToken_eq hskip
  have hbank₂ : m₂.bank = m₁.linked.bank := by rw [hmade]
  have hbase₂ : m₂.dBaseAddress = m₁.linked.dBaseAddress := by rw [hmade]
  rw [hbank₂] at hmem hfast
  replace hmem : m.bank.EqOn (m.dBaseAddress + blockProgramStart) (m.block blockLowMemoryPtr)
      m₁.linked.bank := by
    refine hmem.mono ?_ (Nat.le_refl _)
    unfold blockProgramStart
    omega
  have hpointer : m₁.linked.dCodePtr = m.dCodePtr := hcode₁
  have hspelling : m₁.linked.bank.WordsAt m₁.linked.dCodePtr r.words := by
    rw [hpointer]
    exact hwords.congr (hmem.mono hcode.1 (by omega))
  have hskips : ∀ d, Settles (fun fuel => variableCreate fuel { m₁ with dVariablePtr := d })
      (.ok (r.address + 4, { m₁.linked with
        dCodePtr := m.dCodePtr + 2 * r.words.length, dVariablePtr := d })) := by
    intro d
    have hset := vcSkipToken_spec (m := { m₁.linked with dVariablePtr := d }) hi hspelling (by
      change m₁.linked.dCodePtr + _ < _
      rw [hpointer]
      omega)
    refine (hset.bind (g := fun _ m' => .ok (m.block blockLowMemoryPtr + 4, m'))
      (.of_forall fun _ => ?_)).congr (hrun d)
    rw [← hpointer, ← haddress]
  have hstore' : Machine.Store { m₁.linked with dCodePtr := m.dCodePtr + 2 * r.words.length } lo
      (r :: rs) := by
    refine hstore.congr hbase₂.symm ?_ (hbank₂ ▸ .refl _ _ _) (hbank₂ ▸ .refl _ _ _)
    unfold Machine.block
    rw [hbank₂, hbase₂]
  refine ⟨r.address + 4, { m₁.linked with dCodePtr := m.dCodePtr + 2 * r.words.length }, r :: rs,
    .created hfind hskips, ?_, ?_, ⟨hsteady.page, hsteady.stack, hsteady.line, hsteady.base,
    hsteady.shift⟩, hmem.mono (Nat.le_refl _) hlow, hlow₁, hhigh₁, rfl, fun x b hx => ?_⟩
  · refine h.cons hstore' hsteady.base hslow hmissing ?_ fun name a ha => ?_
    · rw [← haddress]
      exact hindex₁
    · have hkeep : m.bank.EqOn a (a + 4) m₁.linked.bank := by
        rcases ha.place hs with ⟨h₀, h₁⟩ | ⟨h₀, h₁⟩
        · exact hfast.mono h₀ h₁
        · exact hmem.mono (by omega) h₁
      exact Prod.ext (hkeep.word (Nat.le_refl a) (by omega)) (hkeep.word (by omega) (by omega))
  · exact .record List.mem_cons_self hslow
  · refine DataAt.cons r ?_
    rw [show Machine.dBaseAddress _ = m.dBaseAddress from hsteady.base]
    exact hx

/-- **The target of an assignment**, with its name in the program. -/
theorem Machine.Variables.target (h : m.Variables lo rs σ) (hi : Identifier name)
    (hwords : m.bank.WordsAt m.dCodePtr name)
    (hcode : m.dBaseAddress + blockProgramStart ≤ m.dCodePtr ∧ m.dCodePtr + 2 * name.length + 2 ≤ lo)
    (hroom : m.SpaceFor ns σ) (hname : name ∈ ns) :
    ∃ a m' rs', m.FindsOrCreates a m' ∧ m'.Variables lo rs' (σ.define name) ∧
      DataAt m'.dBaseAddress rs' name a ∧ m.Steady m' ∧
      m.bank.EqOn (m.dBaseAddress + blockProgramStart) lo m'.bank ∧ m'.SpaceFor ns (σ.define name) ∧
      m'.dCodePtr = m.dCodePtr + 2 * name.length ∧
      ∀ x b, DataAt m.dBaseAddress rs x b → DataAt m'.dBaseAddress rs' x b := by
  have hlow := h.store.low
  have hlt := m.block_lt blockLowMemoryPtr
  unfold Environment.define
  cases hσ : σ name with
  | some v =>
    obtain ⟨a, ha, -⟩ := (h.value name v).mp hσ
    have hahead : m.Ahead (name ++ [m.bank.word (m.dCodePtr + 2 * name.length)]) := by
      refine ⟨Memory.wordsAt_append.mpr ⟨hwords, rfl, trivial⟩, ?_⟩
      rw [List.length_append, List.length_singleton]
      omega
    obtain ⟨p, t₁, t₂, hset⟩ := h.store.finds ha rfl rfl hahead
    exact ⟨a, _, rs, .found hset, h.congr rfl rfl, ha, ⟨rfl, rfl, rfl, rfl, rfl⟩, .refl _ _ _, hroom,
      rfl, fun _ _ hx => hx⟩
  | none =>
    have hcard := card_define (v := (0, 0)) hname hσ
    unfold Machine.SpaceFor at hroom
    obtain ⟨a, m', rs', hfind, hvars, hdata, hsteady, hmem, hlow', hhigh', hptr, hmore⟩ :=
      h.create hi hwords hcode (by omega) hσ
    refine ⟨a, m', rs', hfind, hvars, hdata, hsteady, hmem, ?_, hptr, hmore⟩
    unfold Machine.SpaceFor
    rw [hlow', hhigh']
    change _ + 8 * (ns.filter fun x => (Function.update σ name (some (0, 0)) x).isNone).card < _
    omega

end

end Basic65816
