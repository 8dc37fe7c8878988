import Basic65816.Storage.HeapRuns
import Basic65816.Storage.Runs

/-!
# Runs with variables and strings

A run of the interpreter is a run of the variable store and of the string heap at the same time. The
data of a string variable is a string cell. It is empty when the variable is created, and only
assignments and `endproc` change it afterwards, so that it never has anything but the address of a
string.

## Main definitions

* `identifierType`: the type of a variable
* `stringCells`: the data of the string variables
* `VariableRun`: the states that are reached, with the entries of the map and the frames

## Main results

* `StoreRun.stringStep`: a change of strings keeps the map
* `VariableRun.runs`: the two runs
-/

namespace Basic65816

/-- The type of the variable with the identifier `ws`, which its first word tells: an integer, an
array of integers, a string, an array of strings. -/
def identifierType (ws : List ℕ) : ℕ := chainOf (ws.headD 0) / blockHashTableEntrySize

/-- The data of the string variables. -/
def stringCells (es : List (List ℕ × ℕ)) : Set ℕ := {y | ∃ ws, (ws, y) ∈ es ∧ identifierType ws = 2}

/-- The states that are reached by clearing a workspace with the program `p`, looking up and creating
variables, writing the data of those that are no strings, and assigning, saving and restoring the
strings of string variables. What is stored elsewhere may change at any time. -/
inductive VariableRun (p : Program) :
    Machine → List (List ℕ × ℕ) → List StackFrame → Prop
  | clear {m m' : Machine} (h : m.Holds p)
      (hclear : Settles (fun fuel => clearVariablesPointersAndStacks fuel m) (.ok m')) :
      VariableRun p m' [] []
  | find {m m' : Machine} {es : List (List ℕ × ℕ)} {fs : List StackFrame} {o : Option ℕ}
      (h : VariableRun p m es fs) (hfind : Settles (fun fuel => variableFind fuel m) (.ok (o, m'))) :
      VariableRun p m' es fs
  | create {m m₁ m' : Machine} {es : List (List ℕ × ℕ)} {fs : List StackFrame} {ws : List ℕ} {a : ℕ}
      (h : VariableRun p m es fs) (hi : m.AtIdentifier (m.codeEnd p) ws) (hroom : m.RoomFor ws)
      (hfind : Settles (fun fuel => variableFind fuel m) (.ok (none, m₁)))
      (hcreate : Settles (fun fuel => variableCreate fuel m₁) (.ok (a, m'))) :
      VariableRun p m' ((ws, a) :: es) fs
  | write {m : Machine} {es : List (List ℕ × ℕ)} {fs : List StackFrame} {ws : List ℕ} {a : ℕ}
      {b : Memory} (h : VariableRun p m es fs) (hmem : (ws, a) ∈ es) (htype : identifierType ws ≠ 2)
      (hb : m.bank.EqOff a (a + 4) b) : VariableRun p { m with bank := b } es fs
  | string {m m' : Machine} {es : List (List ℕ × ℕ)} {fs fs' : List StackFrame} {target : Option ℕ}
      (h : VariableRun p m es fs) (hs : StringStep (stringCells es) m fs target m' fs') :
      VariableRun p m' es fs'
  | other {m m' : Machine} {es : List (List ℕ × ℕ)} {fs fs' : List StackFrame}
      (h : VariableRun p m es fs) (hbase : m'.dBaseAddress = m.dBaseAddress)
      (htop : m'.dHighAddress = m.dHighAddress)
      (hhigh : m'.block blockHighMemoryPtr = m.block blockHighMemoryPtr)
      (hlow : m.block blockLowMemoryPtr ≤ m'.block blockLowMemoryPtr)
      (hfree : m'.block blockLowMemoryPtr ≤ m'.block blockHighMemoryPtr)
      (htable : m.bank.EqOn (m.dBaseAddress + 0x80) (m.dBaseAddress + 0x100) m'.bank)
      (hmem : m.bank.EqOn (m.dBaseAddress + blockProgramStart) (m.block blockLowMemoryPtr) m'.bank)
      (hblocks : m.bank.EqOn (m.block blockHighMemoryPtr) m.dHighAddress m'.bank)
      (hf : m'.Frames fs') (hsub : ∀ chars y, .string chars y ∈ fs' → .string chars y ∈ fs) :
      VariableRun p m' es fs'

section

variable {p : Program} {m m' m₁ : Machine} {es : List (List ℕ × ℕ)} {fs fs' : List StackFrame}
  {ys : Set ℕ} {target : Option ℕ} {ws : List ℕ} {a : ℕ}

/-! ## Where the data is -/

/-- The data of the variables is between the program and the low memory pointer, and apart. -/
theorem StoreRun.data (h : StoreRun p m es) :
    (∀ e ∈ es, m.dBaseAddress + 0x200 ≤ e.2 ∧ e.2 + 4 ≤ m.block blockLowMemoryPtr) ∧
      ∀ e ∈ es, ∀ f ∈ es, e ≠ f → e.2 + 4 ≤ f.2 ∨ f.2 + 4 ≤ e.2 := by
  obtain ⟨rs, hs, rfl⟩ := h.store
  have hprogram := hs.program
  unfold blockProgramStart at hprogram
  constructor
  · intro e he
    obtain ⟨r, hr, rfl⟩ := List.mem_map.mp he
    obtain ⟨hlo, hhi, -⟩ := hs.places r hr
    unfold Record.entry
    omega
  · intro e he f hf hne
    obtain ⟨r, hr, rfl⟩ := List.mem_map.mp he
    obtain ⟨s, hs', rfl⟩ := List.mem_map.mp hf
    have hwords : r.words ≠ s.words := fun heq => hne (by rw [hs.eq_of_words hr hs' heq])
    have hapart := hs.apart r hr s hs' hwords
    unfold Record.entry
    omega

theorem StoreRun.cells (h : StoreRun p m es) {y z : ℕ} (hy : y ∈ stringCells es)
    (hz : z ∈ stringCells es) (hne : y ≠ z) : y + 4 ≤ z ∨ z + 4 ≤ y := by
  obtain ⟨ws, hws, -⟩ := hy
  obtain ⟨us, hus, -⟩ := hz
  exact h.data.2 _ hws _ hus fun heq => hne (congrArg Prod.snd heq)

/-! ## Steps -/

/-- Nothing happens to the strings. -/
theorem Machine.LeavesStrings.of_same (hbase : m'.dBaseAddress = m.dBaseAddress)
    (htop : m'.dHighAddress = m.dHighAddress)
    (hhigh : m'.block blockHighMemoryPtr = m.block blockHighMemoryPtr)
    (hlow : m.block blockLowMemoryPtr ≤ m'.block blockLowMemoryPtr)
    (hfree : m'.block blockLowMemoryPtr ≤ m'.block blockHighMemoryPtr)
    (hblocks : m.bank.EqOn (m.block blockHighMemoryPtr) m.dHighAddress m'.bank)
    (hcells : ∀ y ∈ ys, m'.bank.word y = m.bank.word y) : m.LeavesStrings ys m' ys :=
  ⟨hbase, htop, hhigh, hlow, hfree, hblocks, hcells, subset_rfl, fun _ hy => absurd hy.1 hy.2,
    fun _ hy => absurd hy.1 hy.2⟩

/-- **A change of strings** keeps the map, and the words behind the addresses of the strings. -/
theorem StoreRun.stringStep (h : StoreRun p m es) (hs : m.OwnStrings (stringCells es) fs)
    (hstep : StringStep (stringCells es) m fs target m' fs') :
    StoreRun p m' es ∧ ∀ y ∈ stringCells es, m'.bank.word (y + 2) = m.bank.word (y + 2) := by
  obtain ⟨bs, hheap⟩ := hs.heap
  have hlow := hheap.low
  have hfree := hheap.free
  have hplaces : ∀ y ∈ stringCells es, m.dBaseAddress + 0x200 ≤ y ∧
      y + 4 ≤ m.block blockLowMemoryPtr := fun y ⟨ws, hws, _⟩ => h.data.1 _ hws
  cases hstep with
  | assign hy hx hok =>
    rename_i x y
    have hst := hheap.assign hy hx hok
    obtain ⟨ws, hws, -⟩ := id hy
    have hcell := hplaces y hy
    -- for the map this is a write to the data of the variable, followed by changes elsewhere
    obtain ⟨b, hb⟩ : ∃ b : Memory, b = fun c => if y ≤ c ∧ c < y + 4 then m'.bank c else m.bank c :=
      ⟨_, rfl⟩
    have hoff : m.bank.EqOff y (y + 4) b := by
      intro c hc
      rw [hb]
      exact if_neg (by omega)
    have hsame : b.EqOn (m.dBaseAddress + 0xe) (m.block blockLowMemoryPtr) m'.bank := by
      intro c h₀ h₁
      rw [hb]
      dsimp only
      split_ifs with hc
      · rfl
      · exact hst.below c h₀ h₁ (by omega)
    have hlowb : Machine.block { m with bank := b } blockLowMemoryPtr = m.block blockLowMemoryPtr :=
      hoff.word (.inl (by unfold blockLowMemoryPtr; dsimp only; omega))
    refine ⟨(h.write hws hoff).other hst.base (hlowb.trans hst.low.symm).le
      (hsame.mono (by dsimp only; omega) (by dsimp only; omega))
      (hsame.mono (by unfold blockProgramStart; dsimp only; omega) hlowb.le), fun z hz => ?_⟩
    have hz' := hplaces z hz
    have hapart : z = y ∨ y + 4 ≤ z ∨ z + 4 ≤ y :=
      (eq_or_ne z y).imp_right fun hne => h.cells hy hz hne.symm
    exact Memory.word_congr (hst.below _ (by omega) (by omega) (by omega))
      (hst.below _ (by omega) (by omega) (by omega))
  | save hy hm =>
    rename_i y
    -- the string goes to the stack, the bank stays
    obtain ⟨hbank, hbase, -⟩ := lpvStringPush_bank m y
    have hlow' : (lpvStringPush m y).block blockLowMemoryPtr = m.block blockLowMemoryPtr := by
      unfold Machine.block
      rw [hbank, hbase]
    exact ⟨h.other hbase hlow'.ge (hbank ▸ .refl _ _ _) (hbank ▸ .refl _ _ _),
      fun z _ => by rw [hbank]⟩
  | restore hm =>
    rename_i chars y
    obtain ⟨hy, hzero, hlen⟩ := hs.saved chars y (List.mem_cons_self ..)
    -- the saved string fits into the block of the cell, above the high memory pointer
    obtain ⟨c, hc, hword, hcap⟩ := hheap.block_of_cell hy hzero
    have habove := hheap.above hc
    have htop := hheap.top
    obtain ⟨hoff, -, hbase, -⟩ := lrString_bank hs.frames hm (by omega)
    have hlow' : (lrString m).block blockLowMemoryPtr = m.block blockLowMemoryPtr := by
      unfold Machine.block
      rw [hbase]
      exact hoff.word (.inl (by unfold blockLowMemoryPtr; omega))
    refine ⟨h.other hbase hlow'.ge (hoff.eqOn (.inl (by omega))) (hoff.eqOn (.inl (by omega))),
      fun z hz => ?_⟩
    have hz' := hplaces z hz
    exact hoff.word (.inl (by omega))

/-- Looking up leaves the stack and the workspace. -/
theorem variableFind_around {o : Option ℕ}
    (h : Settles (fun fuel => variableFind fuel m) (.ok (o, m'))) : m.Around (m.dStack + 2) m' := by
  obtain ⟨fuel, hfuel⟩ := h.exists_fuel
  have hout := frame_around.find (m := m) (x := m.dStack + 2) fuel .refl
  rw [hfuel] at hout
  exact hout.post

theorem Machine.Around.frames (h : m.Around (m.dStack + 2) m') (hf : m.Frames fs) : m'.Frames fs :=
  (h.keepsStack (Nat.le_refl _)).frames hf

/-- **A new variable** has an empty cell if it is a string variable, and no other string changes. -/
theorem StoreRun.create_leaves (h : StoreRun p m es) (hs : m.OwnStrings (stringCells es) fs)
    (hi : m.AtIdentifier (m.codeEnd p) ws) (hroom : m.RoomFor ws)
    (hfind : Settles (fun fuel => variableFind fuel m) (.ok (none, m₁)))
    (hcreate : Settles (fun fuel => variableCreate fuel m₁) (.ok (a, m'))) :
    m.LeavesStrings (stringCells es) m' (stringCells ((ws, a) :: es)) ∧ m'.Frames fs ∧
      m'.bank.word (a + 2) = 0 ∧
      m.bank.EqOn (m.dBaseAddress + 0x100) (m.block blockLowMemoryPtr) m'.bank := by
  obtain ⟨bs, hheap⟩ := hs.heap
  obtain ⟨rs, hstore, -⟩ := h.store
  obtain ⟨m₂, r, hset, rfl, hbase, hstore', -, hmem, -, hlt, -, hhigh, habove, haddress, hlow₀, hhigh₀⟩ :=
    hstore.created (hi.mono (Nat.le_add_right _ 6)) hroom hfind
  obtain ⟨rfl, rfl⟩ := Prod.mk.inj (Except.ok.inj (hcreate.unique hset))
  have hnew := (hstore'.places r (List.mem_cons_self ..)).2.1
  have htop := hheap.top
  have hplaces : ∀ y ∈ stringCells es, m.dBaseAddress + 0x200 ≤ y ∧
      y + 4 ≤ m.block blockLowMemoryPtr := fun y ⟨ws, hws, _⟩ => h.data.1 _ hws
  -- the registers
  have haround := variableFind_around hfind
  have hwork : m₁.Workspace m' := by
    obtain ⟨fuel, hfuel⟩ := hcreate.exists_fuel
    have hout : Outcome (fun r => m₁.Workspace r.2) anyStop (variableCreate fuel m₁)
        (variableCreate fuel m₁) := variableCreate_workspace .refl
    rw [hfuel] at hout
    exact hout.post
  have haround' : m.Around (m.dStack + 2) m' := haround.workspace hwork
  refine ⟨⟨hbase, haround'.high, hhigh, by omega, by omega,
    habove.mono (by omega) (by omega), fun y hy => ?_, fun y ⟨us, hus, ht⟩ =>
      ⟨us, List.mem_cons_of_mem _ hus, ht⟩, ?_, ?_⟩, haround'.frames hs.frames, hhigh₀, hmem⟩
  · have hy' := hplaces y hy
    exact hmem.word (by omega) (by omega)
  -- the only new cell is that of the new record
  all_goals
    have honly : ∀ y ∈ stringCells ((r.words, r.address + 4) :: es) \ stringCells es,
        y = r.address + 4 := by
      rintro y ⟨⟨us, hus, ht⟩, hne⟩
      rcases List.mem_cons.mp hus with heq | hus
      · exact congrArg Prod.snd heq
      · exact absurd ⟨us, hus, ht⟩ hne
  · intro y hy
    obtain rfl := honly y hy
    exact ⟨hlow₀, by omega, by omega⟩
  · intro y hy z hz hne
    exact absurd ((honly y hy).trans (honly z hz).symm) hne

/-! ## Runs -/

/-- **A run** is a run of the variable store and a run of the string heap, and the data of a string
variable is nothing but an address. -/
theorem VariableRun.runs (h : VariableRun p m es fs) :
    StoreRun p m es ∧ StringRun p m (stringCells es) fs ∧
      ∀ y ∈ stringCells es, m.bank.word (y + 2) = 0 := by
  -- by induction on the run: each step is a step of both
  induction h with
  | clear h hclear =>
    have hnone : stringCells [] = ∅ :=
      Set.eq_empty_iff_forall_notMem.mpr fun y ⟨ws, hws, _⟩ => List.not_mem_nil hws
    rw [hnone]
    exact ⟨.clear h hclear, .clear h hclear, fun y hy => hy.elim⟩
  | @find m m' es fs o h hfind ih =>
    obtain ⟨hstore, hstring, hzero⟩ := ih
    obtain ⟨bs, hheap⟩ := hstring.strings.heap
    obtain ⟨hbank, hbase⟩ := variableFind_keeps hfind
    have haround := variableFind_around hfind
    have hblock : ∀ i, m'.block i = m.block i := by
      intro i
      unfold Machine.block
      rw [hbank, hbase]
    refine ⟨hstore.find hfind, hstring.other (.of_same hbase haround.high (hblock _) (hblock _).ge
      ?_ (hbank ▸ .refl _ _ _) fun y _ => by rw [hbank]) (haround.frames hstring.strings.frames)
      fun _ _ hf => hf, fun y hy => by rw [hbank]; exact hzero y hy⟩
    rw [hblock, hblock]
    exact hheap.free
  | @create m m₁ m' es fs ws a h hi hroom hfind hcreate ih =>
    obtain ⟨hstore, hstring, hzero⟩ := ih
    obtain ⟨hleaves, hframes, hnew, hmem⟩ :=
      hstore.create_leaves hstring.strings hi hroom hfind hcreate
    refine ⟨hstore.create hi hroom hfind hcreate, hstring.other hleaves hframes fun _ _ hf => hf, ?_⟩
    rintro y ⟨us, hus, ht⟩
    rcases List.mem_cons.mp hus with heq | hus
    · -- the data of a new record is zero
      obtain ⟨rfl, rfl⟩ := Prod.mk.inj heq
      exact hnew
    · have hplace := hstore.data.1 _ hus
      rw [hmem.word (by dsimp only at hplace; omega) (by dsimp only at hplace; omega)]
      exact hzero y ⟨us, hus, ht⟩
  | @write m es fs ws a b h hmem htype hb ih =>
    obtain ⟨hstore, hstring, hzero⟩ := ih
    obtain ⟨bs, hheap⟩ := hstring.strings.heap
    obtain ⟨hlo, hhi⟩ := hstore.data.1 _ hmem
    dsimp only at hlo hhi
    have hfree := hheap.free
    -- the data is the header's and the strings' neighbour only
    have hblock : ∀ i, i < 0x100 → Machine.block { m with bank := b } i = m.block i := fun i hi =>
      hb.word (.inl (by dsimp only; omega))
    -- what is written is no string
    have hapart : ∀ y ∈ stringCells es, y + 4 ≤ a ∨ a + 4 ≤ y := by
      rintro y ⟨us, hus, ht⟩
      exact hstore.data.2 _ hus _ hmem fun heq => htype ((Prod.mk.inj heq).1 ▸ ht)
    refine ⟨hstore.write hmem hb, hstring.other (.of_same rfl rfl (hblock _ (by decide))
      (hblock _ (by decide)).ge ?_ (hb.eqOn (.inr (by omega))) fun y hy => ?_)
      hstring.strings.frames fun _ _ hf => hf, fun y hy => ?_⟩
    · rw [hblock _ (by decide), hblock _ (by decide)]
      exact hfree
    · have := hapart y hy
      exact hb.word (by omega)
    · have := hapart y hy
      rw [hb.word (by omega)]
      exact hzero y hy
  | string h hs ih =>
    obtain ⟨hstore, hstring, hzero⟩ := ih
    obtain ⟨hstore', hwords⟩ := hstore.stringStep hstring.strings hs
    exact ⟨hstore', hstring.step hs, fun y hy => (hwords y hy).trans (hzero y hy)⟩
  | @other m m' es fs fs' h hbase htop hhigh hlow hfree htable hmem hblocks hf hsub ih =>
    obtain ⟨hstore, hstring, hzero⟩ := ih
    -- the records, with the cells of the strings in them, stay
    have hcells : ∀ y ∈ stringCells es, ∀ i ≤ 2, m'.bank.word (y + i) = m.bank.word (y + i) := by
      rintro y ⟨us, hus, -⟩ i hi
      have hplace := hstore.data.1 _ hus
      dsimp only at hplace
      exact hmem.word (by unfold blockProgramStart; omega) (by omega)
    exact ⟨hstore.other hbase hlow htable hmem, hstring.other (.of_same hbase htop hhigh hlow hfree
      hblocks fun y hy => hcells y hy 0 (by decide)) hf hsub,
      fun y hy => (hcells y hy 2 (by decide)).trans (hzero y hy)⟩

/-! ## A run -/

/-- Statements move the code pointer. -/
theorem VariableRun.move (h : VariableRun p m es fs) (a : ℕ) :
    VariableRun p { m with dCodePtr := a } es fs := by
  obtain ⟨-, hstring, -⟩ := h.runs
  obtain ⟨bs, hheap⟩ := hstring.strings.heap
  exact h.other rfl rfl rfl (Nat.le_refl _) hheap.free (.refl _ _ _) (.refl _ _ _) (.refl _ _ _)
    hstring.strings.frames fun _ _ hf => hf

/-- A variable that is not there can be created. -/
theorem VariableRun.exists_create (h : VariableRun p m es fs)
    (hi : m.AtIdentifier (m.codeEnd p) ws) (hroom : m.RoomFor ws) (hslow : 0xC01A + 1 ≤ ws.headD 0)
    (hnew : ∀ e ∈ es, e.1 ≠ ws) : ∃ m' a, VariableRun p m' ((ws, a) :: es) fs ∧
      m'.dBaseAddress = m.dBaseAddress ∧ m'.dHighAddress = m.dHighAddress ∧
      m'.block blockLowMemoryPtr ≤ m.block blockLowMemoryPtr + 8 + 2 * ws.length ∧
      m'.block blockHighMemoryPtr = m.block blockHighMemoryPtr ∧
      m.bank.EqOn (m.dBaseAddress + 0x100) (m.block blockLowMemoryPtr) m'.bank ∧
      a = m.block blockLowMemoryPtr + 4 ∧ m'.bank.word a = 0 ∧ m'.bank.word (a + 2) = 0 := by
  obtain ⟨hstore, hstring, -⟩ := h.runs
  obtain ⟨rs, hs, hes⟩ := hstore.store
  have hi' := hi.mono (Nat.le_add_right _ 6)
  -- `VariableFind` leaves the chain for the new record
  obtain ⟨t, t', hnone⟩ := hs.find_missing hi' hslow fun r hr =>
    hnew r.entry (hes ▸ List.mem_map_of_mem hr)
  obtain ⟨m', r, hset, rfl, hbase, -, -, hmem, -, -, hbound, hhigh, -, haddress, hlow, hword⟩ :=
    hs.created hi' hroom hnone
  obtain ⟨hleaves, -⟩ := hstore.create_leaves hstring.strings hi hroom hnone hset
  exact ⟨m', _, h.create hi hroom hnone hset, hbase, hleaves.top, hbound, hhigh, hmem,
    congrArg (· + 4) haddress, hlow, hword⟩

/-- A run to a state with `ab=7` and `s$="A"`. -/
theorem VariableRun.two_variables : ∃ m y z,
    VariableRun .empty m [([0xE013], z), ([0xC05B], y)] [] ∧ m.dBaseAddress = 0x4000 ∧
      m.dHighAddress = 0x8000 ∧ m.bank.word y = 7 ∧ m.bank.word (y + 2) = 0 ∧ m.bank.word z ≠ 0 ∧
      m.bank.StringAt (m.bank.word z) (ord "A") := by
  obtain ⟨m, hclear, hm, hbase, htop, hlow, hhigh, hbuffer⟩ := emptyWorkspaceFilled_cleared
  -- a word in the buffer is an identifier
  have hat : ∀ {m : Machine} {a w : ℕ}, m.dBaseAddress = 0x4000 →
      emptyWorkspaceFilled.bank.EqOn 0x4100 0x4200 m.bank → Identifier [w] →
      0x4100 ≤ a ∧ a + 2 ≤ 0x4200 → emptyWorkspaceFilled.bank.word a = w →
      Machine.AtIdentifier { m with dCodePtr := a } (Machine.codeEnd m .empty) [w] := by
    rintro m a w hbase hsame hident ⟨h₀, h₁⟩ hword
    refine ⟨hident, ⟨(hsame.word h₀ h₁).trans hword, trivial⟩, .inl ?_⟩
    unfold blockTokenBuffer blockProgramStart
    rw [List.length_singleton]
    dsimp only
    omega
  have hroom : ∀ {m : Machine} {a w : ℕ}, m.block blockLowMemoryPtr + 10 < m.block blockHighMemoryPtr →
      Machine.RoomFor { m with dCodePtr := a } [w] := by
    intro m a w h
    change m.block blockLowMemoryPtr + 8 + (if _ then 2 * 1 else 0) < m.block blockHighMemoryPtr
    split_ifs <;> omega
  -- `ab` is created
  have hrun := (VariableRun.clear emptyWorkspaceFilled_holds hclear).move 0x4100
  obtain ⟨m₁, y, hrun₁, hbase₁, htop₁, hlow₁, hhigh₁, hmem₁, hy, -, hzero₁⟩ :=
    hrun.exists_create (hat (w := 0xC05B) hbase hbuffer (.last (by decide) (by decide))
      (by decide) (by decide)) (hroom (by omega)) (by decide) fun e he => by cases he
  change m₁.block blockLowMemoryPtr ≤ m.block blockLowMemoryPtr + 8 + 2 * 1 at hlow₁
  change m₁.block blockHighMemoryPtr = m.block blockHighMemoryPtr at hhigh₁
  change m.bank.EqOn (m.dBaseAddress + 0x100) (m.block blockLowMemoryPtr) m₁.bank at hmem₁
  replace hy : y = 0x420A := hy.trans (congrArg (· + 4) hlow)
  replace hbase₁ : m₁.dBaseAddress = 0x4000 := hbase₁.trans hbase
  have hplace := (hrun₁.runs.1.data.1 _ (List.mem_singleton_self _)).2
  dsimp only at hplace
  -- its value is written
  obtain ⟨b, hb⟩ : ∃ b, b = m₁.bank.setWord y 7 := ⟨_, rfl⟩
  have hoff : m₁.bank.EqOff y (y + 4) b :=
    hb ▸ (Memory.EqOff.refl _ _ _).setWord (Nat.le_refl y) (by omega)
  have hvalue : b.word y = 7 := hb ▸ Memory.word_setWord (by decide)
  have hupper : b.word (y + 2) = 0 := by
    rw [hb, Memory.word_setWord_of_disjoint (.inr (Nat.le_refl _)), hzero₁]
  have hrun₂ := (hrun₁.write (List.mem_singleton_self _) (by decide) hoff).move 0x4102
  have hblock₂ : ∀ i, i < 0x100 → Machine.block { m₁ with bank := b } i = m₁.block i := fun i hi =>
    hoff.word (.inl (by dsimp only; omega))
  have hlow₂ := hblock₂ blockLowMemoryPtr (by decide)
  have hhigh₂ := hblock₂ blockHighMemoryPtr (by decide)
  have hbuffer₂ : emptyWorkspaceFilled.bank.EqOn 0x4100 0x4200 b :=
    (hbuffer.trans (hmem₁.mono (by omega) (by omega))).trans (hoff.eqOn (.inl (by omega)))
  -- `s$` is created
  obtain ⟨m₃, z, hrun₃, hbase₃, htop₃, hlow₃, hhigh₃, hmem₃, hz, -⟩ :=
    hrun₂.exists_create (hat (w := 0xE013) hbase₁ hbuffer₂ (.last (by decide) (by decide))
      (by decide) (by decide)) (hroom (by omega)) (by decide) fun e he => by
        rw [List.mem_singleton.mp he]
        exact (by decide : ([0xC05B] : List ℕ) ≠ [0xE013])
  change m₃.block blockLowMemoryPtr ≤ Machine.block { m₁ with bank := b } blockLowMemoryPtr + 8 +
    2 * 1 at hlow₃
  change m₃.block blockHighMemoryPtr = Machine.block { m₁ with bank := b } blockHighMemoryPtr at hhigh₃
  change b.EqOn (m₁.dBaseAddress + 0x100) (Machine.block { m₁ with bank := b } blockLowMemoryPtr)
    m₃.bank at hmem₃
  replace hz : z = m₁.block blockLowMemoryPtr + 4 := hz.trans (congrArg (· + 4) hlow₂)
  replace hbase₃ : m₃.dBaseAddress = 0x4000 := hbase₃.trans hbase₁
  have hplace₃ := (hrun₃.runs.1.data.1 _ (List.mem_cons_self ..)).2
  dsimp only at hplace₃
  -- `A` is assigned
  have hcell : z ∈ stringCells [([0xE013], z), ([0xC05B], y)] :=
    ⟨[0xE013], List.mem_cons_self .., by decide⟩
  have hconstant : m₃.bank.StringAt 0x4180 (ord "A") :=
    Memory.BytesAt.congr (m := emptyWorkspaceFilled.bank) (by decide)
      ((hbuffer₂.trans (hmem₃.mono (by omega) (by omega))).mono (by decide) (by decide))
  have hlength : (ord "A").length = 1 := rfl
  obtain ⟨bs, hheap⟩ := hrun₃.runs.2.1.strings.heap
  obtain ⟨m₄, hx, hok, hs, hstring⟩ := hheap.assign_constant hcell hconstant (by omega) (by omega)
    (by omega) (by omega)
  have hword : ∀ a, y ≤ a → a + 2 ≤ y + 4 → m₄.bank.word a = b.word a := by
    intro a h₀ h₁
    refine (Memory.word_congr (hs.below _ (by omega) (by omega) (.inl (by omega)))
      (hs.below _ (by omega) (by omega) (.inl (by omega)))).trans ?_
    exact hmem₃.word (by omega) (by omega)
  exact ⟨m₄, y, z, hrun₃.string (.assign hcell hx hok), hs.base.trans hbase₃,
    hs.top.trans (htop₃.trans (htop₁.trans htop)), (hword y (Nat.le_refl _) (by omega)).trans hvalue,
    (hword (y + 2) (by omega) (by omega)).trans hupper, hs.nonzero, hstring⟩

end

end Basic65816
