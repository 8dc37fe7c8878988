import Basic65816.Storage.Create

/-!
# The variable store

The records of the variables are linked into 64 chains. The invariant says where they and their names
are; looking up, creating and writing data keep it.

## Main definitions

* `Machine.Store`: the invariant
* `Machine.AtIdentifier`: an identifier in the program or in the token buffer

## Main results

* `Machine.Store.write`: the data of a variable is no part of the records
* `Machine.Store.find_found`, `Machine.Store.find_missing`: what `VariableFind` reports
* `Machine.Store.create`: a created record
-/

namespace Basic65816

/-- The head cell of a chain. -/
def Machine.chainHead (m : Machine) (c : ℕ) : ℕ := m.dBaseAddress + blockHashTable + 2 * c

/-- The chain of a record. -/
def Record.chain (r : Record) : ℕ := chainOf (r.words.headD 0)

/-- The records of the variable store, the newest one first. They lie between `lo` and the low memory
pointer, their names there or in the program. -/
structure Machine.Store (m : Machine) (lo : ℕ) (rs : List Record) : Prop where
  program : m.dBaseAddress + blockProgramStart ≤ lo
  low : lo ≤ m.block blockLowMemoryPtr
  chains : ∀ c < 64, m.bank.ChainAt (m.chainHead c)
    ((rs.filter fun r => r.chain = c).map Record.address)
  records : ∀ r ∈ rs, r.At m.bank
  places : ∀ r ∈ rs, lo ≤ r.address ∧ r.address + 8 ≤ m.block blockLowMemoryPtr ∧
    m.dBaseAddress + blockProgramStart ≤ r.name ∧
    r.name + 2 * r.words.length ≤ m.block blockLowMemoryPtr
  apart : ∀ r ∈ rs, ∀ s ∈ rs, r.words ≠ s.words →
    r.address + 8 ≤ s.address ∨ s.address + 8 ≤ r.address
  names : ∀ r ∈ rs, ∀ s ∈ rs,
    s.name + 2 * s.words.length ≤ r.address ∨ r.address + 8 ≤ s.name
  distinct : (rs.map Record.words).Nodup

/-- The identifier `ws` is at the code pointer, in the token buffer or in the program, which ends
before `lo`. -/
structure Machine.AtIdentifier (m : Machine) (lo : ℕ) (ws : List ℕ) : Prop where
  ident : Identifier ws
  spelling : m.bank.WordsAt m.dCodePtr ws
  place : m.dBaseAddress + blockTokenBuffer ≤ m.dCodePtr ∧
      m.dCodePtr + 2 * ws.length ≤ m.dBaseAddress + blockProgramStart ∨
    m.dBaseAddress + blockProgramStart ≤ m.dCodePtr ∧ m.dCodePtr + 2 * ws.length ≤ lo

/-- The entry of a record in the map: its identifier and its data address. -/
def Record.entry (r : Record) : List ℕ × ℕ := (r.words, r.address + 4)

section

variable {m m' m₁ : Machine} {lo a : ℕ} {ws : List ℕ} {r : Record} {rs : List Record}

theorem Record.At.congr {mem mem' : Memory} (h : r.At mem)
    (hpointer : mem'.word (r.address + 2) = mem.word (r.address + 2))
    (hname : mem.EqOn r.name (r.name + 2 * r.words.length) mem') : r.At mem' :=
  ⟨h.ident, hpointer.trans h.pointer, h.spelling.congr hname⟩

/-- The records stay when the head cells, the links and the names do. -/
theorem Machine.Store.transfer (h : m.Store lo rs) (hbase : m'.dBaseAddress = m.dBaseAddress)
    (hlow : m.block blockLowMemoryPtr ≤ m'.block blockLowMemoryPtr)
    (hheads : ∀ c < 64, m'.bank.word (m.chainHead c) = m.bank.word (m.chainHead c))
    (hrs : ∀ r ∈ rs, m'.bank.word r.address = m.bank.word r.address ∧ r.At m'.bank) :
    m'.Store lo rs where
  program := by
    rw [hbase]
    exact h.program
  low := h.low.trans hlow
  chains := by
    intro c hc
    unfold chainHead
    rw [hbase]
    refine (h.chains c hc).congr (hheads c hc) fun a ha => ?_
    obtain ⟨r, hr, rfl⟩ := List.mem_map.mp ha
    exact (hrs r (List.mem_of_mem_filter hr)).1
  records := fun r hr => (hrs r hr).2
  places := by
    intro r hr
    obtain ⟨h₁, h₂, h₃, h₄⟩ := h.places r hr
    rw [hbase]
    exact ⟨h₁, h₂.trans hlow, h₃, h₄.trans hlow⟩
  apart := h.apart
  names := h.names
  distinct := h.distinct

/-- Other parts of the bank may change, and the low memory pointer may rise. -/
theorem Machine.Store.congr (h : m.Store lo rs) (hbase : m'.dBaseAddress = m.dBaseAddress)
    (hlow : m.block blockLowMemoryPtr ≤ m'.block blockLowMemoryPtr)
    (htable : m.bank.EqOn (m.dBaseAddress + 0x80) (m.dBaseAddress + 0x100) m'.bank)
    (hmem : m.bank.EqOn (m.dBaseAddress + blockProgramStart) (m.block blockLowMemoryPtr) m'.bank) :
    m'.Store lo rs := by
  have hprogram := h.program
  refine h.transfer hbase hlow (fun c hc => ?_) fun r hr => ?_
  · unfold chainHead blockHashTable
    exact htable.word (by omega) (by omega)
  · obtain ⟨h₁, h₂, h₃, h₄⟩ := h.places r hr
    refine ⟨hmem.word (by omega) (by omega), (h.records r hr).congr ?_ ?_⟩
    · exact hmem.word (by omega) (by omega)
    · exact hmem.mono (by omega) (by omega)

theorem Machine.Store.eq_of_words (h : m.Store lo rs) {s : Record} (hr : r ∈ rs) (hs : s ∈ rs)
    (hwords : r.words = s.words) : r = s :=
  List.inj_on_of_nodup_map h.distinct hr hs hwords

/-- **A write to the data of a variable** keeps the records. -/
theorem Machine.Store.write {b : Memory} (h : m.Store lo rs) (hr : r ∈ rs)
    (hb : m.bank.EqOff (r.address + 4) (r.address + 8) b) :
    Machine.Store { m with bank := b } lo rs := by
  have hprogram := h.program
  obtain ⟨h₁, h₂, -, -⟩ := h.places r hr
  unfold blockProgramStart at hprogram
  have hlow : b.word (m.dBaseAddress + blockLowMemoryPtr) =
      m.bank.word (m.dBaseAddress + blockLowMemoryPtr) := by
    unfold blockLowMemoryPtr
    exact hb.word (.inl (by omega))
  refine h.transfer rfl hlow.ge (fun c hc => ?_) fun s hs => ?_
  · unfold chainHead blockHashTable
    exact hb.word (.inl (by omega))
  · have hname := h.names r hr s hs
    have hbody : s.address + 4 ≤ r.address + 4 ∨ r.address + 8 ≤ s.address := by
      by_cases hwords : s.words = r.words
      · rw [h.eq_of_words hs hr hwords]
        exact .inl (Nat.le_refl _)
      · have hapart := h.apart s hs r hr hwords
        omega
    refine ⟨hb.word (by omega), (h.records s hs).congr (hb.word (by omega)) ?_⟩
    exact hb.eqOn (by omega)

/-! ## Looking up -/

theorem Machine.AtIdentifier.bound (h : m.AtIdentifier lo ws) (hs : m.Store lo rs) :
    m.dCodePtr + 2 * ws.length < 0x10000 ∧ m.dBaseAddress + 0x100 ≤ m.dCodePtr ∧
      m.dCodePtr + 2 * ws.length ≤ m.block blockLowMemoryPtr := by
  have hplace := h.place
  have hlow := hs.low
  have hprogram := hs.program
  have hlt := m.block_lt blockLowMemoryPtr
  unfold blockTokenBuffer blockProgramStart at hplace
  unfold blockProgramStart at hprogram
  omega

/-- The chain in which an identifier is looked up. -/
theorem Machine.Store.chain_of (h : m.Store lo rs) (hi : m.AtIdentifier lo ws) :
    m.token = ws.headD 0 ∧
      hashTablePtr m m.token = m.chainHead (chainOf (ws.headD 0)) ∧
      m.bank.ChainAt (hashTablePtr m m.token)
        ((rs.filter fun r => r.chain = chainOf (ws.headD 0)).map Record.address) := by
  have hprogram := h.program
  have hlow := h.low
  have hlt := m.block_lt blockLowMemoryPtr
  unfold blockProgramStart at hprogram
  have htoken : m.token = ws.headD 0 := by
    obtain ⟨w, us, rfl, -⟩ := hi.ident.head
    exact hi.spelling.1
  have hptr : hashTablePtr m m.token = m.chainHead (chainOf (ws.headD 0)) := by
    rw [hashTablePtr_eq (by omega), htoken]
    rfl
  refine ⟨htoken, hptr, ?_⟩
  rw [hptr]
  exact h.chains _ (chainOf_lt _)

theorem mem_chain {c : ℕ} : (r ∈ rs.filter fun r => r.chain = c) ↔ r ∈ rs ∧ r.chain = c := by
  simp

/-- **`VariableFind` reports the absence** of an identifier that was not created. -/
theorem Machine.Store.find_missing (h : m.Store lo rs) (hi : m.AtIdentifier lo ws)
    (hslow : 0xC01A + 1 ≤ ws.headD 0) (hne : ∀ r ∈ rs, r.words ≠ ws) :
    ∃ t t', Settles (fun fuel => variableFind fuel m) (.ok (none, { m with
      dHashTablePtr := m.chainHead (chainOf (ws.headD 0)), dTemp1 := t, dTemp2 := t' })) := by
  obtain ⟨htoken, hptr, hchain⟩ := h.chain_of hi
  obtain ⟨t, t', hset⟩ := vfNext_missing (m := { m with
      dHashTablePtr := hashTablePtr m m.token, dTemp1 := hashTablePtr m m.token }) hchain
    (fun r hr => h.records r (mem_chain.mp hr).1) hi.ident hi.spelling (hi.bound h).1
    (fun r hr => hne r (mem_chain.mp hr).1)
  refine ⟨t, t', ?_⟩
  rw [← hptr]
  exact hset.congr fun fuel => variableFind_slow (by rw [htoken]; exact hslow) fuel

/-- **`VariableFind` finds** what was created for the identifier. -/
theorem Machine.Store.find_found (h : m.Store lo rs) (hi : m.AtIdentifier lo r.words)
    (hslow : 0xC01A + 1 ≤ r.words.headD 0) (hr : r ∈ rs) :
    ∃ m', Settles (fun fuel => variableFind fuel m) (.ok (some (r.address + 4), m')) ∧
      m'.bank = m.bank ∧ m'.dCodePtr = m.dCodePtr + 2 * r.words.length := by
  obtain ⟨htoken, -, hchain⟩ := h.chain_of hi
  obtain ⟨-, haddress, -⟩ := h.places r hr
  have hlt := m.block_lt blockLowMemoryPtr
  have hdistinct : ((rs.filter fun s => s.chain = chainOf (r.words.headD 0)).map
      Record.words).Nodup := h.distinct.sublist (List.filter_sublist.map _)
  obtain ⟨t, t', hset⟩ := vfNext_found (m := { m with
      dHashTablePtr := hashTablePtr m m.token, dTemp1 := hashTablePtr m m.token }) hchain
    (fun s hs => h.records s (mem_chain.mp hs).1) hi.ident hi.spelling (hi.bound h).1 hdistinct
    (mem_chain.mpr ⟨hr, rfl⟩) rfl
  rw [add16_eq (by omega)] at hset
  exact ⟨_, hset.congr fun fuel => variableFind_slow (by rw [htoken]; exact hslow) fuel, rfl, rfl⟩

/-! ## Creating -/

/-- **A created record** is one more entry of the map; the other parts of the store are kept. -/
theorem Machine.Store.create (h : m.Store lo rs) (hc : m.Created m' r)
    (hslot : m.dHashTablePtr = m.chainHead r.chain)
    (hcode : m.dCodePtr + 2 * r.words.length ≤ lo) (hne : ∀ s ∈ rs, s.words ≠ r.words) :
    m'.Store lo (r :: rs) ∧
      m.bank.EqOn (m.dBaseAddress + blockProgramStart) (m.block blockLowMemoryPtr) m'.bank := by
  obtain ⟨hbase, haddress, hsize, hrecord, hplace, hlink, -, hhead, hkeeps⟩ := hc
  have hprogram := h.program
  have hlow := h.low
  have hchain : r.chain < 64 := chainOf_lt _
  rw [hslot] at hlink hhead hkeeps
  unfold blockProgramStart at hprogram hplace ⊢
  have hmem : m.bank.EqOn (m.dBaseAddress + 0x200) (m.block blockLowMemoryPtr) m'.bank := by
    intro a h₀ h₁
    refine hkeeps a (.inl (by omega)) (.inr (by omega)) (.inr ?_)
    unfold chainHead blockHashTable
    omega
  have hold : ∀ s ∈ rs, m'.bank.word s.address = m.bank.word s.address ∧ s.At m'.bank := by
    intro s hs
    obtain ⟨h₁, h₂, h₃, h₄⟩ := h.places s hs
    unfold blockProgramStart at h₃
    refine ⟨hmem.word (by omega) (by omega), (h.records s hs).congr ?_ ?_⟩
    · exact hmem.word (by omega) (by omega)
    · exact hmem.mono h₃ h₄
  refine ⟨⟨?_, ?_, ?_, ?_, ?_, ?_, ?_, ?_⟩, hmem⟩
  · rw [hbase]
    exact hprogram
  · omega
  · -- the chain of the record has a new head, the other ones stay
    intro c hc
    have hsame : m'.chainHead c = m.chainHead c := by
      unfold chainHead
      rw [hbase]
    rw [hsame]
    have hlinks : ∀ a ∈ (rs.filter fun s => s.chain = c).map Record.address,
        m'.bank.word a = m.bank.word a := by
      intro a ha
      obtain ⟨s, hs, rfl⟩ := List.mem_map.mp ha
      exact (hold s (mem_chain.mp hs).1).1
    by_cases hrc : r.chain = c
    · subst hrc
      rw [List.filter_cons_of_pos (by simp), List.map_cons]
      exact (h.chains _ hc).push (by omega) hlink hhead hlinks
    · rw [List.filter_cons_of_neg (by simpa using hrc)]
      refine (h.chains c hc).congr ?_ hlinks
      unfold chainHead blockHashTable at hkeeps ⊢
      refine Memory.word_congr (hkeeps _ (.inl (by omega)) (.inr (by omega)) (by omega)) ?_
      exact hkeeps _ (.inl (by omega)) (.inr (by omega)) (by omega)
  · intro s hs
    rcases List.mem_cons.mp hs with rfl | hs
    · exact hrecord
    · exact (hold s hs).2
  · intro s hs
    rw [hbase]
    unfold blockProgramStart
    rcases List.mem_cons.mp hs with rfl | hs
    · omega
    · obtain ⟨h₁, h₂, h₃, h₄⟩ := h.places s hs
      unfold blockProgramStart at h₃
      omega
  · intro s hs t ht hwords
    rcases List.mem_cons.mp hs with rfl | hs'
    · rcases List.mem_cons.mp ht with rfl | ht'
      · exact (hwords rfl).elim
      · obtain ⟨-, h₂, -⟩ := h.places t ht'
        omega
    · rcases List.mem_cons.mp ht with rfl | ht'
      · obtain ⟨-, h₂, -⟩ := h.places s hs'
        omega
      · exact h.apart s hs' t ht' hwords
  · intro s hs t ht
    rcases List.mem_cons.mp hs with rfl | hs'
    · rcases List.mem_cons.mp ht with rfl | ht'
      · omega
      · obtain ⟨-, -, -, h₄⟩ := h.places t ht'
        omega
    · rcases List.mem_cons.mp ht with rfl | ht'
      · obtain ⟨h₁, h₂, -⟩ := h.places s hs'
        omega
      · exact h.names s hs' t ht'
  · rw [List.map_cons]
    refine List.nodup_cons.mpr ⟨fun hr => ?_, h.distinct⟩
    obtain ⟨s, hs, hwords⟩ := List.mem_map.mp hr
    exact hne s hs hwords

end

end Basic65816
