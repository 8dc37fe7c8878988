import Basic65816.Listing.Identifier
import Basic65816.Program.Session
import Basic65816.Storage.Map

/-!
# Runs of the variable store

From a cleared workspace on, the variable store is a finite map from identifiers to data addresses. The
entries are listed along the run, and the invariant of the store is kept by each step.

## Main definitions

* `StoreRun`: the states that are reached, with the entries of the map

## Main results

* `identifier_words`: the words of an identifier of the tokenisers
* `StoreRun.store`: the invariant of a run
* `variable_store`: the variable store is a finite map
-/

namespace Basic65816

/-! ## Identifiers of the tokenisers -/

theorem Identifier.of_append {ws : List ℕ} {w : ℕ} (hcont : ∀ u ∈ ws, u &&& idContMask ≠ 0)
    (hlast : w &&& idContMask = 0) (hrange : ∀ u ∈ ws ++ [w], 0xC000 < u) : Identifier (ws ++ [w]) := by
  induction ws with
  | nil => exact .last (hrange w (by simp)) hlast
  | cons u us ih =>
    refine .more (hrange u (by simp)) (hcont u (by simp)) (ih ?_ ?_)
    · exact fun v hv => hcont v (List.mem_cons_of_mem u hv)
    · exact fun v hv => hrange v (List.mem_cons_of_mem u hv)

/-- The words of a name with its `$` and `(` are an identifier. -/
theorem identifier_words {name : List ℕ} (h : Named name) (isString isArray : Bool) :
    Identifier (Item.ident name isString isArray).words := by
  obtain ⟨hne, hcodes⟩ := convert_codes h
  obtain ⟨ws, w, hwords, hcont, hlast, hall⟩ := identWords_form isString isArray hne hcodes
  change Identifier (Builder.identWords isString isArray (Builder.padEven (name.map Builder.convert)))
  rw [hwords]
  exact .of_append hcont hlast fun u hu => (hall u hu).1.1

/-! ## Runs -/

/-- The states that are reached by clearing a workspace with the program `p`, looking up and creating
variables and writing their data; what is stored elsewhere may change at any time, the low memory
pointer only upwards. The entries of the map are listed, the newest one first. -/
inductive StoreRun (p : Program) : Machine → List (List ℕ × ℕ) → Prop
  | clear {m m' : Machine} (h : m.Holds p)
      (hclear : Settles (fun fuel => clearVariablesPointersAndStacks fuel m) (.ok m')) :
      StoreRun p m' []
  | find {m m' : Machine} {es : List (List ℕ × ℕ)} {o : Option ℕ} (h : StoreRun p m es)
      (hfind : Settles (fun fuel => variableFind fuel m) (.ok (o, m'))) : StoreRun p m' es
  | create {m m₁ m' : Machine} {es : List (List ℕ × ℕ)} {ws : List ℕ} {a : ℕ}
      (h : StoreRun p m es) (hi : m.AtIdentifier (m.codeEnd p) ws) (hroom : m.RoomFor ws)
      (hfind : Settles (fun fuel => variableFind fuel m) (.ok (none, m₁)))
      (hcreate : Settles (fun fuel => variableCreate fuel m₁) (.ok (a, m'))) :
      StoreRun p m' ((ws, a) :: es)
  | write {m : Machine} {es : List (List ℕ × ℕ)} {ws : List ℕ} {a : ℕ} {b : Memory}
      (h : StoreRun p m es) (hmem : (ws, a) ∈ es) (hb : m.bank.EqOff a (a + 4) b) :
      StoreRun p { m with bank := b } es
  | other {m m' : Machine} {es : List (List ℕ × ℕ)} (h : StoreRun p m es)
      (hbase : m'.dBaseAddress = m.dBaseAddress)
      (hlow : m.block blockLowMemoryPtr ≤ m'.block blockLowMemoryPtr)
      (htable : m.bank.EqOn (m.dBaseAddress + 0x80) (m.dBaseAddress + 0x100) m'.bank)
      (hmem : m.bank.EqOn (m.dBaseAddress + blockProgramStart) (m.block blockLowMemoryPtr)
        m'.bank) : StoreRun p m' es

section

variable {m m' m₁ : Machine} {p : Program} {lo a : ℕ} {ws : List ℕ} {r : Record} {rs : List Record}
  {es : List (List ℕ × ℕ)}

theorem Machine.AtIdentifier.mono {hi : ℕ} (h : m.AtIdentifier lo ws) (hle : lo ≤ hi) :
    m.AtIdentifier hi ws :=
  ⟨h.ident, h.spelling, h.place.imp_right fun h => ⟨h.1, h.2.trans hle⟩⟩

theorem vfCompare_outcome (fuel k y : ℕ) (m : Machine) :
    Outcome (fun _ => True) (fun _ => True) (vfCompare fuel m y) (vfCompare (fuel + k) m y) := by
  induction fuel generalizing y with
  | zero => exact .error trivial
  | succ fuel ih =>
    rw [Nat.add_right_comm]
    exact .ite (fun _ => .ok trivial) fun _ => .ite (fun _ => ih _) fun _ => .ok trivial

/-- Looking up changes registers only. -/
theorem vfNext_outcome (fuel k : ℕ) (m : Machine) :
    Outcome (fun r => r.2.bank = m.bank ∧ r.2.dBaseAddress = m.dBaseAddress) (fun _ => True)
      (vfNext fuel m) (vfNext (fuel + k) m) := by
  induction fuel generalizing m with
  | zero => exact .error trivial
  | succ fuel ih =>
    rw [Nat.add_right_comm]
    refine .ite (fun _ => .ok ⟨rfl, rfl⟩) fun _ => ?_
    refine (vfCompare_outcome _ _ _ _).bind fun o _ => ?_
    cases o with
    | none => exact ih _
    | some y => exact .ok ⟨rfl, rfl⟩

theorem variableFind_outcome (fuel k : ℕ) (m : Machine) :
    Outcome (fun r => r.2.bank = m.bank ∧ r.2.dBaseAddress = m.dBaseAddress) (fun _ => True)
      (variableFind fuel m) (variableFind (fuel + k) m) := by
  refine .ite (fun _ => .error trivial) fun _ => ?_
  exact .ite (fun _ => .ok ⟨rfl, rfl⟩) fun _ => vfNext_outcome fuel k _

theorem variableFind_keeps {o : Option ℕ}
    (h : Settles (fun fuel => variableFind fuel m) (.ok (o, m'))) :
    m'.bank = m.bank ∧ m'.dBaseAddress = m.dBaseAddress := by
  obtain ⟨fuel, hfuel⟩ := h.exists_fuel
  have hout := variableFind_outcome fuel 0 m
  rw [hfuel] at hout
  exact hout.post

/-- The place of the fast variable with the letter `k`. -/
def Machine.fastPlace (m : Machine) (k : ℕ) : ℕ := m.dBaseAddress + blockFastVariables + 4 * k

/-- The place of a fast variable. -/
theorem fastVariable_eq {k : ℕ} (hk : k < 26) (hbase : m.dBaseAddress + 0x80 ≤ 0x10000) :
    fastVariable m (0xC001 + k) = m.fastPlace k := by
  have hindex : (0xC001 + k) &&& 0x001F = k + 1 := by
    rw [show (0x001F : ℕ) = 2 ^ 5 - 1 from rfl, Nat.and_two_pow_sub_one_eq_mod]
    omega
  have hsub : sub16 (k + 1) 1 = k := by
    unfold sub16
    omega
  have hdouble : 2 * k % 0x10000 = 2 * k := Nat.mod_eq_of_lt (by omega)
  have hagain : 2 * (2 * k) % 0x10000 = 4 * k := by omega
  have hcarry : 2 * k / 0x8000 = 0 := Nat.div_eq_of_lt (by omega)
  have hmod : (4 * k + 0x10) % 0x10000 = 4 * k + 0x10 := Nat.mod_eq_of_lt (by omega)
  have hdiv : (4 * k + 0x10) / 0x10000 = 0 := Nat.div_eq_of_lt (by omega)
  unfold fastVariable Machine.fastPlace blockFastVariables
  dsimp only
  rw [hindex, hsub, hdouble, hagain, hcarry, Nat.add_zero, hmod, hdiv, Nat.add_zero,
    Nat.mod_eq_of_lt (by omega)]
  omega

/-- A single letter is a fast variable. -/
theorem variableFind_fast (hi : m.AtIdentifier lo ws) (hs : m.Store lo rs)
    (hfast : ws.headD 0 < 0xC01A + 1) :
    ∃ k < 26, ws = [0xC001 + k] ∧ Settles (fun fuel => variableFind fuel m)
      (.ok (some (m.fastPlace k), m.skipToken)) := by
  obtain ⟨w, us, rfl, hw, hus⟩ := hi.ident.head
  obtain rfl := hus hfast
  change w < 0xC01A + 1 at hfast
  obtain ⟨k, rfl⟩ : ∃ k, w = 0xC001 + k := ⟨w - 0xC001, by omega⟩
  have hk : k < 26 := by omega
  have htoken : m.token = 0xC001 + k := hi.spelling.1
  obtain ⟨hbound, hcode, hlow⟩ := hi.bound hs
  have hprogram := hs.program
  have hlow' := hs.low
  have hlt := m.block_lt blockLowMemoryPtr
  unfold blockProgramStart at hprogram
  have hplace : fastVariable m (0xC001 + k) = m.fastPlace k := fastVariable_eq hk (by omega)
  refine ⟨k, hk, rfl, .of_forall fun fuel => ?_⟩
  rw [variableFind, htoken, if_neg (by omega), if_pos hfast, hplace]

/-- An identifier that is not found is no single letter and has no record. -/
theorem Machine.Store.absent (h : m.Store lo rs) (hi : m.AtIdentifier lo ws)
    (hfind : Settles (fun fuel => variableFind fuel m) (.ok (none, m₁))) :
    0xC01A + 1 ≤ ws.headD 0 ∧ ∀ r ∈ rs, r.words ≠ ws := by
  have hslow : 0xC01A + 1 ≤ ws.headD 0 := by
    by_contra hfast
    obtain ⟨k, -, -, hset⟩ := variableFind_fast hi h (Nat.not_le.mp hfast)
    cases hset.unique hfind
  refine ⟨hslow, ?_⟩
  rintro r hr rfl
  obtain ⟨m', hset, -⟩ := h.find_found hi hslow hr
  cases hset.unique hfind

/-- **Creating succeeds** when the identifier is absent and there is room, and keeps everything else
in the store and what is above it; the data is zero. -/
theorem Machine.Store.created (h : m.Store lo rs) (hi : m.AtIdentifier lo ws) (hroom : m.RoomFor ws)
    (hfind : Settles (fun fuel => variableFind fuel m) (.ok (none, m₁))) :
    ∃ m' r, Settles (fun fuel => variableCreate fuel m₁) (.ok (r.address + 4, m')) ∧
      r.words = ws ∧ m'.dBaseAddress = m.dBaseAddress ∧ m'.Store lo (r :: rs) ∧
      m'.dCodePtr = m.dCodePtr + 2 * ws.length ∧
      m.bank.EqOn (m.dBaseAddress + 0x100) (m.block blockLowMemoryPtr) m'.bank ∧
      m.bank.EqOn (m.dBaseAddress + 0x10) (m.dBaseAddress + 0x80) m'.bank ∧
      m'.block blockLowMemoryPtr < m.block blockHighMemoryPtr ∧
      m'.block blockLowMemoryPtr ≤ m.block blockLowMemoryPtr + 8 + 2 * ws.length ∧
      m'.block blockHighMemoryPtr = m.block blockHighMemoryPtr ∧
      m.bank.EqOn (m'.block blockLowMemoryPtr) 0x10000 m'.bank ∧
      r.address = m.block blockLowMemoryPtr ∧
      m'.bank.word (r.address + 4) = 0 ∧ m'.bank.word (r.address + 6) = 0 := by
  obtain ⟨hslow, hne⟩ := h.absent hi hfind
  obtain ⟨t, t', hset⟩ := h.find_missing hi hslow hne
  obtain ⟨-, rfl⟩ := Prod.mk.inj (Except.ok.inj (hfind.unique hset))
  obtain ⟨m₂, hm₂⟩ : ∃ m₂ : Machine, m₂ = { m with
    dHashTablePtr := m.chainHead (chainOf (ws.headD 0)), dTemp1 := t, dTemp2 := t' } := ⟨_, rfl⟩
  have hbase₂ : m₂.dBaseAddress = m.dBaseAddress := by rw [hm₂]
  have hbank₂ : m₂.bank = m.bank := by rw [hm₂]
  have hcode₂ : m₂.dCodePtr = m.dCodePtr := by rw [hm₂]
  have hslot₂ : m₂.dHashTablePtr = m.chainHead (chainOf (ws.headD 0)) := by rw [hm₂]
  have hlow₂ : m₂.block blockLowMemoryPtr = m.block blockLowMemoryPtr := by rw [hm₂]; rfl
  have hroom₂ : m₂.RoomFor ws := by
    rw [hm₂]
    exact hroom
  have hs₂ : m₂.Store lo rs :=
    h.congr hbase₂ hlow₂.ge (hbank₂ ▸ .refl _ _ _) (hbank₂ ▸ .refl _ _ _)
  rw [← hm₂]
  obtain ⟨hbound, hplace, hlow⟩ := hi.bound h
  have hprogram := h.program
  have hlo := h.low
  have hchain := chainOf_lt (ws.headD 0)
  unfold chainHead blockHashTable at hslot₂
  obtain ⟨m', name, hcreate, hcode, hcreated, htop, hbound'⟩ := variableCreate_spec (m := m₂) hi.ident
    (by rw [hbank₂, hcode₂]; exact hi.spelling) (by rw [hbase₂, hcode₂, hlow₂]; exact ⟨hplace, hlow⟩)
    (by rw [hbase₂, hlow₂]; omega) (by rw [hbase₂, hslot₂]; omega) hroom₂
  have hcodelo : m₂.dCodePtr + 2 * ws.length ≤ lo := by
    have hplace' := hi.place
    omega
  obtain ⟨hstore, -⟩ := hs₂.create hcreated (by
    rw [hslot₂]
    unfold chainHead blockHashTable
    rw [hbase₂]
    rfl) hcodelo hne
  have hhigh₂ : m₂.block blockHighMemoryPtr = m.block blockHighMemoryPtr := by rw [hm₂]; rfl
  have hsize : m₂.block blockLowMemoryPtr + 8 ≤ m'.block blockLowMemoryPtr := hcreated.size
  rw [hlow₂] at hsize
  unfold blockProgramStart at hprogram
  -- off the record, its slot and the low memory pointer
  have hkeeps : ∀ a, a < m.block blockLowMemoryPtr ∨ m'.block blockLowMemoryPtr ≤ a →
      m.dBaseAddress + 10 ≤ a → a < m.dBaseAddress + 0x80 ∨ m.dBaseAddress + 0x100 ≤ a →
      m'.bank a = m.bank a := by
    intro a ha h₀ h₁
    have hkeeps := hcreated.keeps a (by dsimp only; rwa [hlow₂]) (.inr (by rwa [hbase₂]))
      (by rw [hslot₂]; omega)
    rwa [hbank₂] at hkeeps
  refine ⟨m', _, hcreate, rfl, hcreated.base.trans hbase₂, hstore, hcode.trans (by rw [hcode₂]), ?_,
    ?_, htop.trans_eq hhigh₂, hlow₂ ▸ hbound', ?_, ?_, hlow₂, hcreated.data⟩
  · exact fun a h₀ h₁ => hkeeps a (.inl h₁) (by omega) (.inr h₀)
  · exact fun a h₀ h₁ => hkeeps a (.inl (by omega)) (by omega) (.inl h₁)
  · unfold Machine.block blockHighMemoryPtr
    rw [hcreated.base, hbase₂]
    exact Memory.word_congr (hkeeps _ (.inl (by omega)) (by omega) (.inl (by omega)))
      (hkeeps _ (.inl (by omega)) (by omega) (.inl (by omega)))
  · exact fun a h₀ h₁ => hkeeps a (.inr h₀) (by omega) (.inr (by omega))

/-- **The invariant of a run.** By induction on the run; the entries of the map are those of the
records. -/
theorem StoreRun.store (h : StoreRun p m es) : ∃ rs, m.Store (m.codeEnd p + 6) rs ∧
    es = rs.map Record.entry := by
  have hend : ∀ {m m' : Machine}, m'.dBaseAddress = m.dBaseAddress → m'.codeEnd p = m.codeEnd p := by
    intro m m' hbase
    unfold Machine.codeEnd
    rw [hbase]
  induction h with
  | clear h hclear =>
    obtain ⟨m₀, hset, h, -⟩ := clearVariablesPointersAndStacks_spec h
    obtain rfl := Except.ok.inj (hset.unique hclear)
    refine ⟨[], ⟨?_, h.low.ge, fun c hc => ?_, ?_, ?_, ?_, ?_, List.nodup_nil⟩, rfl⟩
    · unfold Machine.codeEnd
      omega
    · exact (congrArg _ (Nat.add_assoc _ _ _)).trans (h.table c hc)
    all_goals
      intro r hr
      cases hr
  | find h hfind ih =>
    obtain ⟨rs, hs, hes⟩ := ih
    obtain ⟨hbank, hbase⟩ := variableFind_keeps hfind
    refine ⟨rs, ?_, hes⟩
    rw [hend hbase]
    refine hs.congr hbase ?_ (hbank ▸ .refl _ _ _) (hbank ▸ .refl _ _ _)
    unfold Machine.block
    rw [hbank, hbase]
  | @create m m₁ m' es ws a h hi hroom hfind hcreate ih =>
    obtain ⟨rs, hs, rfl⟩ := ih
    obtain ⟨m₂, r, hset, rfl, hbase, hstore, -⟩ :=
      hs.created (hi.mono (Nat.le_add_right _ 6)) hroom hfind
    obtain ⟨rfl, rfl⟩ := Prod.mk.inj (Except.ok.inj (hcreate.unique hset))
    refine ⟨r :: rs, ?_, rfl⟩
    rw [hend hbase]
    exact hstore
  | write h hmem hb ih =>
    obtain ⟨rs, hs, rfl⟩ := ih
    obtain ⟨r, hr, he⟩ := List.mem_map.mp hmem
    obtain ⟨-, rfl⟩ := Prod.mk.inj he
    exact ⟨rs, hs.write hr hb, rfl⟩
  | other h hbase hlow htable hmem ih =>
    obtain ⟨rs, hs, hes⟩ := ih
    refine ⟨rs, ?_, hes⟩
    rw [hend hbase]
    exact hs.congr hbase hlow htable hmem

/-- **The variable store is a finite map** from identifiers to data addresses, in every state that is
reached: `VariableFind` looks up the entry of an identifier and skips it, or reports that there is
none; the data of different variables are apart; and `VariableCreate` keeps the data of all of them. -/
theorem variable_store (h : StoreRun p m es) :
    (∀ c < 64, ∃ as, m.bank.ChainAt (m.chainHead c) as ∧ as.Nodup) ∧
    (∀ ws, m.AtIdentifier (m.codeEnd p) ws →
      (∀ k < 26, ws = [0xC001 + k] → ∃ m', Settles (fun fuel => variableFind fuel m)
        (.ok (some (m.fastPlace k), m')) ∧ m'.dCodePtr = m.dCodePtr + 2 * ws.length) ∧
      ((∀ k < 26, ws ≠ [0xC001 + k]) →
        (∀ a, (ws, a) ∈ es → ∃ m', Settles (fun fuel => variableFind fuel m) (.ok (some a, m')) ∧
          m'.dCodePtr = m.dCodePtr + 2 * ws.length) ∧
        ((∀ a, (ws, a) ∉ es) → ∃ m', Settles (fun fuel => variableFind fuel m) (.ok (none, m')) ∧
          m'.dCodePtr = m.dCodePtr))) ∧
    (es.map Prod.fst).Nodup ∧
    (∀ e ∈ es, ∀ f ∈ es, e.1 ≠ f.1 → e.2 + 4 ≤ f.2 ∨ f.2 + 4 ≤ e.2) ∧
    (∀ e ∈ es, ∀ k < 26, m.fastPlace k + 4 ≤ e.2) ∧
    ∀ ws m₁, m.AtIdentifier (m.codeEnd p) ws → m.RoomFor ws →
      Settles (fun fuel => variableFind fuel m) (.ok (none, m₁)) →
      ∃ a m', Settles (fun fuel => variableCreate fuel m₁) (.ok (a, m')) ∧
        m'.dCodePtr = m.dCodePtr + 2 * ws.length ∧
        (∀ e ∈ es, ∀ i < 4, m'.bank (e.2 + i) = m.bank (e.2 + i)) ∧
        ∀ k < 26, ∀ i < 4, m'.bank (m.fastPlace k + i) = m.bank (m.fastPlace k + i) := by
  obtain ⟨rs, hs, rfl⟩ := h.store
  have hprogram := hs.program
  unfold blockProgramStart at hprogram
  have hle : m.codeEnd p ≤ m.codeEnd p + 6 := Nat.le_add_right _ 6
  refine ⟨?_, ?_, ?_, ?_, ?_, ?_⟩
  · intro c hc
    have hchain := hs.chains c hc
    exact ⟨_, hchain, hchain.nodup⟩
  · intro ws hi
    have hi' := hi.mono hle
    refine ⟨?_, fun hne => ?_⟩
    · rintro k hk rfl
      have hfast : [0xC001 + k].headD 0 < 0xC01A + 1 := by
        rw [List.headD_cons]
        omega
      obtain ⟨j, -, hj, hset⟩ := variableFind_fast hi' hs hfast
      obtain rfl : k = j := by
        have hword := (List.cons.inj hj).1
        omega
      have hbound := (hi'.bound hs).1
      rw [List.length_singleton] at hbound ⊢
      exact ⟨_, hset, add16_eq hbound⟩
    · have hslow : 0xC01A + 1 ≤ ws.headD 0 := by
        by_contra hfast
        obtain ⟨k, hk, hws, -⟩ := variableFind_fast hi' hs (Nat.not_le.mp hfast)
        exact hne k hk hws
      constructor
      · intro a ha
        obtain ⟨r, hr, he⟩ := List.mem_map.mp ha
        obtain ⟨rfl, rfl⟩ := Prod.mk.inj he
        obtain ⟨m', hset, -, hcode⟩ := hs.find_found hi' hslow hr
        exact ⟨m', hset, hcode⟩
      · intro habsent
        have hmissing : ∀ r ∈ rs, r.words ≠ ws := by
          rintro r hr rfl
          exact habsent _ (List.mem_map_of_mem hr)
        obtain ⟨t, t', hset⟩ := hs.find_missing hi' hslow hmissing
        exact ⟨_, hset, rfl⟩
  · rw [List.map_map]
    exact hs.distinct
  · intro e he f hf hne
    obtain ⟨r, hr, rfl⟩ := List.mem_map.mp he
    obtain ⟨s, hs', rfl⟩ := List.mem_map.mp hf
    have hapart := hs.apart r hr s hs' hne
    unfold Record.entry
    omega
  · intro e he k hk
    obtain ⟨r, hr, rfl⟩ := List.mem_map.mp he
    obtain ⟨haddress, -⟩ := hs.places r hr
    unfold Record.entry Machine.fastPlace blockFastVariables
    omega
  · intro ws m₁ hi hroom hfind
    obtain ⟨m', r, hset, -, -, -, hcode, hmem, hfast, -⟩ := hs.created (hi.mono hle) hroom hfind
    refine ⟨_, m', hset, hcode, ?_, ?_⟩
    · intro e he i hlt
      obtain ⟨s, hs', rfl⟩ := List.mem_map.mp he
      obtain ⟨h₁, h₂, -⟩ := hs.places s hs'
      unfold Record.entry at *
      exact hmem _ (by omega) (by omega)
    · intro k hk i hlt
      unfold Machine.fastPlace blockFastVariables
      exact hfast _ (by omega) (by omega)

/-- A word is entered in the token buffer. -/
theorem StoreRun.enter {y : ℕ} (h : StoreRun p m es)
    (hy : m.dBaseAddress + 0x100 ≤ y ∧ y + 2 ≤ m.dBaseAddress + 0x200) (w : ℕ) :
    StoreRun p { m with dCodePtr := y, bank := m.bank.setWord y w } es ∧
      ∀ i, i + 2 ≤ 0x100 →
        Machine.block { m with dCodePtr := y, bank := m.bank.setWord y w } i = m.block i := by
  obtain ⟨hlo, hhi⟩ := hy
  have hblock : ∀ i, i + 2 ≤ 0x100 →
      Machine.block { m with dCodePtr := y, bank := m.bank.setWord y w } i = m.block i := by
    intro i hi
    exact Memory.word_setWord_of_disjoint (.inl (by dsimp only; omega))
  refine ⟨.other h rfl (hblock _ (by decide)).ge ?_ ?_, hblock⟩
  · exact (Memory.EqOn.refl _ _ _).setWord (.inr (by omega))
  · exact (Memory.EqOn.refl _ _ _).setWord (.inl (by unfold blockProgramStart; omega))

/-- `AB` is created from the token buffer, and found again when the buffer has been overwritten. -/
theorem variable_store_one : ∃ m a m',
    StoreRun .empty m [((Item.ident (ord "AB") false false).words, a)] ∧
    Settles (fun fuel => variableFind fuel m) (.ok (some a, m')) := by
  obtain ⟨ws, hws⟩ : ∃ ws, ws = (Item.ident (ord "AB") false false).words := ⟨_, rfl⟩
  have hlit : ws = [0xC05B] := by
    rw [hws]
    decide
  have hident : Identifier ws := by
    rw [hws]
    exact identifier_words ⟨by decide, 65, [66], by decide, by decide⟩ false false
  have hslow : ∀ k < 26, ws ≠ [0xC001 + k] := by
    rw [hlit]
    decide
  rw [← hws]
  -- the identifier is at the code pointer when it has been entered
  have hat : ∀ {m : Machine} (lo : ℕ), m.dBaseAddress = 0x4000 → Machine.AtIdentifier
      { m with dCodePtr := 0x4100, bank := m.bank.setWord 0x4100 0xC05B } lo ws := by
    intro m lo hbase
    refine ⟨hident, ?_, .inl ?_⟩
    · rw [hlit]
      exact ⟨Memory.word_setWord (by decide), trivial⟩
    · rw [hlit]
      dsimp only
      rw [hbase]
      decide
  obtain ⟨m₀, hclear, hc, hbase₀, hhigh₀, -⟩ :=
    clearVariablesPointersAndStacks_spec emptyWorkspace_clear.toHolds
  replace hbase₀ : m₀.dBaseAddress = 0x4000 := hbase₀
  obtain ⟨hrun, hblock⟩ := (StoreRun.clear emptyWorkspace_clear.toHolds hclear).enter (y := 0x4100)
    (by rw [hbase₀]; decide) 0xC05B
  have hi := hat (m := m₀) (m₀.codeEnd .empty) hbase₀
  have hroom : Machine.RoomFor
      { m₀ with dCodePtr := 0x4100, bank := m₀.bank.setWord 0x4100 0xC05B } ws := by
    unfold Machine.RoomFor
    rw [hblock _ (by decide), hblock _ (by decide), hc.low, hc.high, hhigh₀, hlit, Machine.codeEnd]
    dsimp only
    rw [hbase₀, if_pos (by decide)]
    decide
  obtain ⟨-, hfind, -⟩ := variable_store hrun
  obtain ⟨-, hmissing⟩ := (hfind ws hi).2 hslow
  obtain ⟨m₁, hnone, -⟩ := hmissing fun a ha => absurd ha List.not_mem_nil
  obtain ⟨rs, hs, -⟩ := hrun.store
  obtain ⟨m₂, r, hcreate, -, hbase₂, -⟩ :=
    hs.created (hi.mono (Nat.le_add_right _ 6)) hroom hnone
  replace hbase₂ : m₂.dBaseAddress = 0x4000 := hbase₂.trans hbase₀
  -- the buffer holds something else for a while
  obtain ⟨hover, -⟩ := (StoreRun.create hrun hi hroom hnone hcreate).enter (y := 0x4100)
    (by rw [hbase₂]; decide) 0x2206
  obtain ⟨hback, -⟩ := hover.enter (y := 0x4100) (by dsimp only; rw [hbase₂]; decide) 0xC05B
  obtain ⟨-, hfind₂, -⟩ := variable_store hback
  obtain ⟨hfound, -⟩ := (hfind₂ ws (hat _ hbase₂)).2 hslow
  obtain ⟨m', hset, -⟩ := hfound _ (List.mem_singleton.mpr rfl)
  exact ⟨_, _, m', hback, hset⟩

end

end Basic65816
