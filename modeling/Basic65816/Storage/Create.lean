import Basic65816.Storage.Find
import Basic65816.Storage.Record

/-!
# Creating a variable

A new record is put at the low memory pointer and in front of its chain. Its name stays where it is
in the program; a name in the token buffer is copied behind the record.

## Main definitions

* `Machine.KeepsOff`: what an allocation keeps
* `Machine.Opened`, `Machine.Created`: the memory before and after the record is linked

## Main results

* `vcCloneLoop_spec`: the copy of a name
* `variableCreate_spec`: the record that `VariableCreate` makes
-/

namespace Basic65816

/-- Outside the addresses from `lo` to `hi` and the low memory pointer, the bank is kept. -/
def Machine.KeepsOff (m : Machine) (lo hi : ℕ) (b : Memory) : Prop :=
  ∀ a, a < lo ∨ hi ≤ a → a < m.dBaseAddress + 8 ∨ m.dBaseAddress + 10 ≤ a → b a = m.bank a

/-- A record is cleared at `address` and linked to its chain, and its name `ws` is at `name`. -/
structure Machine.Opened (m : Machine) (address name top : ℕ) (ws : List ℕ) (b : Memory) : Prop where
  low : b.word (m.dBaseAddress + blockLowMemoryPtr) = top
  size : address + 8 ≤ top
  link : b.word address = m.bank.word m.dHashTablePtr
  data : b.word (address + 4) = 0 ∧ b.word (address + 6) = 0
  spelling : b.WordsAt name ws
  place : m.dBaseAddress + blockProgramStart ≤ name ∧ name = m.dCodePtr ∨
    name = address + 8 ∧ name + 2 * ws.length ≤ top
  keeps : m.KeepsOff address top b

/-- The record `r` is made at the low memory pointer, and is the head of its chain. -/
structure Machine.Created (m m' : Machine) (r : Record) : Prop where
  base : m'.dBaseAddress = m.dBaseAddress
  address : r.address = m.block blockLowMemoryPtr
  size : r.address + 8 ≤ m'.block blockLowMemoryPtr
  record : r.At m'.bank
  place : m.dBaseAddress + blockProgramStart ≤ r.name ∧ r.name = m.dCodePtr ∨
    r.name = r.address + 8 ∧ r.name + 2 * r.words.length ≤ m'.block blockLowMemoryPtr
  link : m'.bank.word r.address = m.bank.word m.dHashTablePtr
  data : m'.bank.word (r.address + 4) = 0 ∧ m'.bank.word (r.address + 6) = 0
  head : m'.bank.word m.dHashTablePtr = r.address
  keeps : ∀ a, a < r.address ∨ m'.block blockLowMemoryPtr ≤ a →
    a < m.dBaseAddress + 8 ∨ m.dBaseAddress + 10 ≤ a →
    a < m.dHashTablePtr ∨ m.dHashTablePtr + 2 ≤ a → m'.bank a = m.bank a

section

variable {m : Machine} {b : Memory} {lo hi x q w address name top fuel : ℕ} {ws : List ℕ}

theorem Machine.KeepsOff.word {a : ℕ} (h : m.KeepsOff lo hi b) (ha : a + 2 ≤ lo ∨ hi ≤ a)
    (hlow : a + 2 ≤ m.dBaseAddress + 8 ∨ m.dBaseAddress + 10 ≤ a) : b.word a = m.bank.word a :=
  Memory.word_congr (h a (by omega) (by omega)) (h (a + 1) (by omega) (by omega))

theorem Machine.KeepsOff.trans {b' : Memory} {mid : ℕ} (h : m.KeepsOff lo mid b)
    (h' : Machine.KeepsOff { m with bank := b } mid hi b') (hlo : lo ≤ mid) (hhi : mid ≤ hi) :
    m.KeepsOff lo hi b' := by
  intro a ha hlow
  rw [h' a (by omega) hlow]
  exact h a (by omega) hlow

theorem Machine.KeepsOff.wordsAt (h : m.KeepsOff lo hi b) (hws : m.bank.WordsAt x ws)
    (hx : m.dBaseAddress + 10 ≤ x) (hlo : x + 2 * ws.length ≤ lo) : b.WordsAt x ws :=
  hws.congr fun a h₀ h₁ => h a (by omega) (by omega)

/-- One word of a name is copied to the low memory pointer. -/
theorem vcCloneLoop_succ (hword : m.bank.word x = w) (hx : m.dBaseAddress + 10 ≤ x)
    (hq : m.block blockLowMemoryPtr = q) (hlt : q + 2 < 0x10000) :
    vcCloneLoop (fuel + 1) m x =
      (let m₁ := { m with bank :=
        (m.bank.setWord (m.dBaseAddress + blockLowMemoryPtr) (q + 2)).setWord q w }
      if w &&& idContMask ≠ 0 then vcCloneLoop fuel m₁ (add16 x 2) else .ok m₁) := by
  have hread : (m.setBlock blockLowMemoryPtr (q + 2)).bank.word x = w := by
    unfold Machine.setBlock blockLowMemoryPtr
    exact (Memory.word_setWord_of_disjoint (.inr (by omega))).trans hword
  rw [vcCloneLoop, hq, add16_eq hlt, hread]
  rfl

/-- The bank after one word of the copy. -/
theorem keepsOff_clone (hq : m.dBaseAddress + 10 ≤ q) (hlt : q + 2 < 0x10000) (hw : w < 0x10000)
    (hb : b = (m.bank.setWord (m.dBaseAddress + blockLowMemoryPtr) (q + 2)).setWord q w) :
    b.word (m.dBaseAddress + blockLowMemoryPtr) = q + 2 ∧ b.word q = w ∧
      m.KeepsOff q (q + 2) b := by
  unfold blockLowMemoryPtr at hb ⊢
  subst hb
  refine ⟨?_, Memory.word_setWord hw, fun a ha hlow => ?_⟩
  · rw [Memory.word_setWord_of_disjoint (.inl (by omega)), Memory.word_setWord (by omega)]
  · rw [Memory.setWord_of_ne (by omega) (by omega), Memory.setWord_of_ne (by omega) (by omega)]

/-- **The copy of a name** at the low memory pointer. By induction on the words; the rest of the name
is in front of the copy. -/
theorem vcCloneLoop_spec (hw : Identifier ws) (hws : m.bank.WordsAt x ws)
    (hq : m.block blockLowMemoryPtr = q) (hx : m.dBaseAddress + 10 ≤ x)
    (hxq : x + 2 * ws.length ≤ q) (hlt : q + 2 * ws.length < 0x10000) :
    ∃ b, Settles (fun fuel => vcCloneLoop fuel m x) (.ok { m with bank := b }) ∧
      b.word (m.dBaseAddress + blockLowMemoryPtr) = q + 2 * ws.length ∧ b.WordsAt q ws ∧
      m.KeepsOff q (q + 2 * ws.length) b := by
  induction hw generalizing m x q with
  | @last w _ hcont =>
    obtain ⟨hword, -⟩ := hws
    rw [List.length_singleton] at hxq hlt ⊢
    obtain ⟨b, hb⟩ : ∃ b, b =
      (m.bank.setWord (m.dBaseAddress + blockLowMemoryPtr) (q + 2)).setWord q w := ⟨_, rfl⟩
    obtain ⟨hlow, hcopy, hkeeps⟩ := keepsOff_clone (by omega) hlt (hword ▸ m.bank.word_lt x) hb
    refine ⟨b, Settles.succ (.of_forall fun fuel => ?_), hlow, ⟨hcopy, trivial⟩, hkeeps⟩
    rw [vcCloneLoop_succ hword hx hq hlt, ← hb]
    exact if_neg (not_not.mpr hcont)
  | @more w ws _ hcont _ ih =>
    obtain ⟨hword, hws⟩ := hws
    rw [List.length_cons] at hxq hlt ⊢
    obtain ⟨b, hb⟩ : ∃ b, b =
      (m.bank.setWord (m.dBaseAddress + blockLowMemoryPtr) (q + 2)).setWord q w := ⟨_, rfl⟩
    obtain ⟨hlow, hcopy, hkeeps⟩ :=
      keepsOff_clone (by omega) (by omega) (hword ▸ m.bank.word_lt x) hb
    -- the rest of the name is still there, as it is in front of the copy
    obtain ⟨b', hset, hlow', hcopy', hkeeps'⟩ := ih (m := { m with bank := b }) (x := x + 2)
      (q := q + 2) (hkeeps.wordsAt hws (by omega) (by omega)) hlow (by dsimp only; omega) (by omega)
      (by omega)
    refine ⟨b', hset.unfold fun fuel => ?_, ?_, ⟨?_, hcopy'⟩, ?_⟩
    · rw [vcCloneLoop_succ hword hx hq (by omega), ← hb, add16_eq (by omega)]
      exact if_pos hcont
    · rw [hlow']
      omega
    · rw [hkeeps'.word (.inl (Nat.le_refl _)) (.inr (by dsimp only; omega))]
      exact hcopy
    · rw [show q + 2 * (ws.length + 1) = q + 2 + 2 * ws.length by omega]
      exact hkeeps.trans hkeeps' (by omega) (by omega)

/-- A record that is cleared and linked to its chain. -/
theorem openRecord_spec (hq : m.block blockLowMemoryPtr = q)
    (hbase : m.dBaseAddress + blockProgramStart ≤ q) (hlt : q + 8 < 0x10000)
    (hslot : m.dBaseAddress + 0x80 ≤ m.dHashTablePtr ∧
      m.dHashTablePtr + 2 ≤ m.dBaseAddress + 0x100) :
    ∃ b t, m.takeRecord.openRecord q = { m with bank := b, dTemp1 := t } ∧
      b.word (m.dBaseAddress + blockLowMemoryPtr) = q + 8 ∧
      b.word q = m.bank.word m.dHashTablePtr ∧ (b.word (q + 4) = 0 ∧ b.word (q + 6) = 0) ∧
      m.KeepsOff q (q + 8) b := by
  obtain ⟨hlo, hhi⟩ := hslot
  unfold blockProgramStart at hbase
  have htake : m.takeRecord =
      { m with bank := m.bank.setWord (m.dBaseAddress + blockLowMemoryPtr) (q + 8) } := by
    rw [Machine.takeRecord, hq, add16_eq hlt, Machine.setBlock]
  rw [htake]
  refine ⟨_, _, rfl, ?_⟩
  unfold blockLowMemoryPtr
  dsimp only
  -- the head of the chain is read when the record has been cleared
  have hread : ((((m.bank.setWord (m.dBaseAddress + 8) (q + 8)).setWord (q + 4) 0).setWord
      (q + 6) 0)).word m.dHashTablePtr = m.bank.word m.dHashTablePtr := by
    rw [Memory.word_setWord_of_disjoint (.inl (by omega)),
      Memory.word_setWord_of_disjoint (.inl (by omega)),
      Memory.word_setWord_of_disjoint (.inr (by omega))]
  rw [hread]
  refine ⟨?_, Memory.word_setWord (m.bank.word_lt _), ⟨?_, ?_⟩, fun a ha hlow => ?_⟩
  · rw [Memory.word_setWord_of_disjoint (.inl (by omega)),
      Memory.word_setWord_of_disjoint (.inl (by omega)),
      Memory.word_setWord_of_disjoint (.inl (by omega)), Memory.word_setWord (by omega)]
  · rw [Memory.word_setWord_of_disjoint (.inr (by omega)),
      Memory.word_setWord_of_disjoint (.inl (by omega)), Memory.word_setWord (by decide)]
  · rw [Memory.word_setWord_of_disjoint (.inr (by omega)), Memory.word_setWord (by decide)]
  · rw [Memory.setWord_of_ne (by omega) (by omega), Memory.setWord_of_ne (by omega) (by omega),
      Memory.setWord_of_ne (by omega) (by omega), Memory.setWord_of_ne (by omega) (by omega)]

/-- Linking makes the record the head of its chain. -/
theorem Machine.Opened.created {t : ℕ} (h : m.Opened q name top ws b)
    (hq : m.block blockLowMemoryPtr = q) (hw : Identifier ws)
    (hbase : m.dBaseAddress + blockProgramStart ≤ q)
    (hslot : m.dBaseAddress + 0x80 ≤ m.dHashTablePtr ∧
      m.dHashTablePtr + 2 ≤ m.dBaseAddress + 0x100) (htop : top < 0x10000)
    (hcode : m.bank.WordsAt m.dCodePtr ws)
    (hplace : m.dBaseAddress + 0x100 ≤ m.dCodePtr ∧ m.dCodePtr + 2 * ws.length ≤ q) :
    ∃ m', Settles (fun fuel => vcSkipToken fuel
        (Machine.link { m with bank := b, dTemp1 := t } q name)) (.ok m') ∧
      m'.dCodePtr = m.dCodePtr + 2 * ws.length ∧ m.Created m' ⟨q, name, ws⟩ ∧
      m'.block blockLowMemoryPtr = top := by
  obtain ⟨hlo, hhi⟩ := hslot
  obtain ⟨hcode₀, hcode₁⟩ := hplace
  obtain ⟨hlow, hsize, hlink, hdata, hspelling, hname, hkeeps⟩ := h
  unfold blockProgramStart at hbase hname
  unfold blockLowMemoryPtr at hlow
  have hnamelt : name < 0x10000 := by omega
  obtain ⟨b', hb'⟩ : ∃ b', b' = (b.setWord (q + 2) name).setWord m.dHashTablePtr q := ⟨_, rfl⟩
  -- what the two words keep
  have hoff : ∀ a, a < q + 2 ∨ q + 4 ≤ a → a < m.dHashTablePtr ∨ m.dHashTablePtr + 2 ≤ a →
      b' a = b a := by
    intro a ha hslot
    rw [hb', Memory.setWord_of_ne (by omega) (by omega), Memory.setWord_of_ne (by omega) (by omega)]
  have hoffWord : ∀ a, a + 2 ≤ q + 2 ∨ q + 4 ≤ a → a + 2 ≤ m.dHashTablePtr ∨
      m.dHashTablePtr + 2 ≤ a → b'.word a = b.word a := by
    intro a ha hslot
    exact Memory.word_congr (hoff a (by omega) (by omega)) (hoff (a + 1) (by omega) (by omega))
  have hoffWords : ∀ {x : ℕ}, m.dBaseAddress + 0x100 ≤ x →
      x + 2 * ws.length ≤ q ∨ q + 8 ≤ x → b.WordsAt x ws → b'.WordsAt x ws := by
    intro x hx hxq h
    exact h.congr fun a h₀ h₁ => hoff a (by omega) (by omega)
  have hcode' : b'.WordsAt m.dCodePtr ws :=
    hoffWords hcode₀ (.inl hcode₁) (hkeeps.wordsAt hcode (by omega) hcode₁)
  have hset := vcSkipToken_spec (m := { m with bank := b', dTemp1 := t }) hw hcode'
    (by dsimp only; omega)
  have hlow' : b'.word (m.dBaseAddress + 8) = top := by
    rw [hoffWord _ (by omega) (by omega), hlow]
  refine ⟨_, hset.congr fun fuel => by rw [hb']; rfl, rfl,
    ⟨rfl, hq.symm, ?_, ?_, ?_, ?_, ?_, ?_, ?_⟩, hlow'⟩
  · exact hsize.trans hlow'.ge
  · refine ⟨hw, ?_, hoffWords ?_ ?_ hspelling⟩
    · dsimp only
      rw [hb', Memory.word_setWord_of_disjoint (.inr (by omega)), Memory.word_setWord hnamelt]
    · dsimp only
      omega
    · dsimp only
      omega
  · refine hname.imp_right fun h => ⟨h.1, ?_⟩
    exact h.2.trans hlow'.ge
  · exact (hoffWord q (by omega) (by omega)).trans hlink
  · exact ⟨(hoffWord (q + 4) (by omega) (by omega)).trans hdata.1,
      (hoffWord (q + 6) (by omega) (by omega)).trans hdata.2⟩
  · dsimp only
    rw [hb', Memory.word_setWord (by omega)]
  · intro a ha hlowa hslota
    have htopa : a < q ∨ top ≤ a := ha.imp_right hlow'.ge.trans
    exact (hoff a (by omega) hslota).trans (hkeeps a htopa hlowa)

/-- Low memory stays below high memory when the identifier `ws` is created: a name in the token
buffer is copied. -/
def Machine.RoomFor (m : Machine) (ws : List ℕ) : Prop :=
  m.block blockLowMemoryPtr + 8 +
      (if m.dCodePtr < m.dBaseAddress + blockProgramStart then 2 * ws.length else 0) <
    m.block blockHighMemoryPtr

/-- **`VariableCreate`** makes a record for the identifier at the code pointer, and skips it. -/
theorem variableCreate_spec (hw : Identifier ws) (hcode : m.bank.WordsAt m.dCodePtr ws)
    (hplace : m.dBaseAddress + 0x100 ≤ m.dCodePtr ∧
      m.dCodePtr + 2 * ws.length ≤ m.block blockLowMemoryPtr)
    (hbase : m.dBaseAddress + blockProgramStart ≤ m.block blockLowMemoryPtr)
    (hslot : m.dBaseAddress + 0x80 ≤ m.dHashTablePtr ∧
      m.dHashTablePtr + 2 ≤ m.dBaseAddress + 0x100) (hroom : m.RoomFor ws) :
    ∃ m' name, Settles (fun fuel => variableCreate fuel m)
        (.ok (m.block blockLowMemoryPtr + 4, m')) ∧
      m'.dCodePtr = m.dCodePtr + 2 * ws.length ∧
      m.Created m' ⟨m.block blockLowMemoryPtr, name, ws⟩ ∧
      m'.block blockLowMemoryPtr < m.block blockHighMemoryPtr ∧
      m'.block blockLowMemoryPtr ≤ m.block blockLowMemoryPtr + 8 + 2 * ws.length := by
  obtain ⟨q, hq⟩ : ∃ q, m.block blockLowMemoryPtr = q := ⟨_, rfl⟩
  have hhigh := m.block_lt blockHighMemoryPtr
  unfold Machine.RoomFor at hroom
  rw [hq] at hplace hbase hroom ⊢
  have hlt : q + 8 < m.block blockHighMemoryPtr := by omega
  obtain ⟨b, t, hopen, hlow, hlink, hdata, hkeeps⟩ := openRecord_spec hq hbase (by omega) hslot
  -- the check for free memory, and where the program starts
  have htake : m.takeRecord.block blockHighMemoryPtr = m.block blockHighMemoryPtr :=
    m.block_setBlock_of_disjoint (.inr (by decide))
  have hstart : add16 blockProgramStart m.dBaseAddress = m.dBaseAddress + blockProgramStart := by
    rw [add16_eq (by omega), Nat.add_comm]
  have hlow8 : ∀ m', (.ok (add16 q 4, m') : Result (ℕ × Machine)) = .ok (q + 4, m') := by
    intro m'
    rw [add16_eq (by omega)]
  by_cases hbuffer : m.dCodePtr < m.dBaseAddress + blockProgramStart
  · -- the name is copied
    rw [if_pos hbuffer] at hroom
    obtain ⟨b', hclone, hlow', hcopy, hkeeps'⟩ := vcCloneLoop_spec
      (m := { m with bank := b, dTemp1 := t }) hw (hkeeps.wordsAt hcode (by omega) hplace.2) hlow
      (by dsimp only; omega) (by omega) (by omega)
    have hrecord : ∀ a, q ≤ a ∧ a + 2 ≤ q + 8 → b'.word a = b.word a := by
      rintro a ⟨h₀, h₁⟩
      unfold blockProgramStart at hbase
      exact hkeeps'.word (.inl h₁) (.inr (by dsimp only; omega))
    have hopened : m.Opened q (q + 8) (q + 8 + 2 * ws.length) ws b' :=
      ⟨hlow', by omega, (hrecord q (by omega)).trans hlink,
        ⟨(hrecord (q + 4) (by omega)).trans hdata.1, (hrecord (q + 6) (by omega)).trans hdata.2⟩,
        hcopy, .inr ⟨rfl, Nat.le_refl _⟩, hkeeps.trans hkeeps' (by omega) (by omega)⟩
    obtain ⟨m', hskip, hptr, hcreated, htop⟩ := hopened.created (t := t) hq hw hbase hslot (by omega) hcode
      hplace
    refine ⟨m', q + 8, ?_, hptr, hcreated, htop.trans_lt (by omega), htop.le⟩
    have hname : Settles (fun fuel => vcCloneIdentifier fuel { m with bank := b, dTemp1 := t }
        m.dCodePtr) (.ok (q + 8, { m with bank := b', dTemp1 := t })) := by
      refine (hclone.bind (g := fun _ m' => .ok (_, m')) (.of_forall fun fuel => rfl)).congr fun k => ?_
      rw [vcCloneIdentifier]
      rw [show Machine.block { m with bank := b, dTemp1 := t } blockLowMemoryPtr = q + 8 from hlow]
    have hrun := hname.bind (g := fun fuel r => vcSkipToken fuel (r.2.link q r.1) >>= fun m' =>
      (.ok (add16 q 4, m') : Result (ℕ × Machine)))
      (hskip.bind (.of_forall fun _ => hlow8 m'))
    refine hrun.congr fun fuel => ?_
    rw [variableCreate_eq, htake, hq, add16_eq (by omega), if_neg (by omega), hstart, if_pos hbuffer,
      hopen]
  · -- the name stays in the program
    have hopened : m.Opened q m.dCodePtr (q + 8) ws b :=
      ⟨hlow, Nat.le_refl _, hlink, hdata, hkeeps.wordsAt hcode (by omega) hplace.2,
        .inl ⟨Nat.not_lt.mp hbuffer, rfl⟩, hkeeps⟩
    obtain ⟨m', hskip, hptr, hcreated, htop⟩ := hopened.created (t := t) hq hw hbase hslot (by omega) hcode
      hplace
    refine ⟨m', m.dCodePtr, ?_, hptr, hcreated, htop.trans_lt hlt,
      htop.le.trans (Nat.le_add_right _ _)⟩
    have hrun := hskip.bind (g := fun _ m' => (.ok (add16 q 4, m') : Result (ℕ × Machine)))
      (.of_forall fun _ => hlow8 m')
    refine hrun.congr fun fuel => ?_
    rw [variableCreate_eq, htake, hq, add16_eq (by omega), if_neg (by omega), hstart,
      if_neg hbuffer, hopen]

end

end Basic65816
