import Basic65816.Lexer.TokenLine
import Basic65816.Program.Stored

/-!
# Editing a stored program

Deletion moves the rest of the program down over the line, insertion moves it up to open a gap; the
regions overlap, so each direction has its own induction. Together they realise `Program.edit`.

## Main results

* `ldCopy_spec`, `liCopyMove_spec`: the two block moves
* `lineDelete_spec`, `lineInsert_spec`: the two halves of an edit
* `executeTokenBuffer_spec`: an edit
-/

namespace Basic65816

variable {m : Machine} {p : Program} {ws ts us : List ℕ} {y n : ℕ}

/-! ## Block moves -/

/-- **Moving down**: the words at `DTemp2 + y` move to `DTemp1 + y`, which is below. -/
theorem ldCopy_spec (hws : ws ≠ []) (hw : m.bank.WordsAt (m.dTemp2 + y) ws)
    (hlt : m.dTemp1 + 2 ≤ m.dTemp2) (hy : y + 2 * ws.length ≤ 0x10000) :
    ∃ b, Settles (fun fuel => ldCopy fuel m (2 * ws.length) y) (.ok { m with bank := b }) ∧
      b.WordsAt (m.dTemp1 + y) ws ∧
      m.bank.EqOff (m.dTemp1 + y) (m.dTemp1 + y + 2 * ws.length) b := by
  induction ws generalizing m y with
  | nil => exact absurd rfl hws
  | cons w ws ih =>
    obtain ⟨hw₀, hw₁⟩ := hw
    have hlt' : w < 0x10000 := hw₀ ▸ Memory.word_lt _ _
    simp only [List.length_cons] at hy
    have hx : sub16 (2 * (w :: ws).length) 2 = 2 * ws.length := by
      rw [List.length_cons]
      unfold sub16
      omega
    have hoff : m.bank.EqOff (m.dTemp1 + y) (m.dTemp1 + y + 2) (m.bank.setWord (m.dTemp1 + y) w) :=
      (Memory.EqOff.refl _ _ _).setWord (Nat.le_refl _) (Nat.le_refl _)
    have hread : (m.bank.setWord (m.dTemp1 + y) w).word (m.dTemp1 + y) = w := Memory.word_setWord hlt'
    cases ws with
    | nil =>
      refine ⟨_, .unfold (.of_forall fun _ => rfl) fun k => ?_, ⟨hread, trivial⟩, hoff⟩
      rw [ldCopy, hx, hw₀]
      rfl
    | cons v ws =>
      have hy' : add16 y 2 = y + 2 := add16_eq (by simp only [List.length_cons] at hy; omega)
      obtain ⟨b, hset, hb, hoff'⟩ := ih (m := { m with bank := m.bank.setWord (m.dTemp1 + y) w })
        (y := y + 2) (by simp) (hw₁.congr (hoff.eqOn (.inr (by omega))))
        hlt (by simp only [List.length_cons] at hy ⊢; omega)
      refine ⟨b, hset.unfold fun k => ?_, ⟨?_, hb⟩, ?_⟩
      · rw [ldCopy, hx, hy', hw₀]
        simp only [List.length_cons]
        rw [if_neg (by omega)]
      · rw [hoff'.word (.inl (by simp only [Nat.add_assoc]; omega)), hread]
      · simp only [List.length_cons] at hoff' ⊢
        exact (hoff.mono (Nat.le_refl _) (by omega)).trans (hoff'.mono (by omega) (by omega))

/-- **Moving up**: the words from `DTemp5` to `DTemp4` move up by `d`, the last one first. -/
theorem liCopyMove_spec {w d : ℕ} (hw : m.bank.WordsAt m.dTemp5 (ws ++ [w]))
    (h₄ : m.dTemp4 = m.dTemp5 + 2 * ws.length) (h₄' : m.dTemp4H = m.dTemp4 + d) (hd : 2 ≤ d)
    (hb : m.dTemp4 + d < 0x10000) :
    ∃ b q q', Settles (fun fuel => liCopyMove fuel m)
        (.ok { m with bank := b, dTemp4 := q, dTemp4H := q' }) ∧
      b.WordsAt (m.dTemp5 + d) (ws ++ [w]) ∧
      m.bank.EqOff (m.dTemp5 + d) (m.dTemp5 + d + 2 * (ws.length + 1)) b := by
  induction ws using List.reverseRecOn generalizing m w with
  | nil =>
    have hlt : w < 0x10000 := hw.1 ▸ Memory.word_lt _ _
    simp only [List.length_nil, Nat.mul_zero, Nat.add_zero] at h₄
    refine ⟨m.bank.setWord (m.dTemp5 + d) w, m.dTemp4, m.dTemp4H,
      .unfold (.of_forall fun _ => rfl) fun k => ?_, ⟨Memory.word_setWord hlt, trivial⟩,
      (Memory.EqOff.refl _ _ _).setWord (Nat.le_refl _) (by simp)⟩
    rw [liCopyMove, h₄, hw.1, h₄', h₄]
    simp
  | append_singleton ws v ih =>
    rw [Memory.wordsAt_append] at hw
    obtain ⟨hws, hlast, -⟩ := hw
    simp only [List.length_append, List.length_singleton] at h₄ hlast
    have hlt : w < 0x10000 := hlast ▸ Memory.word_lt _ _
    rw [← h₄] at hlast
    have h₅ : sub16 m.dTemp4 2 = m.dTemp5 + 2 * ws.length := by unfold sub16; omega
    have h₅' : sub16 (m.dTemp4 + d) 2 = m.dTemp5 + 2 * ws.length + d := by unfold sub16; omega
    have hoff : m.bank.EqOff (m.dTemp4 + d) (m.dTemp4 + d + 2)
        (m.bank.setWord (m.dTemp4 + d) w) :=
      (Memory.EqOff.refl _ _ _).setWord (Nat.le_refl _) (Nat.le_refl _)
    obtain ⟨b, q, q', hset, hb', hoff'⟩ := ih (m := { m with
        bank := m.bank.setWord (m.dTemp4 + d) w
        dTemp4 := m.dTemp5 + 2 * ws.length, dTemp4H := m.dTemp5 + 2 * ws.length + d })
      (hws.congr (hoff.eqOn (.inl (by
        simp only [List.length_append, List.length_singleton]
        omega)))) rfl rfl (by simp only; omega)
    have hoff' : (m.bank.setWord (m.dTemp4 + d) w).EqOff (m.dTemp5 + d)
      (m.dTemp5 + d + 2 * (ws.length + 1)) b := hoff'
    refine ⟨b, q, q', hset.unfold fun k => ?_, ?_, ?_⟩
    · rw [liCopyMove, hlast, h₄']
      simp only [h₅, h₅']
      rw [if_neg (by omega)]
    · rw [Memory.wordsAt_append]
      refine ⟨hb', ?_, trivial⟩
      simp only [List.length_append, List.length_singleton]
      rw [hoff'.word (.inr (by omega)), show m.dTemp5 + d + 2 * (ws.length + 1) =
        m.dTemp4 + d by omega, Memory.word_setWord hlt]
    · simp only [List.length_append, List.length_singleton]
      exact (hoff.mono (by omega) (by omega)).trans (hoff'.mono (Nat.le_refl _) (by omega))

/-- **Copying the tokens in**, from a source below the gap. -/
theorem liCopyTokens_spec (hus : us ≠ []) (hw : m.bank.WordsAt m.dTemp1 us)
    (h₃ : m.dTemp3 = 2 * us.length + 4) (hd : m.dTemp1 + 2 * us.length ≤ m.dTemp5)
    (hb : m.dTemp5 + y + 2 * us.length < 0x10000) :
    ∃ b c d, Settles (fun fuel => liCopyTokens fuel m y)
        (.ok { m with bank := b, dTemp1 := c, dTemp3 := d }) ∧
      b.WordsAt (m.dTemp5 + y) us ∧
      m.bank.EqOff (m.dTemp5 + y) (m.dTemp5 + y + 2 * us.length) b := by
  induction us generalizing m y with
  | nil => exact absurd rfl hus
  | cons u us ih =>
    obtain ⟨hu, hw⟩ := hw
    have hlt : u < 0x10000 := hu ▸ Memory.word_lt _ _
    simp only [List.length_cons] at h₃ hd hb
    have h₃' : sub16 m.dTemp3 2 = 2 * us.length + 4 := by unfold sub16; omega
    have h₁ : add16 m.dTemp1 2 = m.dTemp1 + 2 := add16_eq (by omega)
    have hoff : m.bank.EqOff (m.dTemp5 + y) (m.dTemp5 + y + 2) (m.bank.setWord (m.dTemp5 + y) u) :=
      (Memory.EqOff.refl _ _ _).setWord (Nat.le_refl _) (Nat.le_refl _)
    have hread : (m.bank.setWord (m.dTemp5 + y) u).word (m.dTemp5 + y) = u := Memory.word_setWord hlt
    cases us with
    | nil =>
      refine ⟨m.bank.setWord (m.dTemp5 + y) u, m.dTemp1 + 2, 4,
        .unfold (.of_forall fun _ => rfl) fun k => ?_, ⟨hread, trivial⟩, hoff⟩
      rw [liCopyTokens, hu]
      simp only [h₃', h₁, List.length_nil, if_true]
    | cons v us =>
      have hy' : add16 y 2 = y + 2 := add16_eq (by omega)
      obtain ⟨b, c, d, hset, hb', hoff'⟩ := ih (m := { m with
          bank := m.bank.setWord (m.dTemp5 + y) u, dTemp1 := m.dTemp1 + 2
          dTemp3 := 2 * (v :: us).length + 4 }) (y := y + 2) (by simp)
        (hw.congr (hoff.eqOn (.inl (by simp only [List.length_cons] at hd ⊢; omega)))) rfl
        (by simp only [List.length_cons] at hd ⊢; omega)
        (by simp only [List.length_cons] at hb ⊢; omega)
      refine ⟨b, c, d, hset.unfold fun k => ?_, ⟨?_, hb'⟩, ?_⟩
      · rw [liCopyTokens, hu]
        simp only [h₃', h₁, hy']
        rw [if_neg (by simp only [List.length_cons]; omega)]
      · rw [hoff'.word (.inl (by simp only [Nat.add_assoc]; omega)), hread]
      · simp only [List.length_cons] at hoff' ⊢
        exact (hoff.mono (Nat.le_refl _) (by omega)).trans (hoff'.mono (by omega) (by omega))

/-- **The length of a token line**, found by skipping tokens and string bodies. -/
theorem liFindLength_spec (h : TokenLine ts) (hw : m.bank.WordsAt (m.dTemp1 + y) (ts ++ [0x0000]))
    (hb : y + 2 * ts.length < 0x10000) :
    Settles (fun fuel => liFindLength fuel m y) (.ok (y + 2 * ts.length)) := by
  induction h generalizing y with
  | nil =>
    refine .unfold (.of_forall fun _ => rfl) fun k => ?_
    have hz : m.bank.word (m.dTemp1 + y) = 0 := hw.1
    simp only [liFindLength, hz, if_true]
    rfl
  | @token t ts ht _ ih =>
    simp only [List.length_cons] at hb
    have hi := ih (y := y + 2) hw.2 (by omega)
    rw [show y + 2 + 2 * ts.length = y + 2 * (t :: ts).length by
      simp only [List.length_cons]; omega] at hi
    refine hi.unfold fun k => ?_
    have ht' : m.bank.word (m.dTemp1 + y) = t := hw.1
    simp only [liFindLength, ht']
    rw [if_neg (by omega), if_neg (by omega), add16_eq (by omega)]
  | @string header body ts hh hlt _ ih =>
    simp only [List.length_cons, List.length_append] at hb
    rw [List.cons_append, Memory.wordsAt_cons, List.append_assoc, Memory.wordsAt_append] at hw
    obtain ⟨hhead, -, htail⟩ := hw
    have hi := ih (y := y + header) (by
      rwa [show m.dTemp1 + (y + header) = m.dTemp1 + y + 2 + 2 * body.length by omega]) (by omega)
    rw [show y + header + 2 * ts.length = y + 2 * (header :: (body ++ ts)).length by
      simp only [List.length_cons, List.length_append]; omega] at hi
    refine hi.unfold fun k => ?_
    simp only [liFindLength, hhead]
    rw [if_neg (by omega), if_pos hlt, add16_eq (by omega)]

/-! ## The two halves of an edit -/

theorem StoredAt.of_parts {mem : Memory} {a : ℕ} {ks ls : List Line}
    (hks : mem.WordsAt a (wordsOfLines ks))
    (hls : mem.WordsAt (a + sizeOfLines ks) (wordsOfLines ls ++ [0x0000]))
    (hb : a + sizeOfLines (ks ++ ls) + 2 ≤ 0x10000) : StoredAt mem a (ks ++ ls) where
  words := by
    rw [wordsOfLines_append, List.append_assoc, Memory.wordsAt_append]
    exact ⟨hks, hls⟩
  bound := hb

theorem StoredAt.front {mem : Memory} {a : ℕ} {ks ls : List Line} (h : StoredAt mem a (ks ++ ls)) :
    mem.WordsAt a (wordsOfLines ks) := by
  have hw := h.words
  rw [wordsOfLines_append, List.append_assoc, Memory.wordsAt_append] at hw
  exact hw.1

/-- The lines before and behind line `n`. -/
theorem Program.split_of_mem {l : Line} (hl : l ∈ p.lines) :
    ∃ ks ls, p.lines = ks ++ l :: ls ∧ (∀ k ∈ ks, k.number ≠ l.number) ∧
      (p.delete l.number).lines = ks ++ ls := by
  obtain ⟨ks, ls, hsplit⟩ := List.append_of_mem hl
  have hasc := p.ascending
  rw [hsplit, List.pairwise_append, List.pairwise_cons] at hasc
  obtain ⟨-, ⟨hls, -⟩, hks⟩ := hasc
  have hks' : ∀ k ∈ ks, k.number ≠ l.number := fun k hk => Nat.ne_of_lt (hks k hk l (by simp))
  refine ⟨ks, ls, hsplit, hks', ?_⟩
  simp only [delete, hsplit, List.filter_append, List.filter_cons, ne_eq, not_true_eq_false,
    decide_false]
  rw [List.filter_eq_self.mpr fun k hk => by simpa using hks' k hk,
    List.filter_eq_self.mpr fun k hk => by simpa using Nat.ne_of_gt (hls k hk)]
  rfl

/-- **Deletion** closes the gap that the line leaves. -/
theorem lineDelete_spec (h : m.Holds p) (n : ℕ) :
    ∃ b t₁ t₂, Settles (fun fuel => lineDelete fuel m n)
        (.ok { m with bank := b, dTemp1 := t₁, dTemp2 := t₂ }) ∧
      StoredAt b (m.dBaseAddress + blockProgramStart) (p.delete n).lines ∧
      m.bank.EqOff (m.dBaseAddress + blockProgramStart) (m.codeEnd p + 2) b := by
  have hstart := h.programStart_eq
  have htop := h.top
  have hst := h.stored
  by_cases hmem : ∃ l ∈ p.lines, l.number = n
  · obtain ⟨l, hl, rfl⟩ := hmem
    obtain ⟨ks, ls, hsplit, hks, hdel⟩ := p.split_of_mem hl
    have hroom : m.codeEnd p + 6 ≤ m.dHighAddress := h.room
    have hs : sizeOfLines ls = 2 * (wordsOfLines ls).length := rfl
    have hlen : (wordsOfLines ls ++ [0x0000]).length = (wordsOfLines ls).length + 1 := by simp
    -- the line is at `gap`, the rest of the program behind it at `rest`
    obtain ⟨gap, hgap⟩ : ∃ gap, gap = m.dBaseAddress + blockProgramStart + sizeOfLines ks := ⟨_, rfl⟩
    obtain ⟨rest, hrest⟩ : ∃ rest, rest = gap + (2 * l.tokens.length + 6) := ⟨_, rfl⟩
    have hend : m.codeEnd p = rest + sizeOfLines ls := by
      simp only [Machine.codeEnd, hsplit, sizeOfLines_append, sizeOfLines_cons]
      omega
    rw [hsplit] at hst
    have hline := hst.tail
    have hnext := hline.add16_offset
    have htail := hline.next.words
    rw [← hgap, ← hrest] at htail hnext
    have hcount : add16 (sub16 (m.codeEnd p) rest) 2 = 2 * (wordsOfLines ls ++ [0x0000]).length := by
      rw [sub16_eq (by omega) (by omega), add16_eq (by omega), hlen]
      omega
    obtain ⟨b, hset, hb, hoff⟩ := ldCopy_spec (y := 0) (m := { m with dTemp1 := gap, dTemp2 := rest })
      (by simp) htail (by simp only; omega) (by omega)
    simp only [Nat.add_zero, hlen] at hb hoff
    refine ⟨b, gap, rest, (ldLoop_found (hstart ▸ hst) hks rfl).bind ?_, ?_, ?_⟩
    · have hfind := findCodeEnd_spec (m := { m with dTemp1 := gap, dTemp2 := rest })
        ⟨h.stored, h.room, h.top⟩
      simp only [hstart, ← hgap, hnext]
      refine hfind.bind ?_
      rwa [← hcount] at hset
    · rw [hdel]
      refine .of_parts (hst.front.congr (hoff.eqOn (.inl ?_))) (hgap ▸ hb) ?_
      · have hs' : sizeOfLines ks = 2 * (wordsOfLines ks).length := rfl
        omega
      · rw [sizeOfLines_append]
        omega
    · exact hoff.mono (by omega) (by omega)
  · have hne : ∀ k ∈ p.lines, k.number ≠ n := fun k hk he => hmem ⟨k, hk, he⟩
    have hdel : (p.delete n).lines = p.lines :=
      List.filter_eq_self.mpr fun k hk => by simpa using hne k hk
    refine ⟨m.bank, m.dTemp1, m.dTemp2, (ldLoop_missing (hstart ▸ hst) hne).bind
      (.of_forall fun _ => rfl), ?_, .refl _ _ _⟩
    rwa [hdel]

theorem Program.sizeOfLines_delete_le (p : Program) (n : ℕ) :
    sizeOfLines (p.delete n).lines ≤ sizeOfLines p.lines := by
  simp only [delete]
  induction p.lines with
  | nil => simp
  | cons l ls ih =>
    simp only [List.filter_cons]
    split_ifs
    · simp only [sizeOfLines_cons]
      omega
    · simp only [sizeOfLines_cons]
      omega

theorem Program.sizeOfLines_insertLine (l : Line) (ls : List Line) :
    sizeOfLines (insertLine l ls) = sizeOfLines ls + (2 * l.tokens.length + 6) := by
  have h : sizeOfLines ls = sizeOfLines (ls.takeWhile fun k => k.number < l.number) +
      sizeOfLines (ls.dropWhile fun k => k.number < l.number) := by
    rw [← sizeOfLines_append, List.takeWhile_append_dropWhile]
  rw [insertLine, sizeOfLines_append, sizeOfLines_cons, h]
  omega

/-- Where a line of number `n` goes in. -/
theorem Program.insert_split (p : Program) (n : ℕ) :
    ∃ ks ls, p.lines = ks ++ ls ∧ (∀ k ∈ ks, k.number < n) ∧ (∀ k ∈ ls, n ≤ k.number) ∧
      ∀ ts, insertLine ⟨n, ts⟩ p.lines = ks ++ ⟨n, ts⟩ :: ls := by
  refine ⟨p.lines.takeWhile fun k => k.number < n, p.lines.dropWhile fun k => k.number < n,
    List.takeWhile_append_dropWhile.symm, fun k hk => by simpa using List.mem_takeWhile_imp hk,
    fun k hk => ?_, fun _ => rfl⟩
  have hasc := p.ascending
  rw [← List.takeWhile_append_dropWhile (p := fun k : Line => decide (k.number < n)) (l := p.lines),
    List.pairwise_append] at hasc
  cases hd : p.lines.dropWhile fun k => decide (k.number < n) with
  | nil => rw [hd] at hk; simp at hk
  | cons l ls =>
    have hhead := List.head_dropWhile_not (fun k : Line => decide (k.number < n)) (l := p.lines)
      (by rw [hd]; simp)
    simp only [hd, List.head_cons, decide_eq_false_iff_not, Nat.not_lt] at hhead
    rw [hd] at hk hasc
    rcases List.mem_cons.mp hk with rfl | hk
    · exact hhead
    · exact Nat.le_trans hhead (Nat.le_of_lt ((List.pairwise_cons.mp hasc.2.1).1 k hk))

/-- **Insertion** opens a gap and fills it with the new line. -/
theorem lineInsert_spec (h : m.Holds p) (ht : TokenLine ts)
    (hw : m.bank.WordsAt y (ts ++ [0x0000]))
    (hy : y + 2 * (ts.length + 1) ≤ m.dBaseAddress + blockProgramStart)
    (hroom : m.codeEnd p + (2 * ts.length + 6) + 6 ≤ m.dHighAddress) (hn : n < 0x10000) :
    ∃ m', Settles (fun fuel => lineInsert fuel m n y) (.ok m') ∧
      StoredAt m'.bank (m.dBaseAddress + blockProgramStart) (Program.insertLine ⟨n, ts⟩ p.lines) ∧
      m'.dBaseAddress = m.dBaseAddress ∧ m'.dHighAddress = m.dHighAddress ∧
      m.bank.EqOff (m.dBaseAddress + blockProgramStart) m.dHighAddress m'.bank := by
  obtain ⟨ks, ls, hsplit, hks, hls, hins⟩ := p.insert_split n
  have hstart := h.programStart_eq
  have htop := h.top
  have hst := h.stored
  have hs : sizeOfLines ls = 2 * (wordsOfLines ls).length := rfl
  have hs' : sizeOfLines ks = 2 * (wordsOfLines ks).length := rfl
  obtain ⟨gap, hgap⟩ : ∃ gap, gap = m.dBaseAddress + blockProgramStart + sizeOfLines ks := ⟨_, rfl⟩
  have hend : m.codeEnd p = gap + sizeOfLines ls := by
    simp only [Machine.codeEnd, hsplit, sizeOfLines_append]
    omega
  rw [hsplit] at hst
  have htail := hst.tail.words
  rw [← hgap] at htail
  have hroom' : gap + sizeOfLines ls + (2 * ts.length + 6) + 6 ≤ m.dHighAddress := hend ▸ hroom
  have hlen₆ : add16 (0 + 2 * ts.length) 6 = 2 * ts.length + 6 := by
    rw [Nat.zero_add, add16_eq (by omega)]
  have hlenE : add16 (m.codeEnd p) (2 * ts.length + 6) = m.codeEnd p + (2 * ts.length + 6) :=
    add16_eq (by omega)
  -- the registers while the gap is opened
  obtain ⟨r, hr⟩ : ∃ r : Machine, r = { m with
    dTemp1 := y, dTemp2 := n, dTemp3 := 2 * ts.length + 6, dTemp5 := gap } := ⟨_, rfl⟩
  obtain ⟨b, q, q', hmove, hb, hoff⟩ := liCopyMove_spec (d := 2 * ts.length + 6)
    (m := { r with dTemp4 := m.codeEnd p, dTemp4H := m.codeEnd p + (2 * ts.length + 6) })
    (w := 0) (show r.bank.WordsAt r.dTemp5 (wordsOfLines ls ++ [0]) by rw [hr]; exact htail)
    (by rw [hr, ← hs]; exact hend) rfl
    (by omega) (by simp only; omega)
  simp only [hr] at hb hoff hmove
  have hoff' : b.EqOff gap (gap + 4)
      ((b.setWord gap (2 * ts.length + 6)).setWord (gap + 2) n) :=
    ((Memory.EqOff.refl _ _ _).setWord (Nat.le_refl _) (by omega)).setWord (by omega) (by omega)
  have hus : (ts ++ [0x0000]).length = ts.length + 1 := by simp
  have hsource : ((b.setWord gap (2 * ts.length + 6)).setWord (gap + 2) n).WordsAt y
      (ts ++ [0x0000]) :=
    (hw.congr (hoff.eqOn (.inl (by omega)))).congr (hoff'.eqOn (.inl (by omega)))
  obtain ⟨b', c, d, hcopy, hb', hoff''⟩ := liCopyTokens_spec (y := 4)
    (m := { r with
      dTemp4 := q, dTemp4H := q'
      bank := (b.setWord gap (2 * ts.length + 6)).setWord (gap + 2) n })
    (List.append_ne_nil_of_right_ne_nil ts (List.cons_ne_nil 0x0000 [])) (by rw [hr]; exact hsource)
    (by rw [hr]; simp only [hus]; omega) (by rw [hr]; simp only; omega)
    (by rw [hr]; simp only; omega)
  simp only [hr] at hb' hoff'' hcopy
  refine ⟨{ m with
    dTemp1 := c, dTemp2 := n, dTemp3 := d, dTemp4 := q, dTemp4H := q', dTemp5 := gap, bank := b' },
    ?_, ?_, rfl, rfl, ?_⟩
  · have hlength := liFindLength_spec (m := { m with dTemp1 := y, dTemp2 := n }) (y := 0) ht hw
      (by omega)
    have hpoint := liFindInsertPoint_spec
      (m := { m with dTemp1 := y, dTemp2 := n, dTemp3 := 2 * ts.length + 6 }) hst hks hls
    have hfind := findCodeEnd_spec (m := { m with
      dTemp1 := y, dTemp2 := n, dTemp3 := 2 * ts.length + 6, dTemp5 := gap })
      ⟨h.stored, h.room, h.top⟩
    rw [← hgap] at hpoint
    refine hlength.bind ?_
    simp only [hlen₆, Machine.programStart] at hstart ⊢
    rw [hstart]
    refine hpoint.bind (hfind.bind ?_)
    simp only [Machine.codeEnd] at hmove hlenE ⊢
    rw [hlenE]
    exact hmove.bind hcopy
  · have hfront : b'.WordsAt (m.dBaseAddress + blockProgramStart) (wordsOfLines ks) :=
      ((hst.front.congr (hoff.eqOn (.inl (by omega)))).congr (hoff'.eqOn (.inl (by omega)))).congr
        (hoff''.eqOn (.inl (by omega)))
    have hmoved : b'.WordsAt (gap + (2 * ts.length + 6)) (wordsOfLines ls ++ [0x0000]) :=
      (hb.congr (hoff'.eqOn (.inr (by omega)))).congr (hoff''.eqOn (.inr (by omega)))
    have hoffset : b'.word gap = 2 * ts.length + 6 := by
      rw [hoff''.word (.inl (by omega)), Memory.word_setWord_of_disjoint (.inl (by omega)),
        Memory.word_setWord (by omega)]
    have hnumber : b'.word (gap + 2) = n := by
      rw [hoff''.word (.inl (by omega)), Memory.word_setWord hn]
    rw [hins]
    refine .of_parts hfront ?_ ?_
    · rw [← hgap, wordsOfLines_cons, Line.words, List.cons_append, List.cons_append,
        List.cons_append, List.cons_append, List.append_assoc, Memory.wordsAt_cons,
        Memory.wordsAt_cons, Memory.wordsAt_append]
      refine ⟨hoffset, hnumber, hb', ?_⟩
      rwa [hus, show gap + 2 + 2 + 2 * (ts.length + 1) = gap + (2 * ts.length + 6) by omega]
    · simp only [sizeOfLines_append, sizeOfLines_cons]
      omega
  · exact ((hoff.mono (by omega) (by omega)).trans (hoff'.mono (by omega) (by omega))).trans
      (hoff''.mono (by omega) (by omega))

/-! ## An edit -/

/-- The token buffer holds a tokenised line: the number `n` and the tokens `ts`. -/
structure Machine.Entered (m : Machine) (n : ℕ) (ts : List ℕ) : Prop where
  number : 1 ≤ n ∧ n ≤ 32767
  buffer : m.bank.WordsAt (m.dBaseAddress + blockTokenBuffer) ((n + 0x4000) :: (ts ++ [0x0000]))
  tokenised : ∃ s, Builder.tokenise s = some ((n + 0x4000) :: ts)
  fits : ts.length + 1 ≤ 126

theorem Machine.Entered.tokenLine (h : m.Entered n ts) : TokenLine ts := by
  obtain ⟨s, hs⟩ := h.tokenised
  generalize hws : (n + 0x4000) :: ts = ws at hs
  cases tokenLine_tokenise hs with
  | nil => cases hws
  | token _ htok =>
    cases hws
    exact htok
  | string _ hlt _ =>
    rw [List.cons.injEq] at hws
    omega

/-- Clearing stays in the workspace. -/
theorem eqOff_of_clearCells {b b' : Memory} {base high codeEnd : ℕ}
    (hroom : base + blockProgramStart + codeEnd + 6 ≤ high)
    (h : ∀ a, ¬ clearCells base (base + blockProgramStart + codeEnd) a → b' a = b a) :
    b.EqOff base high b' := by
  intro a ha
  refine h a ?_
  unfold clearCells
  unfold blockProgramStart at hroom ⊢
  omega

/-- **Entering a line** whose first token is a number edits the program and clears the rest of the
workspace, provided the edited program ends below the top of the workspace. -/
theorem executeTokenBuffer_spec (h : m.Holds p) (he : m.Entered n ts)
    (hroom : m.dBaseAddress + blockProgramStart +
      sizeOfLines (p.edit n ts he.number).lines + 6 ≤ m.dHighAddress) :
    ∃ m', Settles (fun fuel => executeTokenBuffer fuel m) (.ok (.nextCommand, m')) ∧
      m'.Clear (p.edit n ts he.number) ∧
      m'.dBaseAddress = m.dBaseAddress ∧ m'.dHighAddress = m.dHighAddress ∧
      m.bank.EqOff m.dBaseAddress m.dHighAddress m'.bank := by
  have htok := he.tokenLine
  have hn := he.number
  have hbuf := he.buffer
  have hfits := he.fits
  have htop := h.top
  have hroom₀ := h.room
  obtain ⟨b, t₁, t₂, hdel, hst, hoff⟩ := lineDelete_spec h n
  have hle := p.sizeOfLines_delete_le n
  have h₁ : ({ m with bank := b, dTemp1 := t₁, dTemp2 := t₂ } : Machine).Holds (p.delete n) :=
    ⟨hst, by simp only; omega, htop⟩
  obtain ⟨m₁, hclear, hc₁, hbase₁, hhigh₁, hframe⟩ := clearVariablesPointersAndStacks_spec h₁
  simp only at hbase₁ hhigh₁ hframe
  have hoff₁ : m.bank.EqOff m.dBaseAddress m.dHighAddress m₁.bank :=
    (hoff.mono (by omega) (by unfold Machine.codeEnd; omega)).trans
      (eqOff_of_clearCells h₁.room hframe)
  -- the token buffer is not touched by the deletion and the clearing
  have hcode : add16 (blockTokenBuffer + 2) m.dBaseAddress = m.dBaseAddress + 0x102 := by
    unfold blockProgramStart at hroom₀
    rw [add16_eq (by unfold blockTokenBuffer; omega), Nat.add_comm]
    rfl
  have hbuf₁ : m₁.bank.WordsAt (m.dBaseAddress + 0x102) (ts ++ [0x0000]) := by
    refine Memory.WordsAt.congr (m := b) (hbuf.2.congr (hoff.eqOn (.inl ?_))) fun a h₀ h₁ => ?_
    · simp only [List.length_append, List.length_singleton, blockTokenBuffer, blockProgramStart]
      omega
    · refine hframe a ?_
      simp only [List.length_append, List.length_singleton] at h₁
      simp only [clearCells, Machine.codeEnd, blockProgramStart]
      omega
  have hedit : ∀ k, executeTokenBuffer k m = (do
      let m ← lineDelete k m n
      let m ← clearVariablesPointersAndStacks k m
      let code := add16 (blockTokenBuffer + 2) m.dBaseAddress
      if m.bank.word code = 0 then .ok (.nextCommand, m)
      else do
        let m ← lineInsert k m n code
        let m ← clearVariablesPointersAndStacks k m
        .ok (.nextCommand, m)) := fun k => by
    have hfirst : m.block blockTokenBuffer = n + 0x4000 := hbuf.1
    rw [executeTokenBuffer, hfirst]
    simp only
    rw [if_neg (by omega), if_neg (by omega), if_neg (by omega),
      show n + 0x4000 - 0x4000 = n by omega]
  by_cases hts : ts = []
  · subst hts
    refine ⟨m₁, (hdel.bind (hclear.bind (.of_forall fun _ => ?_))).congr hedit, ?_, hbase₁, hhigh₁,
      hoff₁⟩
    · rw [hbase₁, hcode]
      exact if_pos hbuf₁.1
    · rw [Program.edit, if_pos rfl]
      exact hc₁
  · have hfree : ∀ k ∈ (p.delete n).lines, k.number ≠ n := fun k hk =>
      Program.number_ne_of_mem_delete hk
    have hlines : (p.edit n ts hn).lines = Program.insertLine ⟨n, ts⟩ (p.delete n).lines := by
      rw [Program.edit, if_neg hts]
      rfl
    rw [hlines, Program.sizeOfLines_insertLine] at hroom
    dsimp only at hroom
    obtain ⟨m₂, hins, hst₂, hbase₂, hhigh₂, hoff₂⟩ := lineInsert_spec hc₁.toHolds htok
      (y := m.dBaseAddress + 0x102) (n := n) hbuf₁
      (by rw [hbase₁]; unfold blockProgramStart; omega)
      (by simp only [Machine.codeEnd, hbase₁, hhigh₁]; omega) (by omega)
    have h₂ : m₂.Holds (p.edit n ts hn) := by
      refine ⟨by rw [hlines, hbase₂]; exact hst₂, ?_, by rw [hhigh₂, hhigh₁]; exact htop⟩
      rw [hlines, Program.sizeOfLines_insertLine, hbase₂, hbase₁, hhigh₂, hhigh₁]
      exact hroom
    obtain ⟨m₃, hclear₃, hc₃, hbase₃, hhigh₃, hframe₃⟩ := clearVariablesPointersAndStacks_spec h₂
    have hoff₃ := eqOff_of_clearCells h₂.room hframe₃
    rw [hbase₂, hhigh₂, hbase₁, hhigh₁] at hoff₃
    rw [hbase₁, hhigh₁] at hoff₂
    have hfirst : m₁.bank.word (m.dBaseAddress + 0x102) ≠ 0 := by
      cases htok with
      | nil => exact absurd rfl hts
      | token ht _ => rw [hbuf₁.1]; omega
      | string hh _ _ =>
        rw [List.cons_append] at hbuf₁
        rw [hbuf₁.1]
        omega
    refine ⟨m₃, (hdel.bind (hclear.bind ?_)).congr hedit, hc₃, by rw [hbase₃, hbase₂, hbase₁],
      by rw [hhigh₃, hhigh₂, hhigh₁],
      (hoff₁.trans (hoff₂.mono (Nat.le_add_right _ _) (Nat.le_refl _))).trans hoff₃⟩
    simp only [hbase₁, hcode, if_neg hfirst]
    exact hins.bind (hclear₃.bind (.of_forall fun _ => rfl))

end Basic65816
