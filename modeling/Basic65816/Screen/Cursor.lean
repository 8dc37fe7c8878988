import Basic65816.Machine.Print

/-!
# The screen

The screen has 32 lines of 64 cells and a cursor. A character goes into the cell at the cursor, which
moves on; behind the last cell the lines move up.

## Main definitions

* `Screen`: the cells and the cursor
* `Screen.advance`, `Screen.put`, `Screen.nextStop`: what the hardware interface does to them
* `Screen.On`: the memory of the hardware holds a screen

## Main results

* `hwPrintChar_shows`: every character but the marker is put into a cell
* `hwMoveCursor_shows`: the cursor moves to the next stop
-/

namespace Basic65816

/-- The cells of the screen, line by line, and the cursor. -/
structure Screen where
  cells : ℕ → ℕ
  cursor : ℕ
  inside : cursor < sWidth * sHeight

namespace Screen

/-- The lines move up, and the last one is blank. -/
def scroll (s : Screen) : Screen where
  cells i := if i < sWidth * (sHeight - 1) then s.cells (sWidth + i) else 32
  cursor := sWidth * (sHeight - 1)
  inside := by decide

/-- The cursor moves on by one cell. -/
def advance (s : Screen) : Screen :=
  if h : s.cursor + 1 < sWidth * sHeight then ⟨s.cells, s.cursor + 1, h⟩ else s.scroll

/-- A character in the cell at the cursor. -/
def put (s : Screen) (c : ℕ) : Screen :=
  advance ⟨Function.update s.cells s.cursor c, s.cursor, s.inside⟩

/-- The cursor at the next multiple of `k`. -/
def nextStop (k : ℕ) (s : Screen) : Screen := advance^[k - s.cursor % k] s

theorem advance_cursor (s : Screen) : s.advance.cursor =
    if s.cursor + 1 = sWidth * sHeight then sWidth * (sHeight - 1) else s.cursor + 1 := by
  have hinside := s.inside
  unfold advance
  split_ifs with h heq
  · omega
  · rfl
  · rfl
  · omega

/-- The stops are on every line in the same columns. -/
theorem advance_cursor_mod (s : Screen) {k : ℕ} (hk : k ∣ sWidth) :
    s.advance.cursor % k = (s.cursor + 1) % k := by
  rw [advance_cursor]
  split_ifs with h
  · obtain ⟨j, hj⟩ := hk
    rw [h, hj, Nat.mul_assoc, Nat.mul_assoc, Nat.mul_mod_right, Nat.mul_mod_right]
  · rfl

end Screen

/-- The memory of the hardware holds the screen `s`. -/
structure Screen.On (s : Screen) (far : Memory) : Prop where
  cursor : far.word hwCursor = s.cursor
  cells : ∀ i < sWidth * sHeight, far.byte (hwScreen + i) = s.cells i

section

variable {far : Memory} {s : Screen} {n x a i k : ℕ}

/-! ## Scrolling -/

theorem eqOff_hwScrollUp (n : ℕ) (far : Memory) (x : ℕ) :
    Memory.EqOff (hwScreen + x) (hwScreen + x + 2 * n) far (hwScrollUp n far x) := by
  induction n generalizing far x with
  | zero => exact .refl _ _ _
  | succ n ih =>
    refine Memory.EqOff.trans ?_ ((ih _ (x + 2)).mono (by omega) (by omega))
    exact (Memory.EqOff.refl _ _ _).setWord (by omega) (by omega)

theorem eqOff_hwBlank (n : ℕ) (far : Memory) (x : ℕ) :
    Memory.EqOff (hwScreen + x) (hwScreen + x + 2 * n) far (hwBlank n far x) := by
  induction n generalizing far x with
  | zero => exact .refl _ _ _
  | succ n ih =>
    refine Memory.EqOff.trans ?_ ((ih _ (x + 2)).mono (by omega) (by omega))
    exact (Memory.EqOff.refl _ _ _).setWord (by omega) (by omega)

/-- The bytes of a word that was written. -/
theorem byte_setWord_pair (far : Memory) (a v i : ℕ) (h : i < 2) :
    (far.setWord a v).byte (a + i) = if i = 0 then v % 256 else v / 256 % 256 := by
  rcases Nat.lt_succ_iff_lt_or_eq.mp h with h | rfl
  · obtain rfl : i = 0 := Nat.lt_one_iff.mp h
    exact Memory.byte_setWord_low _ _ _
  · exact Memory.byte_setWord_high _ _ _

/-- What is written is what stood a line below. The copying goes up, so that no word is read behind
the writing. -/
theorem byte_hwScrollUp (n : ℕ) (far : Memory) (x : ℕ) (hx : x ≤ i) (hi : i < x + 2 * n) :
    (hwScrollUp n far x).byte (hwScreen + i) = far.byte (hwScreen + sWidth + i) := by
  induction n generalizing far x with
  | zero => omega
  | succ n ih =>
    obtain ⟨far₁, hfar⟩ : ∃ far₁, far₁ =
      far.setWord (hwScreen + x) (far.word (hwScreen + sWidth + x)) := ⟨_, rfl⟩
    rw [hwScrollUp, ← hfar]
    rcases Nat.lt_or_ge i (x + 2) with h | h
    · obtain ⟨j, rfl⟩ : ∃ j, i = x + j := ⟨i - x, by omega⟩
      rw [(eqOff_hwScrollUp n far₁ (x + 2)).byte (.inl (by omega)), hfar, ← Nat.add_assoc,
        byte_setWord_pair _ _ _ _ (by omega)]
      split_ifs with hj
      · rw [Memory.word_mod, hj, Nat.add_zero]
      · obtain rfl : j = 1 := by omega
        rw [Memory.word_div, Nat.mod_eq_of_lt (Memory.byte_lt _ _), ← Nat.add_assoc]
    · rw [ih far₁ (x + 2) h (by omega), hfar]
      have hwidth : sWidth = 64 := rfl
      exact Memory.byte_setWord_of_ne (by omega) (by omega)

theorem byte_hwBlank (n : ℕ) (far : Memory) (x : ℕ) (hx : x ≤ i) (hi : i < x + 2 * n) :
    (hwBlank n far x).byte (hwScreen + i) = 32 := by
  induction n generalizing far x with
  | zero => omega
  | succ n ih =>
    rw [hwBlank]
    rcases Nat.lt_or_ge i (x + 2) with h | h
    · obtain ⟨j, rfl⟩ : ∃ j, i = x + j := ⟨i - x, by omega⟩
      rw [(eqOff_hwBlank n _ (x + 2)).byte (.inl (by omega)), ← Nat.add_assoc,
        byte_setWord_pair _ _ _ _ (by omega)]
      split_ifs <;> rfl
    · exact ih _ (x + 2) h (by omega)

/-! ## Characters -/

/-- The cursor moves on. -/
theorem shows_advance (h : s.On far) {far' : Memory}
    (hfar : far' = far.setWord hwCursor (add16 s.cursor 1)) :
    s.advance.On (if add16 s.cursor 1 ≠ sWidth * sHeight then far'
      else hwBlank (sWidth / 2) (hwScrollUp (sWidth * sHeight / 2)
        (far'.setWord hwCursor (sub16 (add16 s.cursor 1) sWidth)) 0)
        (sWidth * (sHeight - 1))) := by
  have hinside := s.inside
  have hsize : sWidth * sHeight = 2048 := rfl
  have hlast : sWidth * (sHeight - 1) = 1984 := rfl
  have hwidth : sWidth = 64 := rfl
  have hscreen : hwScreen = 0xF0000 := rfl
  have hcursor : hwCursor = 0xF8020 := rfl
  have hone : add16 s.cursor 1 = s.cursor + 1 := add16_eq (by omega)
  rw [hone] at hfar ⊢
  unfold Screen.advance
  by_cases hend : s.cursor + 1 < sWidth * sHeight
  · rw [if_pos (by omega), dif_pos hend]
    subst hfar
    constructor
    · exact Memory.word_setWord (by omega)
    · intro i hi
      rw [Memory.byte_setWord_of_ne (by omega) (by omega)]
      exact h.cells i hi
  · have heq : s.cursor + 1 = sWidth * sHeight := by omega
    rw [if_neg (not_not.mpr heq), dif_neg hend]
    obtain ⟨far₁, hfar₁⟩ : ∃ far₁, far₁ =
      far'.setWord hwCursor (sub16 (s.cursor + 1) sWidth) := ⟨_, rfl⟩
    rw [← hfar₁]
    constructor
    · have hblank := eqOff_hwBlank (sWidth / 2) (hwScrollUp (sWidth * sHeight / 2) far₁ 0)
        (sWidth * (sHeight - 1))
      have hscroll := eqOff_hwScrollUp (sWidth * sHeight / 2) far₁ 0
      rw [hblank.word (.inr (by omega)), hscroll.word (.inr (by omega)), hfar₁, heq]
      exact Memory.word_setWord (by decide)
    · intro i hi
      change _ = if i < sWidth * (sHeight - 1) then s.cells (sWidth + i) else 32
      split_ifs with hline
      · rw [(eqOff_hwBlank _ _ _).byte (.inl (by omega)), byte_hwScrollUp _ _ _ (by omega) (by omega),
          hfar₁, Memory.byte_setWord_of_ne (by omega) (by omega), hfar,
          Memory.byte_setWord_of_ne (by omega) (by omega), Nat.add_assoc]
        exact h.cells _ (by omega)
      · exact byte_hwBlank _ _ _ (by omega) (by omega)

/-- **A character** goes into the cell at the cursor. -/
theorem hwPrintChar_shows (h : s.On far) (ha : a ≠ 0xFFFF) :
    (s.put (a % 256)).On (hwPrintChar far a) := by
  have hinside := s.inside
  have hsize : sWidth * sHeight = 2048 := rfl
  have hscreen : hwScreen = 0xF0000 := rfl
  have hcursor : hwCursor = 0xF8020 := rfl
  unfold hwPrintChar
  dsimp only
  rw [if_neg ha, h.cursor]
  have hput : Screen.On ⟨Function.update s.cells s.cursor (a % 256), s.cursor, s.inside⟩
      (far.setByte (hwScreen + s.cursor) a) := by
    constructor
    · rw [Memory.word_setByte_of_disjoint (.inr (by omega))]
      exact h.cursor
    · intro i hi
      dsimp only
      rcases eq_or_ne i s.cursor with rfl | hne
      · rw [Memory.byte_setByte, Function.update_self]
      · rw [Memory.byte_setByte_of_ne (by omega), Function.update_of_ne hne]
        exact h.cells i hi
  exact shows_advance hput rfl

/-- The marker only moves the cursor. -/
theorem hwPrintChar_marker (h : s.On far) : s.advance.On (hwPrintChar far 0xFFFF) := by
  unfold hwPrintChar
  dsimp only
  rw [if_pos rfl, h.cursor]
  exact shows_advance h rfl

/-! ## Stops -/

/-- **The cursor moves to the next stop**, at least by one cell. By induction on the distance. -/
theorem hwMoveCursor_shows {e : ℕ} (he : 2 ^ e ∣ sWidth) (h : s.On far) :
    ∃ far', Settles (fun fuel => hwMoveCursor fuel far (2 ^ e - 1)) (.ok far') ∧
      (s.nextStop (2 ^ e)).On far' := by
  have hpos : 0 < 2 ^ e := Nat.two_pow_pos e
  unfold Screen.nextStop
  obtain ⟨d, hd⟩ : ∃ d, 2 ^ e - s.cursor % 2 ^ e = d + 1 := by
    have hlt := Nat.mod_lt s.cursor hpos
    exact ⟨2 ^ e - s.cursor % 2 ^ e - 1, by omega⟩
  rw [hd]
  induction d generalizing far s with
  | zero =>
    have hmoved := hwPrintChar_marker h
    refine ⟨_, Settles.succ (.of_forall fun fuel => ?_), hmoved⟩
    have hstop : (2 ^ e - 1) &&& (hwPrintChar far 0xFFFF).word hwCursor = 0 := by
      have hlt := Nat.mod_lt s.cursor hpos
      rw [hmoved.cursor, Nat.and_comm, Nat.and_two_pow_sub_one_eq_mod, s.advance_cursor_mod he,
        Nat.add_mod, show s.cursor % 2 ^ e = 2 ^ e - 1 by omega]
      rcases Nat.eq_or_lt_of_le (Nat.succ_le_of_lt hpos) with hone | hone
      · rw [← hone]
      · rw [Nat.mod_eq_of_lt hone, Nat.sub_add_cancel hone.le, Nat.mod_self]
    rw [hwMoveCursor, if_neg (not_not.mpr hstop)]
  | succ d ih =>
    have hmoved := hwPrintChar_marker h
    have hmod : s.advance.cursor % 2 ^ e = s.cursor % 2 ^ e + 1 := by
      rw [s.advance_cursor_mod he, Nat.add_mod, Nat.mod_eq_of_lt (a := 1) (by omega),
        Nat.mod_eq_of_lt (by omega)]
    obtain ⟨far', hset, hshows⟩ := ih hmoved (by omega)
    refine ⟨far', hset.unfold fun fuel => ?_, hshows⟩
    have hmore : (2 ^ e - 1) &&& (hwPrintChar far 0xFFFF).word hwCursor ≠ 0 := by
      rw [hmoved.cursor, Nat.and_comm, Nat.and_two_pow_sub_one_eq_mod, hmod]
      exact Nat.succ_ne_zero _
    rw [hwMoveCursor, if_pos hmore]

theorem hwTab_shows (h : s.On far) :
    ∃ far', Settles (fun fuel => hwTab fuel far) (.ok far') ∧ (s.nextStop 8).On far' :=
  hwMoveCursor_shows (e := 3) (by decide) h

theorem hwNewLine_shows (h : s.On far) :
    ∃ far', Settles (fun fuel => hwNewLine fuel far) (.ok far') ∧ (s.nextStop sWidth).On far' :=
  hwMoveCursor_shows (e := 6) (by decide) h

end

end Basic65816
