import Basic65816.Lexer.Assembler
import Basic65816.Lib.Outcome
import Basic65816.Program.Stored

/-!
# The tokeniser stays in its buffer

The overflow test of `TOKWriteToken` looks for a write pointer at the end of the page. Tokens are written
at even addresses, so a token cannot step over the end; a character is written as a word and the pointer
goes back by one, so it cannot either: at the last even address the test catches it, and it never comes
to the last odd address.

## Main definitions

* `Machine.Tokenising`: the write pointer is in the buffer, and nothing outside has been written
* `Machine.Terminated`: the line is complete

## Main results

* `tokWriteToken_inside`, `tokWriteByte_inside`: one write
* `tokMainLoop_inside`: a line
* `tokenise_inside`: how `Tokenise` ends
-/

namespace Basic65816

/-- The write pointer is in the token buffer at `buf`, with room for a word, and nothing outside the
buffer has been written since the state `m`. -/
structure Machine.Tokenising (m : Machine) (buf : ℕ) (m' : Machine) : Prop where
  low : buf ≤ m'.dTemp2
  high : m'.dTemp2 ≤ buf + 0xFE
  bank : Memory.EqOff buf (buf + 0x100) m.bank m'.bank

/-- The write pointer is where a token may begin. -/
structure Machine.AtToken (m : Machine) (buf : ℕ) (m' : Machine) : Prop
    extends m.Tokenising buf m' where
  even : m'.dTemp2 % 2 = 0

/-- The last word that has been written is the terminator, inside the buffer. -/
structure Machine.Terminated (m : Machine) (buf : ℕ) (m' : Machine) : Prop
    extends m.AtToken buf m' where
  behind : buf + 2 ≤ m'.dTemp2
  zero : m'.bank.word (m'.dTemp2 - 2) = 0

/-- An error before which nothing outside the buffer has been written. -/
def Stop.Inside (m : Machine) (buf : ℕ) : Stop → Prop
  | .error _ m' => Memory.EqOff buf (buf + 0x100) m.bank m'.bank
  | .leaves => False
  | .outOfFuel => True

/-- Nothing is written into the workspace, and the write pointer stays. -/
def Machine.Quiet (m m' : Machine) : Prop := m'.bank = m.bank ∧ m'.dTemp2 = m.dTemp2

/-- An error before which nothing is written. -/
def Stop.Quiet (m : Machine) : Stop → Prop
  | .error _ m' => m'.bank = m.bank
  | .leaves => False
  | .outOfFuel => True

variable {m m₁ m₂ : Machine} {buf a fuel : ℕ}

theorem Machine.Tokenising.quiet (h : m.Tokenising buf m₁) (hq : m₁.Quiet m₂) :
    m.Tokenising buf m₂ :=
  ⟨hq.2 ▸ h.low, hq.2 ▸ h.high, hq.1 ▸ h.bank⟩

theorem Machine.AtToken.quiet (h : m.AtToken buf m₁) (hq : m₁.Quiet m₂) : m.AtToken buf m₂ :=
  ⟨h.toTokenising.quiet hq, hq.2 ▸ h.even⟩

/-- A part that writes nothing keeps everything inside. -/
theorem Machine.Tokenising.of_quiet (h : m.Tokenising buf m₁) {r : Result Machine}
    (hr : Outcome m₁.Quiet (Stop.Quiet m₁) r r) :
    Outcome m₁.Quiet (Stop.Inside m buf) r r := by
  refine hr.imp (fun _ hq => hq) fun e he => ?_
  cases e with
  | error e m' =>
    change Memory.EqOff _ _ _ m'.bank
    rw [show m'.bank = m₁.bank from he]
    exact h.bank
  | leaves => exact he
  | outOfFuel => trivial

/-! ## Parts that write nothing -/

theorem Machine.Quiet.refl (m : Machine) : m.Quiet m := ⟨rfl, rfl⟩

theorem Machine.Quiet.trans (h : m.Quiet m₁) (h' : m₁.Quiet m₂) : m.Quiet m₂ :=
  ⟨h'.1.trans h.1, h'.2.trans h.2⟩

theorem quiet_incTemp1 (m : Machine) : m.Quiet m.incTemp1 := ⟨rfl, rfl⟩

theorem tokInLoop_quiet (fuel : ℕ) (h : m.Quiet m₁) :
    Outcome m.Quiet (Stop.Quiet m) (tokInLoop fuel m₁) (tokInLoop fuel m₁) := by
  induction fuel generalizing m₁ with
  | zero => exact trivial
  | succ fuel ih =>
    rw [tokInLoop]
    refine Outcome.ite (fun _ => h.1) fun _ => Outcome.ite (fun _ => ih h) fun _ => Outcome.ok h

theorem tokqFindSize_quiet (fuel : ℕ) (h : m.Quiet m₁) :
    Outcome m.Quiet (Stop.Quiet m) (tokqFindSize fuel m₁) (tokqFindSize fuel m₁) := by
  induction fuel generalizing m₁ with
  | zero => exact trivial
  | succ fuel ih =>
    rw [tokqFindSize]
    exact Outcome.ite (fun _ => h.1) fun _ => Outcome.ite (fun _ => Outcome.ok h) fun _ => ih h

theorem tokiFindLength_quiet (fuel : ℕ) (h : m.Quiet m₁) :
    Outcome m.Quiet (Stop.Quiet m) (tokiFindLength fuel m₁) (tokiFindLength fuel m₁) := by
  induction fuel generalizing m₁ with
  | zero => exact trivial
  | succ fuel ih =>
    rw [tokiFindLength]
    exact Outcome.ite (fun _ => ih h) fun _ => Outcome.ok h

/-- The capitals are written into the text. -/
theorem tokCap_quiet (fuel x y : ℕ) (h : m.Quiet m₁) :
    Outcome m.Quiet (Stop.Quiet m) (tokCap fuel m₁ y x) (tokCap fuel m₁ y x) := by
  induction fuel generalizing m₁ x y with
  | zero => exact trivial
  | succ fuel ih =>
    rw [tokCap]
    refine Outcome.ite (fun _ => Outcome.ok ?_) fun _ => Outcome.ite (fun _ => ih _ _ h) fun _ => ih _ _ ?_
    · exact ⟨h.1, h.2⟩
    · exact ⟨h.1, h.2⟩

theorem tokScan_quiet (es : List TokenEntry) (h : m.Quiet m₁) : m.Quiet (tokScan es m₁).2 := by
  induction es generalizing m₁ with
  | nil => exact h
  | cons e es ih =>
    rw [tokScan]
    split_ifs
    · exact h
    · exact ih h

theorem tokKeywordSearch_quiet (m : Machine) (x : ℕ) : m.Quiet (tokKeywordSearch m x).2 := by
  have hstart : m.Quiet { m with dTemp4 := x, dTemp4H := 1 } := ⟨rfl, rfl⟩
  rw [tokKeywordSearch]
  exact tokScan_quiet tokenText hstart

/-! ## Writing -/

/-- A word written at the pointer is inside. -/
theorem Machine.Tokenising.setWord (h : m.Tokenising buf m₁) (a : ℕ) :
    Memory.EqOff buf (buf + 0x100) m.bank (m₁.bank.setWord m₁.dTemp2 a) := by
  have hlow := h.low
  have hhigh := h.high
  exact h.bank.setWord (by omega) (by omega)

section

variable (hal : buf % 0x100 = 0) (htop : buf + 0x100 ≤ 0x10000)

include hal htop

/-- **A token** is written at an even address. -/
theorem tokWriteToken_inside (h : m.AtToken buf m₁) (a : ℕ) :
    Outcome (fun m' => m.AtToken buf m' ∧ buf + 2 ≤ m'.dTemp2 ∧
      m'.bank.word (m'.dTemp2 - 2) = a % 0x10000) (Stop.Inside m buf)
      (tokWriteToken m₁ a) (tokWriteToken m₁ a) := by
  have hlow := h.low
  have hhigh := h.high
  have heven := h.even
  have hptr : add16 m₁.dTemp2 2 % 0x100 = 0 ↔ m₁.dTemp2 = buf + 0xFE := by
    unfold add16
    omega
  unfold tokWriteToken
  dsimp only
  refine Outcome.ite (fun _ => h.setWord a) fun hne => Outcome.ok ?_
  have hne' := hptr.not.mp hne
  have hnext : add16 m₁.dTemp2 2 = m₁.dTemp2 + 2 := add16_eq (by omega)
  refine ⟨⟨⟨?_, ?_, h.setWord a⟩, ?_⟩, ?_, ?_⟩
  · dsimp only
    omega
  · dsimp only
    omega
  · dsimp only
    omega
  · dsimp only
    omega
  · dsimp only
    rw [hnext, Nat.add_sub_cancel]
    exact Memory.word_setWord_mod _ _ _

/-- **A character** is written at any address but the last. -/
theorem tokWriteByte_inside (h : m.Tokenising buf m₁) (a : ℕ) :
    Outcome (m.Tokenising buf) (Stop.Inside m buf) (tokWriteByte m₁ a) (tokWriteByte m₁ a) := by
  have hlow := h.low
  have hhigh := h.high
  have hptr : add16 m₁.dTemp2 2 % 0x100 = 0 ↔ m₁.dTemp2 = buf + 0xFE := by
    unfold add16
    omega
  unfold tokWriteByte tokWriteToken
  dsimp only
  by_cases hend : add16 m₁.dTemp2 2 % 0x100 = 0
  · rw [if_pos hend]
    exact h.setWord a
  · rw [if_neg hend]
    have hne := hptr.not.mp hend
    have hnext : sub16 (add16 m₁.dTemp2 2) 1 = m₁.dTemp2 + 1 := by
      unfold add16 sub16
      omega
    refine Outcome.ok ⟨?_, ?_, h.setWord a⟩
    · change buf ≤ sub16 (add16 m₁.dTemp2 2) 1
      omega
    · change sub16 (add16 m₁.dTemp2 2) 1 ≤ buf + 0xFE
      omega

/-- The characters of a string. By induction on their number. -/
theorem tokqWriteString_inside (n : ℕ) (h : m.Tokenising buf m₁) :
    Outcome (m.Tokenising buf) (Stop.Inside m buf) (tokqWriteString n m₁) (tokqWriteString n m₁) := by
  induction n generalizing m₁ with
  | zero => exact Outcome.ok h
  | succ n ih =>
    exact (tokWriteByte_inside hal htop h _).bind fun m₂ h₂ => ih ⟨h₂.low, h₂.high, h₂.bank⟩

/-! ## The parts of a line -/

/-- A token of a line: what it is does not matter. -/
theorem tokWriteToken_next (h : m.AtToken buf m₁) (hq : m₁.Quiet m₂) (a : ℕ) :
    Outcome (m.AtToken buf) (Stop.Inside m buf) (tokWriteToken m₂ a) (tokWriteToken m₂ a) :=
  (tokWriteToken_inside hal htop (h.quiet hq) a).mono fun _ h' => h'.1

theorem tokInteger_inside (h : m.AtToken buf m₁) :
    Outcome (m.AtToken buf) (Stop.Inside m buf) (tokInteger fuel m₁) (tokInteger fuel m₁) := by
  have hstart : m₁.Quiet { m₁ with dTemp3 := 0, dTemp3H := 0 } := ⟨rfl, rfl⟩
  unfold tokInteger
  refine (h.of_quiet (tokInLoop_quiet fuel hstart)).bind fun m₂ hq => ?_
  have h₂ := h.quiet hq
  dsimp only
  refine Outcome.ite (fun _ => h₂.bank) fun _ => Outcome.ite (fun _ => ?_) fun _ => ?_
  · refine tokWriteToken_next hal htop h₂ ?_ _
    exact ⟨rfl, rfl⟩
  · refine (tokWriteToken_next hal htop h₂ ?_ _).bind fun m₃ h₃ =>
      tokWriteToken_next hal htop h₃ (.refl m₃) _
    exact ⟨rfl, rfl⟩

/-- The padding byte behind a string of an odd size. -/
theorem Machine.Tokenising.pad (h : m.Tokenising buf m₁) (hodd : ¬ m₁.dTemp2 % 2 = 0) :
    m.AtToken buf { m₁ with dTemp2 := add16 m₁.dTemp2 1 } := by
  have hlow := h.low
  have hhigh := h.high
  have hnext : add16 m₁.dTemp2 1 = m₁.dTemp2 + 1 := add16_eq (by omega)
  refine ⟨⟨?_, ?_, h.bank⟩, ?_⟩
  · change buf ≤ add16 m₁.dTemp2 1
    omega
  · change add16 m₁.dTemp2 1 ≤ buf + 0xFE
    omega
  · change add16 m₁.dTemp2 1 % 2 = 0
    omega

/-- The words of a string, of any length. -/
theorem tokqWords_inside (h : m.AtToken buf m₁) (hq : m₁.Quiet m₂) (a : ℕ) :
    Outcome (m.AtToken buf) (Stop.Inside m buf)
      (tokWriteToken m₂ a >>= fun m₃ => tokWriteByte m₃ m₃.dTemp3H >>= fun m₄ =>
        tokqWriteString m₄.dTemp3H m₄ >>= fun m₅ =>
          if m₅.dTemp2 % 2 = 0 then .ok m₅ else .ok { m₅ with dTemp2 := add16 m₅.dTemp2 1 })
      (tokWriteToken m₂ a >>= fun m₃ => tokWriteByte m₃ m₃.dTemp3H >>= fun m₄ =>
        tokqWriteString m₄.dTemp3H m₄ >>= fun m₅ =>
          if m₅.dTemp2 % 2 = 0 then .ok m₅ else .ok { m₅ with dTemp2 := add16 m₅.dTemp2 1 }) := by
  refine (tokWriteToken_next hal htop h hq a).bind fun m₃ h₃ => ?_
  refine (tokWriteByte_inside hal htop h₃.toTokenising _).bind fun m₄ h₄ => ?_
  refine (tokqWriteString_inside hal htop _ h₄).bind fun m₅ h₅ => ?_
  exact Outcome.ite (fun heven => Outcome.ok ⟨h₅, heven⟩) fun hodd => Outcome.ok (h₅.pad hal htop hodd)

theorem tokQuotedString_inside (h : m.AtToken buf m₁) : Outcome (m.AtToken buf) (Stop.Inside m buf)
    (tokQuotedString fuel m₁) (tokQuotedString fuel m₁) := by
  have hstart : m₁.Quiet
      { m₁.incTemp1 with dTemp4 := m₁.incTemp1.dTemp1, dTemp4H := m₁.incTemp1.dTemp1H } := ⟨rfl, rfl⟩
  unfold tokQuotedString
  refine (h.of_quiet (tokqFindSize_quiet fuel hstart)).bind fun m₂ hq => ?_
  have hlength : m₂.Quiet { m₂ with dTemp3H := sub16 (sub16 m₂.dTemp1 m₂.dTemp4) 1 } := ⟨rfl, rfl⟩
  exact tokqWords_inside hal htop (h.quiet hq) hlength _

/-- The words of an identifier. By induction on the characters, two at a time. -/
theorem tokiIdentifier_inside (n : ℕ) (h : m.AtToken buf m₁) :
    Outcome (m.AtToken buf) (Stop.Inside m buf) (tokiIdentifier n m₁) (tokiIdentifier n m₁) := by
  induction n using Nat.twoStepInduction generalizing m₁ with
  | zero => exact Outcome.ok h
  | one =>
    rw [tokiIdentifier]
    refine tokWriteToken_next hal htop h ?_ _
    exact ⟨rfl, rfl⟩
  | more n ih _ =>
    rw [tokiIdentifier]
    refine (tokWriteToken_next hal htop h ?_ _).bind fun m₂ h₂ => ih h₂
    exact ⟨rfl, rfl⟩

/-- A keyword is written, or the search goes on. -/
theorem tokKeywordSearch_inside {x : ℕ} {f : Machine → Result Machine} (h : m.AtToken buf m₁)
    (hf : ∀ m₂, m₁.Quiet m₂ → Outcome (m.AtToken buf) (Stop.Inside m buf) (f m₂) (f m₂)) :
    Outcome (m.AtToken buf) (Stop.Inside m buf)
      ((tokKeywordSearch m₁ x).1.elim (f (tokKeywordSearch m₁ x).2)
        (tokWriteToken (tokKeywordSearch m₁ x).2))
      ((tokKeywordSearch m₁ x).1.elim (f (tokKeywordSearch m₁ x).2)
        (tokWriteToken (tokKeywordSearch m₁ x).2)) := by
  have hq := tokKeywordSearch_quiet m₁ x
  cases (tokKeywordSearch m₁ x).1 with
  | none => exact hf _ hq
  | some t => exact tokWriteToken_next hal htop h hq t

theorem tokPunctuation_inside (h : m.AtToken buf m₁) : Outcome (m.AtToken buf) (Stop.Inside m buf)
    (tokPunctuation m₁) (tokPunctuation m₁) := by
  have heq : tokPunctuation m₁ = (tokKeywordSearch m₁ 2).1.elim
      ((tokKeywordSearch (tokKeywordSearch m₁ 2).2 1).1.elim
        (fail (tokKeywordSearch (tokKeywordSearch m₁ 2).2 1).2 .cannotParseLine)
        (tokWriteToken (tokKeywordSearch (tokKeywordSearch m₁ 2).2 1).2))
      (tokWriteToken (tokKeywordSearch m₁ 2).2) := by
    unfold tokPunctuation
    rcases tokKeywordSearch m₁ 2 with ⟨_ | t, m₂⟩
    · dsimp only
      rcases tokKeywordSearch m₂ 1 with ⟨_ | t, m₃⟩ <;> rfl
    · rfl
  rw [heq]
  refine tokKeywordSearch_inside hal htop
    (f := fun m₂ => (tokKeywordSearch m₂ 1).1.elim (fail (tokKeywordSearch m₂ 1).2 .cannotParseLine)
      (tokWriteToken (tokKeywordSearch m₂ 1).2)) h fun m₂ hq => ?_
  refine tokKeywordSearch_inside hal htop (f := fun m => fail m .cannotParseLine) (h.quiet hq)
    fun m₃ hq' => ?_
  exact ((h.quiet hq).quiet hq').bank

theorem tokMeasured_inside (h : m.AtToken buf m₁) : Outcome (m.AtToken buf) (Stop.Inside m buf)
    (tokMeasured m₁) (tokMeasured m₁) := by
  have heq : tokMeasured m₁ = (tokKeywordSearch m₁ m₁.dTemp5H).1.elim
      (tokiIdentifier (tokKeywordSearch m₁ m₁.dTemp5H).2.dTemp5 (tokKeywordSearch m₁ m₁.dTemp5H).2 >>=
        fun m => .ok { m with dTemp1 := add16 m.dTemp3 m.dTemp5H })
      (tokWriteToken (tokKeywordSearch m₁ m₁.dTemp5H).2) := by
    unfold tokMeasured
    rcases tokKeywordSearch m₁ m₁.dTemp5H with ⟨_ | t, m₂⟩ <;> rfl
  rw [heq]
  refine tokKeywordSearch_inside hal htop (f := fun m => tokiIdentifier m.dTemp5 m >>= fun m =>
    .ok { m with dTemp1 := add16 m.dTemp3 m.dTemp5H }) h fun m₂ hq => ?_
  exact (tokiIdentifier_inside hal htop _ (h.quiet hq)).bind fun m₃ h₃ =>
    Outcome.ok (h₃.quiet ⟨rfl, rfl⟩)

theorem tokIdentifier_inside (h : m.AtToken buf m₁) : Outcome (m.AtToken buf) (Stop.Inside m buf)
    (tokIdentifier fuel m₁) (tokIdentifier fuel m₁) := by
  have hstart : m₁.Quiet { m₁ with dTemp3 := m₁.dTemp1 } := ⟨rfl, rfl⟩
  unfold tokIdentifier
  refine (h.of_quiet (tokiFindLength_quiet fuel hstart)).bind fun m₂ hq => ?_
  refine tokMeasured_inside hal htop (h.quiet (hq.trans ?_))
  split_ifs <;> exact ⟨rfl, rfl⟩

/-! ## The line -/

/-- The terminator has been written behind the last token. -/
theorem tokWriteToken_end (h : m.AtToken buf m₁) :
    Outcome (m.Terminated buf) (Stop.Inside m buf) (tokWriteToken m₁ 0) (tokWriteToken m₁ 0) :=
  (tokWriteToken_inside hal htop h 0).mono fun _ h' => ⟨h'.1, h'.2.1, h'.2.2⟩

/-- **The main loop** stays in the buffer, whatever the text is. By induction on the rounds. -/
theorem tokMainLoop_inside (fuel : ℕ) (h : m.AtToken buf m₁) : Outcome (m.Terminated buf)
    (Stop.Inside m buf) (tokMainLoop fuel m₁) (tokMainLoop fuel m₁) := by
  induction fuel generalizing m₁ with
  | zero => exact trivial
  | succ fuel ih =>
    rw [tokMainLoop]
    refine Outcome.ite (fun _ => tokWriteToken_end hal htop h) fun _ => ?_
    refine Outcome.ite (fun _ => ih (h.quiet (quiet_incTemp1 m₁))) fun _ => ?_
    refine Outcome.ite (fun _ => (tokQuotedString_inside hal htop h).bind fun m₂ h₂ => ih h₂) fun _ => ?_
    refine Outcome.ite (fun _ => (tokPunctuation_inside hal htop h).bind fun m₂ h₂ => ih h₂) fun _ => ?_
    refine Outcome.ite (fun _ => (tokInteger_inside hal htop h).bind fun m₂ h₂ => ih h₂) fun _ => ?_
    refine Outcome.ite (fun _ => (tokPunctuation_inside hal htop h).bind fun m₂ h₂ => ih h₂) fun _ => ?_
    refine Outcome.ite (fun _ => (tokIdentifier_inside hal htop h).bind fun m₂ h₂ => ih h₂) fun _ => ?_
    exact (tokPunctuation_inside hal htop h).bind fun m₂ h₂ => ih h₂

end

/-- With any amount of fuel `Tokenise` stays in its buffer. -/
theorem tokenise_outcome {y : ℕ} (fuel : ℕ) (hbase : m.dBaseAddress % 0x100 = 0)
    (htop : m.dBaseAddress + 0x200 ≤ 0x10000) :
    Outcome (m.Terminated (m.dBaseAddress + blockTokenBuffer))
      (Stop.Inside m (m.dBaseAddress + blockTokenBuffer)) (tokenise fuel m a y) (tokenise fuel m a y) := by
  have hbuf : add16 blockTokenBuffer m.dBaseAddress = m.dBaseAddress + blockTokenBuffer := by
    rw [add16_eq (by unfold blockTokenBuffer; omega), Nat.add_comm]
  have hal : (m.dBaseAddress + blockTokenBuffer) % 0x100 = 0 := by
    unfold blockTokenBuffer
    omega
  have hroom : m.dBaseAddress + blockTokenBuffer + 0x100 ≤ 0x10000 := htop
  obtain ⟨m₁, hm₁⟩ : ∃ m₁ : Machine, m₁ = { m with
      dTemp1 := a, dTemp1H := y, dTemp2 := m.dBaseAddress + blockTokenBuffer } := ⟨_, rfl⟩
  have hstart : m.AtToken (m.dBaseAddress + blockTokenBuffer) m₁ := by
    subst hm₁
    refine ⟨⟨Nat.le_refl _, Nat.le_add_right _ _, Memory.EqOff.refl _ _ _⟩, ?_⟩
    dsimp only
    omega
  have hrun : tokenise fuel m a y =
      tokCap fuel m₁ 0xFFFF 0 >>= fun m => tokMainLoop fuel m.incTemp1 := by
    rw [hm₁, ← hbuf]
    rfl
  rw [hrun]
  exact (hstart.of_quiet (tokCap_quiet fuel 0 0xFFFF (.refl m₁))).bind fun m₂ hq =>
    tokMainLoop_inside hal hroom fuel (hstart.quiet (hq.trans (quiet_incTemp1 m₂)))

/-- The program behind the buffer is not touched. -/
theorem StoredAt.outside {mem mem' : Memory} {ls : List Line} (h : StoredAt mem (buf + 0x100) ls)
    (hoff : Memory.EqOff buf (buf + 0x100) mem mem') : StoredAt mem' (buf + 0x100) ls :=
  h.congr (hoff.eqOn (.inr (Nat.le_refl _)))

/-- Whether the line is tokenised or rejected, the tokeniser ends. -/
theorem Tokenises.ends {f : ℕ → Result Machine} {items : Option (List ℕ)} (h : Tokenises f buf items) :
    ∃ m', Settles f (.ok m') ∨ ∃ e, Settles f (fail m' e) := by
  have hfails : Fails f → ∃ m', Settles f (.ok m') ∨ ∃ e, Settles f (fail m' e) := by
    rintro ⟨e, m', h⟩
    exact ⟨m', .inr ⟨e, h⟩⟩
  cases items with
  | none => exact hfails h
  | some ws =>
    unfold Tokenises at h
    dsimp only at h
    split_ifs at h
    · obtain ⟨m', h, -⟩ := h
      exact ⟨m', .inl h⟩
    · exact hfails h

/-- **`Tokenise` never writes outside its buffer.** For every text that is ended by a zero byte inside its
bank, and with the workspace page aligned, it ends: it returns, with the terminator in the buffer, or
in an error. Of the workspace nothing outside the buffer has changed, and neither has the program. -/
theorem tokenise_inside (m : Machine) (a y : ℕ) (s : List ℕ)
    (ht : m.far.BytesAt (a + 0x10000 * (y % 0x100)) (s ++ [0])) (hb : a + s.length < 0x10000)
    (hs : 0 ∉ s) (hbase : m.dBaseAddress % 0x100 = 0) (htop : m.dBaseAddress + 0x200 ≤ 0x10000) :
    let buf := m.dBaseAddress + blockTokenBuffer
    ∃ m', ((Settles (fun fuel => tokenise fuel m a y) (.ok m') ∧
          ∃ p, buf ≤ p ∧ p + 2 ≤ buf + 0x100 ∧ p % 2 = 0 ∧ m'.bank.word p = 0 ∧ m'.dTemp2 = p + 2) ∨
        ∃ e, Settles (fun fuel => tokenise fuel m a y) (fail m' e)) ∧
      Memory.EqOff buf (buf + 0x100) m.bank m'.bank ∧
      ∀ ls, StoredAt m.bank (m.dBaseAddress + blockProgramStart) ls →
        StoredAt m'.bank (m.dBaseAddress + blockProgramStart) ls := by
  intro buf
  have hprog : ∀ mem, Memory.EqOff buf (buf + 0x100) m.bank mem → ∀ ls,
      StoredAt m.bank (buf + 0x100) ls → StoredAt mem (buf + 0x100) ls := fun mem hoff ls h =>
    h.outside hoff
  obtain ⟨m', hok | ⟨e, hfail⟩⟩ := (tokenise_lex ht hb hs hbase htop).ends
  · obtain ⟨fuel, hfuel⟩ := hok.exists_fuel
    have hrun := tokenise_outcome (a := a) (y := y) fuel hbase htop
    rw [hfuel] at hrun
    have hterm := hrun.post
    have hbehind := hterm.behind
    have hhigh := hterm.high
    have heven := hterm.even
    refine ⟨m', .inl ⟨hok, m'.dTemp2 - 2, ?_, ?_, ?_, hterm.zero, ?_⟩, hterm.bank, hprog _ hterm.bank⟩
    · omega
    · omega
    · omega
    · omega
  · obtain ⟨fuel, hfuel⟩ := hfail.exists_fuel
    have hrun := tokenise_outcome (a := a) (y := y) fuel hbase htop
    rw [hfuel] at hrun
    have hoff : Memory.EqOff buf (buf + 0x100) m.bank m'.bank := hrun.stop
    exact ⟨m', .inr ⟨e, hfail⟩, hoff, hprog _ hoff⟩

/-- A workspace at `$4000`, with the text `s`. -/
def textMachine (s : List ℕ) : Machine :=
  { (default : Machine) with dBaseAddress := 0x4000, far := Memory.ofBytes 0 s }

/-- The text `"a` has no closing quote. -/
theorem tokenise_inside_open :
    ∃ m', ((∃ p, Settles (fun fuel => tokenise fuel (textMachine [34, 97]) 0 0) (.ok m') ∧
          p + 2 ≤ 0x4200) ∨
        ∃ e, Settles (fun fuel => tokenise fuel (textMachine [34, 97]) 0 0) (fail m' e)) ∧
      Memory.EqOff 0x4100 0x4200 (textMachine [34, 97]).bank m'.bank := by
  obtain ⟨m', hends, hoff, -⟩ := tokenise_inside (textMachine [34, 97]) 0 0 [34, 97]
    ⟨rfl, rfl, rfl, trivial⟩ (by decide) (by decide) (by decide) (by decide)
  refine ⟨m', ?_, hoff⟩
  rcases hends with ⟨hok, p, -, hp, -⟩ | hfail
  · exact .inl ⟨p, hok, hp⟩
  · exact .inr hfail

end Basic65816
