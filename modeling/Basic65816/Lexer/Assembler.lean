import Basic65816.Lexer.Literals

/-!
# The assembler tokeniser implements the lexer

Identifiers, capitalisation and the main loop. Strong induction on the text that is left gives the
whole line.

## Main results

* `emits_tokIdentifier`: an identifier or keyword
* `settles_tokCap`: the text is capitalised in place
* `tokMainLoop_lex`, `tokenise_lex`: a line
-/

namespace Basic65816

variable {m : Machine} {buf c : ℕ} {s rest ws : List ℕ}

/-! ## Identifiers -/

theorem tokiFindLength_succ (hr : Reads m (c :: s)) (k : ℕ) : tokiFindLength (k + 1) m =
    if isNameChar (s.headD 0) then tokiFindLength k (m.skip 1) else .ok (m.skip 1) := by
  rw [← (Reads.skip (p := [c]) hr).text_eq_head]
  simp only [tokiFindLength, hr.incTemp1_eq]
  rfl

theorem tokiFindLength_spec (hr : Reads m (c :: s)) :
    Settles (fun k => tokiFindLength k m)
      (.ok (m.skip (1 + (s.takeWhile isNameChar).length))) := by
  induction s generalizing m c with
  | nil => exact .unfold (.of_forall fun _ => rfl) fun k => tokiFindLength_succ hr k
  | cons d s ih =>
    by_cases hd : isNameChar d
    · rw [List.takeWhile_cons_of_pos hd, List.length_cons, Nat.add_comm _ 1, ← skip_skip]
      exact (ih (Reads.skip (p := [c]) hr)).unfold fun k =>
        (tokiFindLength_succ hr k).trans (if_pos hd)
    · rw [List.takeWhile_cons_of_neg hd]
      exact .unfold (.of_forall fun _ => rfl) fun k =>
        (tokiFindLength_succ hr k).trans (if_neg hd)

/-- The type bits of an identifier. -/
def typeBits (isString isArray : Bool) : ℕ :=
  0xC000 + (if isArray then 0x1000 else 0) + if isString then 0x2000 else 0

theorem typeBits_mod (isString isArray : Bool) :
    typeBits isString isArray = 0x1000 * (typeBits isString isArray / 0x1000) ∧
      typeBits isString isArray ≤ 0xF000 := by
  cases isString <;> cases isArray <;> decide

theorem or_high {w h : ℕ} (hw : w < 0x1000) : w ||| 0x1000 * h = 0x1000 * h + w := by
  rw [Nat.or_comm]
  exact (Nat.two_pow_add_eq_or_of_lt (i := 12) hw h).symm

/-- Setting the type bits adds them. -/
theorem or_typeBits {w : ℕ} (hw : w < 0x1000) (isString isArray : Bool) :
    w ||| typeBits isString isArray = typeBits isString isArray + w := by
  have h := (typeBits_mod isString isArray).1
  rw [h, or_high hw]

/-- Setting the continuation bit adds it. -/
theorem or_idContMask {w : ℕ} (hw : w < 0x800) (isString isArray : Bool) :
    (typeBits isString isArray + w) ||| idContMask = typeBits isString isArray + w + 0x0800 := by
  have hcont : w ||| 0x800 = 0x800 + w := by
    rw [Nat.or_comm]
    exact (Nat.two_pow_add_eq_or_of_lt (i := 11) hw 1).symm
  rw [← or_typeBits (by omega), Nat.or_assoc, Nat.or_comm (typeBits _ _), ← Nat.or_assoc,
    idContMask, hcont, or_typeBits (by omega), or_typeBits (by omega)]
  omega

theorem tokiToConstant_eq (hc : isNameChar c) :
    tokiToConstant c = Builder.convert c ∧ Builder.convert c ≤ 36 := by
  simp only [isNameChar, Bool.or_eq_true, Bool.and_eq_true, decide_eq_true_eq] at hc
  unfold tokiToConstant Builder.convert
  split_ifs <;> omega

theorem identWords_cons_cons (isString isArray : Bool) (a b : ℕ) (r : List ℕ) :
    Builder.identWords isString isArray (Builder.padEven (a :: b :: r)) =
      (typeBits isString isArray + (a + b * 45) + if r = [] then 0 else 0x0800) ::
        Builder.identWords isString isArray (Builder.padEven r) := by
  have hpad : Builder.padEven (a :: b :: r) = a :: b :: Builder.padEven r := by
    simp only [Builder.padEven, List.length_cons]
    split_ifs <;> first | rfl | omega
  have hnil : Builder.padEven r = [] ↔ r = [] := by
    cases r with
    | nil => simp [Builder.padEven]
    | cons x r => simp [Builder.padEven]; split_ifs <;> simp
  rw [hpad, Builder.identWords]
  congr 1
  simp only [hnil, typeBits]
  split_ifs <;> omega

/-- **The packed identifier** is written, or the line is too long. -/
theorem tokiIdentifier_spec (isString isArray : Bool) {m : Machine} {name s ws : List ℕ}
    (hr : Reads m (name ++ s)) (hw : Written m buf ws) (hn : ∀ c ∈ name, isNameChar c)
    (hflags : m.dTemp3H = typeBits isString isArray) :
    let words := (Item.ident name isString isArray).words
    if (ws ++ words).length < 128 then
      ∃ m', tokiIdentifier name.length m = .ok m' ∧ Written m' buf (ws ++ words) ∧
        m'.dTemp3 = m.dTemp3 ∧ m'.dTemp5H = m.dTemp5H ∧ m'.dTemp1H = m.dTemp1H ∧ m'.far = m.far
    else ∃ m', tokiIdentifier name.length m = fail m' .lineTooLong := by
  match name with
  | [] =>
    intro words
    have : words = [] := rfl
    rw [this, List.append_nil, if_pos hw.room]
    exact ⟨m, rfl, hw, rfl, rfl, rfl, rfl⟩
  | [c] =>
    intro words
    obtain ⟨hc, hle⟩ := tokiToConstant_eq (hn c (by simp))
    have hpad : Builder.padEven [Builder.convert c] = [Builder.convert c, 0] := rfl
    have hwords : words = [typeBits isString isArray + Builder.convert c] := by
      simp only [words, Item.words, List.map_cons, List.map_nil, hpad, Builder.identWords, typeBits]
      congr 1
      split_ifs <;> omega
    have hval : tokiToConstant (m.text 0) ||| m.dTemp3H =
        typeBits isString isArray + Builder.convert c := by
      rw [hr.text_cons, hc, hflags, or_typeBits (by omega)]
    have hw' : Written { m.incTemp1 with dTemp5 := 0 } buf ws :=
      ⟨hw.aligned, hw.inBank, hw.words, hw.pointer, hw.room⟩
    have hbits := (typeBits_mod isString isArray).2
    simp only [List.length_singleton, tokiIdentifier, hval]
    rw [hwords, List.length_append, List.length_singleton]
    split_ifs with hl
    · exact ⟨_, hw'.tokWriteToken hl, hw'.put hl (by omega), rfl, rfl, rfl, rfl⟩
    · exact hw'.tokWriteToken_full (by omega)
  | c :: d :: name =>
    intro words
    obtain ⟨hc, hle⟩ := tokiToConstant_eq (hn c (by simp))
    obtain ⟨hd, hle'⟩ := tokiToConstant_eq (hn d (by simp))
    have hbits := (typeBits_mod isString isArray).2
    -- the word of the first two characters
    generalize hword : typeBits isString isArray + (Builder.convert c + Builder.convert d * 45) +
      (if name = [] then 0 else 0x0800) = word
    have hword' : word < 0x10000 := by
      rw [← hword]
      split_ifs <;> omega
    have hwords : words = word :: (Item.ident name isString isArray).words := by
      simp only [words, Item.words, List.map_cons, identWords_cons_cons, List.map_eq_nil_iff, hword]
    have hnil : name.length = 0 ↔ name = [] := List.length_eq_zero_iff
    have hval : (if name.length = 0 then
          (tokiToConstant (m.text 0) ||| m.dTemp3H) + 45 * tokiToConstant (m.incTemp1.text 0)
        else ((tokiToConstant (m.text 0) ||| m.dTemp3H) +
          45 * tokiToConstant (m.incTemp1.text 0)) ||| idContMask) = word := by
      have hcont := or_idContMask (w := Builder.convert c + Builder.convert d * 45) (by omega)
        isString isArray
      rw [hr.text_cons, hr.incTemp1.text_cons, hc, hd, hflags, or_typeBits (by omega), ← hword,
        Nat.add_assoc, Nat.mul_comm, hcont]
      simp only [hnil]
      split_ifs <;> rfl
    have hr₂ := hr.incTemp1.incTemp1
    have hw₂ : Written { m.incTemp1.incTemp1 with
        dSignCount := 45 * tokiToConstant (m.incTemp1.text 0), dTemp5 := name.length } buf ws :=
      ⟨hw.aligned, hw.inBank, hw.words, hw.pointer, hw.room⟩
    simp only [List.length_cons, tokiIdentifier, hval, hwords]
    by_cases hl : ws.length + 1 < 128
    · rw [hw₂.tokWriteToken hl, ok_bind]
      have ih := tokiIdentifier_spec isString isArray (s := s)
        (m := Machine.put { m.incTemp1.incTemp1 with
          dSignCount := 45 * tokiToConstant (m.incTemp1.text 0), dTemp5 := name.length } word)
        ⟨hr₂.text, hr₂.bound⟩ (hw₂.put hl hword') (fun x hx => hn x (by simp [hx])) hflags
      simp only [List.append_assoc, List.singleton_append] at ih
      exact ih
    · obtain ⟨m', he⟩ := hw₂.tokWriteToken_full (a := word) (by omega)
      rw [if_neg (by simp only [List.length_append, List.length_cons]; omega)]
      exact ⟨m', by rw [he, fail_bind]⟩
termination_by name.length

/-- The test for a suffix character. -/
theorem Reads.text_eq_iff (hr : Reads m s) {x : ℕ} (hx : x ≠ 0) :
    m.text 0 = x ↔ (Builder.takeSuffix x s).1 = true := by
  rw [hr.text_eq_head]
  cases s with
  | nil => simpa [Builder.takeSuffix] using hx.symm
  | cons d s => by_cases h : d = x <;> simp [Builder.takeSuffix, h]

theorem length_if (b : Bool) (x : ℕ) : (if b then [x] else []).length = if b then 1 else 0 := by
  cases b <;> rfl

theorem Reads.skip_suffix (hr : Reads m s) (x : ℕ) :
    Reads (m.skip (if (Builder.takeSuffix x s).1 then 1 else 0)) (Builder.takeSuffix x s).2 := by
  have h := takeSuffix_append x s
  rw [← length_if _ x]
  exact Reads.skip (h.symm ▸ hr)

/-- The identifier has been measured: its start and length, with and without suffixes, and its type
bits are known, and the text is back at its start. -/
def Machine.measured (m : Machine) (n : ℕ) (isString isArray : Bool) : Machine :=
  { m with
    dTemp3 := m.dTemp1, dTemp5 := n
    dTemp5H := n + (if isString then 1 else 0) + if isArray then 1 else 0
    dTemp3H := typeBits isString isArray }

/-- `tokIdentifier` once the identifier is measured. -/
def tokMeasured (m : Machine) : Result Machine :=
  match tokKeywordSearch m m.dTemp5H with
  | (some token, m) => tokWriteToken m token
  | (none, m) => do
    let m ← tokiIdentifier m.dTemp5 m
    .ok { m with dTemp1 := add16 m.dTemp3 m.dTemp5H }

/-- One optional suffix. -/
theorem suffix_step (hr : Reads m s) {x : ℕ} (hx : x ≠ 0) (mask : ℕ) (hl : m.dTemp5H + s.length < 0x10000) :
    (if m.text 0 = x then ({ m.incTemp1 with
        dTemp5H := add16 m.dTemp5H 1, dTemp3H := m.dTemp3H ||| mask } : Machine) else m) =
      { m.skip (if (Builder.takeSuffix x s).1 then 1 else 0) with
        dTemp5H := m.dTemp5H + if (Builder.takeSuffix x s).1 then 1 else 0
        dTemp3H := if (Builder.takeSuffix x s).1 then m.dTemp3H ||| mask else m.dTemp3H } := by
  have hiff := hr.text_eq_iff hx
  by_cases h : (Builder.takeSuffix x s).1 = true
  · cases s with
    | nil => simp [Builder.takeSuffix] at h
    | cons c s =>
      rw [if_pos (hiff.mpr h), hr.incTemp1_eq, add16_eq (by simp at hl; omega)]
      simp only [h, if_true]
  · rw [if_neg (fun h' => h (hiff.mp h'))]
    simp only [h, Machine.skip]
    rfl

/-- The identifier case of the main loop. -/
theorem emits_tokIdentifier (hc : isNameChar c) (hr : Reads m (c :: s)) (hw : Written m buf ws) :
    Emits (fun k => tokIdentifier k m) buf (lexName (c :: s)).2
      (ws ++ (lexName (c :: s)).1.words) := by
  generalize hname : (c :: s).takeWhile isNameChar = name
  generalize hdollar : Builder.takeSuffix 36 ((c :: s).dropWhile isNameChar) = dollar
  generalize hparen : Builder.takeSuffix 40 dollar.2 = paren
  have hlen : 1 + (s.takeWhile isNameChar).length = name.length := by
    rw [← hname, List.takeWhile_cons_of_pos hc, List.length_cons, Nat.add_comm]
  have hr₁ : Reads ({ m with dTemp3 := m.dTemp1 } : Machine) (c :: s) := ⟨hr.text, hr.bound⟩
  have hfind := tokiFindLength_spec hr₁
  rw [hlen] at hfind
  have hr₂ : Reads (Machine.skip { m with dTemp3 := m.dTemp1 } name.length)
      ((c :: s).dropWhile isNameChar) := by
    rw [← hname]
    exact Reads.skip (by rwa [List.takeWhile_append_dropWhile])
  have hb := hr₂.bound
  simp only [Machine.skip] at hb
  refine Emits.of_bind hfind (Emits.congr
    (f := fun _ => tokMeasured (m.measured name.length dollar.1 paren.1)) ?_ fun k => ?_)
  · have hsplit := lexName_append (c :: s)
    simp only [hname, hdollar, hparen] at hsplit
    generalize hwhole : name ++ (if dollar.1 then [36] else []) ++ (if paren.1 then [40] else []) =
      whole at hsplit
    have hlength : (m.measured name.length dollar.1 paren.1).dTemp5H = whole.length := by
      simp only [Machine.measured, ← hwhole, List.length_append, length_if]
    have hrm : Reads (m.measured name.length dollar.1 paren.1) (whole ++ paren.2) := by
      rw [hsplit]
      exact ⟨hr.text, hr.bound⟩
    have hwm : Written (m.measured name.length dollar.1 paren.1) buf ws :=
      ⟨hw.aligned, hw.inBank, hw.words, hw.pointer, hw.room⟩
    rw [tokMeasured, hlength]
    cases ht : keyword whole with
    | some t =>
      have hlex : lexName (c :: s) = (.token t, paren.2) := by
        simp only [lexName, hname, hdollar, hparen, hwhole, ht]
      rw [hlex]
      obtain ⟨m', hk, hr', hw'⟩ := tokKeywordSearch_some hrm ht
      rw [hk]
      exact emits_tokWriteToken hr' (hw' hwm) (keyword_lt ht)
    | none =>
      have hlex : lexName (c :: s) = (.ident name dollar.1 paren.1, paren.2) := by
        simp only [lexName, hname, hdollar, hparen, hwhole, ht]
      obtain ⟨sign, count, hk⟩ := tokKeywordSearch_none hrm.bytes ht
      rw [hlex, hk]
      have hchars : ∀ x ∈ name, isNameChar x := fun x hx =>
        List.mem_takeWhile_imp (hname.symm ▸ hx)
      have hrm' := hrm
      rw [← hwhole, List.append_assoc, List.append_assoc] at hrm'
      have hspec := tokiIdentifier_spec dollar.1 paren.1
        (s := (if dollar.1 then [36] else []) ++ ((if paren.1 then [40] else []) ++ paren.2))
        (m := { m.measured name.length dollar.1 paren.1 with
          dSignCount := sign, dTemp4 := whole.length, dTemp4H := count })
        ⟨hrm'.text, hrm'.bound⟩
        ⟨hw.aligned, hw.inBank, hw.words, hw.pointer, hw.room⟩ hchars rfl
      simp only at hspec
      unfold Emits
      split_ifs at hspec ⊢ with hl
      · obtain ⟨m', hok, hw', h₃, h₅, h₁, hfar⟩ := hspec
        have hend : add16 m'.dTemp3 m'.dTemp5H = m.dTemp1 + whole.length := by
          have hb' := hrm.bound
          simp only [List.length_append, Machine.measured] at hb'
          rw [h₃, h₅, hlength]
          exact add16_eq (by simp only [Machine.measured]; omega)
        have hrest := hrm.skip
        refine ⟨{ m' with dTemp1 := m.dTemp1 + whole.length }, .of_forall fun _ => ?_, ?_,
          hw'.aligned, hw'.inBank, hw'.words, hw'.pointer, hw'.room⟩
        · have hok' : tokiIdentifier (m.measured name.length dollar.1 paren.1).dTemp5
              { m.measured name.length dollar.1 paren.1 with
                dSignCount := sign, dTemp4 := whole.length, dTemp4H := count } = .ok m' := hok
          simp only [hok', ok_bind, hend]
        · constructor
          · have ht := hrest.text
            simp only [Machine.textAddress, Machine.skip, Machine.measured] at ht
            simp only [Machine.textAddress, hfar, h₁, Machine.measured]
            exact ht
          · exact hrest.bound
      · obtain ⟨m', he⟩ := hspec
        refine ⟨.lineTooLong, m', .of_forall fun _ => ?_⟩
        have he' : tokiIdentifier (m.measured name.length dollar.1 paren.1).dTemp5
              { m.measured name.length dollar.1 paren.1 with
                dSignCount := sign, dTemp4 := whole.length, dTemp4H := count } =
            fail m' .lineTooLong := he
        simp only [he', fail_bind]
  · have hn : sub16 (m.dTemp1 + name.length) m.dTemp1 = name.length := by
      unfold sub16
      omega
    have h₁ := suffix_step (m := { m with
        dTemp1 := m.dTemp1 + name.length, dTemp3 := m.dTemp1, dTemp5 := name.length
        dTemp5H := name.length, dTemp3H := 0xC000 }) ⟨hr₂.text, hr₂.bound⟩ (x := 36) (by decide)
      idTypeMask (by simp only; omega)
    have hr₃ := hr₂.skip_suffix 36
    rw [hdollar] at h₁ hr₃
    have hb₃ := hr₃.bound
    simp only [Machine.skip] at hb₃
    have h₂ := suffix_step (m := { m with
        dTemp1 := m.dTemp1 + name.length + (if dollar.1 then 1 else 0), dTemp3 := m.dTemp1
        dTemp5 := name.length, dTemp5H := name.length + (if dollar.1 then 1 else 0)
        dTemp3H := if dollar.1 then 0xC000 ||| idTypeMask else 0xC000 })
      ⟨hr₃.text, hr₃.bound⟩ (x := 40) (by decide) idArrayMask
      (by simp only; omega)
    rw [hparen] at h₂
    simp only [Machine.skip] at h₁ h₂
    simp only [Machine.skip, hn, h₁, h₂]
    have hflags : (if paren.1 = true then
        (if dollar.1 = true then 0xC000 ||| idTypeMask else 0xC000) ||| idArrayMask
        else if dollar.1 = true then 0xC000 ||| idTypeMask else 0xC000) =
        typeBits dollar.1 paren.1 := by
      cases dollar.1 <;> cases paren.1 <;> decide
    simp only [hflags]
    rfl

/-! ## Capitalisation -/

/-- The parity of the quotes after a character. -/
theorem parity_step (x c : ℕ) :
    ((if c = 34 then add16 x 1 else x) % 2 == 1) =
      if c = 34 then !(x % 2 == 1) else (x % 2 == 1) := by
  split_ifs
  · unfold add16
    rcases Nat.mod_two_eq_zero_or_one x with h | h
    · rw [h, show (x + 1) % 0x10000 % 2 = 1 by omega]
      rfl
    · rw [h, show (x + 1) % 0x10000 % 2 = 0 by omega]
      rfl
  · rfl

/-- Capitalisation from index `y` on, inside quotes when `x` is odd. -/
theorem tokCap_spec {x y : ℕ} (ht : m.far.BytesAt (m.textAddress (add16 y 1)) (s ++ [0]))
    (hb : add16 y 1 + s.length < 0x10000) (hx : x < 0x10000) (hs : ∀ c ∈ s, c ≠ 0) :
    ∃ mem, Settles (fun k => tokCap k m y x)
        (.ok { m with far := mem, dTemp1 := sub16 m.dTemp1 1 }) ∧
      mem.BytesAt (m.textAddress (add16 y 1)) (capitaliseFrom (x % 2 == 1) s ++ [0]) ∧
      m.far.EqOff (m.textAddress (add16 y 1)) (m.textAddress (add16 y 1) + s.length) mem := by
  induction s generalizing m x y with
  | nil =>
    refine ⟨m.far, .unfold (.of_forall fun _ => rfl) fun k => ?_, ht, .refl _ _ _⟩
    have hz : m.text (add16 y 1) = 0 := ht.1
    simp only [tokCap, hz, if_true]
  | cons c s ih =>
    have hc : c ≠ 0 := hs c (by simp)
    simp only [List.cons_append, Memory.bytesAt_cons] at ht
    simp only [List.length_cons] at hb
    obtain ⟨htc, hts⟩ := ht
    have hlt : c < 256 := htc ▸ Memory.byte_lt _ _
    -- the character as capitalisation leaves it
    generalize hq : (if c = 34 then add16 x 1 else x) = x'
    have hx' : x' < 0x10000 := by
      rw [← hq]
      split_ifs
      · exact add16_lt x 1
      · exact hx
    have hpar := parity_step x c
    rw [hq] at hpar
    have hnext : add16 (add16 y 1) 1 = add16 y 1 + 1 := add16_eq (by omega)
    generalize hw : (if c < 97 ∨ 123 ≤ c ∨ x' % 2 = 1 then m.far
      else m.far.setByte (m.textAddress (add16 y 1)) (c - 32)) = far
    have hoff : m.far.EqOff (m.textAddress (add16 y 1)) (m.textAddress (add16 y 1) + 1) far := by
      rw [← hw]
      split_ifs
      · exact .refl _ _ _
      · exact (Memory.EqOff.refl _ _ _).setByte (Nat.le_refl _) (by omega)
    have hchar : far.byte (m.textAddress (add16 y 1)) =
        if x' % 2 == 1 then c else upperChar c := by
      rw [← hw]
      simp only [upperChar, beq_iff_eq]
      split_ifs with h₁ h₂ h₃ h₄ <;>
        first | exact htc | (rw [Memory.byte_setByte]; omega) | omega
    have haddr : ({ m with far := far } : Machine).textAddress (add16 (add16 y 1) 1) =
        m.textAddress (add16 y 1) + 1 := by
      rw [hnext]
      exact textAddress_add _ 1
    obtain ⟨mem, hset, hcap, hoff'⟩ := ih (m := { m with far := far }) (x := x') (y := add16 y 1)
      (by rw [haddr]; exact hts.congr (hoff.eqOn (.inr (Nat.le_refl _)))) (by rw [hnext]; omega) hx'
      (fun d hd => hs d (by simp [hd]))
    rw [haddr] at hcap hoff'
    refine ⟨mem, hset.unfold fun k => ?_, ?_, ?_⟩
    · have htc' : m.text (add16 y 1) = c := htc
      simp only [tokCap, htc', if_neg hc, hq, ← hw]
      split_ifs <;> rfl
    · simp only [capitaliseFrom, ← hpar, List.cons_append, Memory.bytesAt_cons]
      exact ⟨(hoff'.byte (.inl (by omega))).trans hchar, hcap⟩
    · simp only [List.length_cons]
      exact (hoff.mono (Nat.le_refl _) (by omega)).trans (hoff'.mono (by omega) (by omega))

/-! ## The line -/

/-- The outcome of tokenising a line whose items are `items`. -/
def Tokenises (f : ℕ → Result Machine) (buf : ℕ) (items : Option (List ℕ)) : Prop :=
  match items with
  | none => Fails f
  | some ws =>
    if ws.length ≤ 126 then ∃ m, Settles f (.ok m) ∧ m.bank.WordsAt buf (ws ++ [0]) else Fails f

/-- The outcome of tokenising a line whose items are `items`, and where it ends in the buffer. -/
def TokenisesLine (f : ℕ → Result Machine) (buf : ℕ) (items : Option (List ℕ)) : Prop :=
  match items with
  | none => Fails f
  | some ws => if ws.length ≤ 126 then ∃ m, Settles f (.ok m) ∧ Written m buf (ws ++ [0]) else Fails f

theorem TokenisesLine.tokenises {f : ℕ → Result Machine} {items : Option (List ℕ)}
    (h : TokenisesLine f buf items) : Tokenises f buf items := by
  cases items with
  | none => exact h
  | some ws =>
    simp only [TokenisesLine, Tokenises] at h ⊢
    split_ifs at h ⊢
    · obtain ⟨m, hm, hw⟩ := h
      exact ⟨m, hm, hw.words⟩
    · exact h

/-- One round of the main loop reads the first item. -/
theorem tokMainLoop_item (hc : 32 < c) (hr : Reads m (c :: s)) (hw : Written m buf ws)
    (hs : 0 ∉ s) :
    ∃ f : ℕ → Result Machine, (∀ k, tokMainLoop (k + 1) m = f k >>= tokMainLoop k) ∧
      match lexOne (c :: s) with
      | some (item, rest) => Emits f buf rest (ws ++ item.words)
      | none => Fails f := by
  have hstep : ∀ k, tokMainLoop (k + 1) m =
      if c = 34 then tokQuotedString k m >>= tokMainLoop k
      else if isNumeral c then tokInteger k m >>= tokMainLoop k
      else if isNameChar c then tokIdentifier k m >>= tokMainLoop k
      else tokPunctuation m >>= tokMainLoop k := fun k => by
    simp only [tokMainLoop, hr.text_cons, isNumeral, isNameChar, Bool.or_eq_true, Bool.and_eq_true,
      decide_eq_true_eq]
    split_ifs <;> first | rfl | omega
  simp only [lexOne]
  split_ifs at hstep ⊢ with h₁ h₂ h₃
  · subst h₁
    exact ⟨_, hstep, emits_tokQuotedString hr hw hs⟩
  · exact ⟨_, hstep, emits_tokInteger h₂ hr hw⟩
  · exact ⟨_, hstep, emits_tokIdentifier h₃ hr hw⟩
  · exact ⟨_, hstep, emits_tokPunctuation hr hw⟩

theorem tokMainLoop_end (hr : Reads m s) (hw : Written m buf ws) (hc : m.text 0 < 32) :
    TokenisesLine (fun k => tokMainLoop k m) buf (some ws) := by
  have h := emits_tokWriteToken (a := 0) hr hw (by decide)
  have hstep : ∀ k, tokMainLoop (k + 1) m = tokWriteToken m 0 := fun k => by
    simp only [tokMainLoop, if_pos hc]
  simp only [Emits, List.length_append, List.length_singleton] at h
  simp only [TokenisesLine]
  split_ifs at h ⊢
  · obtain ⟨m', hok, -, hw'⟩ := h
    exact ⟨m', hok.unfold hstep, hw'⟩
  · omega
  · omega
  · exact h.unfold hstep

theorem TokenisesLine.unfold {f g : ℕ → Result Machine} {items : Option (List ℕ)}
    (h : TokenisesLine g buf items) (hf : ∀ k, f (k + 1) = g k) : TokenisesLine f buf items := by
  cases items with
  | none => exact Fails.unfold h hf
  | some ws =>
    simp only [TokenisesLine] at h ⊢
    split_ifs at h ⊢
    · obtain ⟨m, hm, hws⟩ := h
      exact ⟨m, hm.unfold hf, hws⟩
    · exact h.unfold hf

theorem TokenisesLine.of_bind {f : ℕ → Result Machine} {g : ℕ → Machine → Result Machine}
    {items : Option (List ℕ)} (hf : Settles f (.ok m)) (h : TokenisesLine (fun k => g k m) buf items) :
    TokenisesLine (fun k => f k >>= g k) buf items := by
  cases items with
  | none => exact Fails.of_bind hf h
  | some ws =>
    simp only [TokenisesLine] at h ⊢
    split_ifs at h ⊢
    · obtain ⟨m', hm, hws⟩ := h
      exact ⟨m', hf.bind hm, hws⟩
    · exact Fails.of_bind hf h

/-- **The main loop** emits the items of the text. -/
theorem tokMainLoop_lex {m : Machine} {s ws : List ℕ} (hr : Reads m s) (hw : Written m buf ws)
    (hs : 0 ∉ s) :
    TokenisesLine (fun k => tokMainLoop k m) buf ((lex s).map fun items => ws ++ wordsOf items) := by
  match s with
  | [] =>
    have h := tokMainLoop_end hr hw (by rw [hr.text_nil]; decide)
    simpa using h
  | c :: s =>
    simp only [List.mem_cons, not_or] at hs
    rcases Nat.lt_trichotomy c 32 with hc | rfl | hc
    · have h := tokMainLoop_end hr hw (by rwa [hr.text_cons])
      simpa [lex_control hc] using h
    · rw [lex_space]
      refine (tokMainLoop_lex hr.incTemp1 ⟨hw.aligned, hw.inBank, hw.words, hw.pointer, hw.room⟩
        hs.2).unfold fun k => ?_
      simp only [tokMainLoop, hr.text_cons]
      rfl
    · obtain ⟨f, hstep, hf⟩ := tokMainLoop_item hc hr hw hs.2
      refine TokenisesLine.unfold ?_ hstep
      rw [lex_cons hc]
      cases hone : lexOne (c :: s) with
      | none =>
        simp only [hone] at hf
        exact hf.bind
      | some p =>
        obtain ⟨item, rest⟩ := p
        simp only [hone] at hf
        have hfollows := lexOne_suffix hone
        have hlt := hfollows.length_lt
        have hrest : 0 ∉ rest := by
          obtain ⟨d, pre, he⟩ := hfollows
          have : 0 ∉ c :: s := by simpa using hs
          rw [he] at this
          simp only [List.cons_append, List.mem_cons, List.mem_append, not_or] at this
          exact this.2.2
        simp only [Option.bind_some]
        by_cases hl : (ws ++ item.words).length < 128
        · rw [Emits, if_pos hl] at hf
          obtain ⟨m', hok, hr', hw'⟩ := hf
          have ih := tokMainLoop_lex hr' hw' hrest
          rw [Option.map_map]
          simp only [List.append_assoc] at ih
          exact TokenisesLine.of_bind (g := tokMainLoop) hok ih
        · rw [Emits, if_neg hl] at hf
          cases lex rest with
          | none => exact hf.bind
          | some items =>
            simp only [Option.map_some, TokenisesLine, wordsOf_cons]
            rw [if_neg (by simp only [List.length_append] at hl ⊢; omega)]
            exact hf.bind
termination_by s.length
decreasing_by all_goals (simp only [List.length_cons] at *; omega)

theorem zero_notMem_capitaliseFrom (hs : 0 ∉ s) : ∀ q, 0 ∉ capitaliseFrom q s := by
  induction s with
  | nil => simp
  | cons c s ih =>
    intro q
    simp only [List.mem_cons, not_or] at hs
    simp only [capitaliseFrom, List.mem_cons, not_or]
    refine ⟨?_, ih hs.2 _⟩
    have hc := hs.1
    unfold upperChar
    split_ifs <;> omega

/-- **`Tokenise` writes the words of the items** of a text in one bank, with the workspace page
aligned. -/
theorem tokenise_line {a y : ℕ} (ht : m.far.BytesAt (a + 0x10000 * (y % 0x100)) (s ++ [0]))
    (hb : a + s.length < 0x10000) (hs : 0 ∉ s) (hbase : m.dBaseAddress % 0x100 = 0)
    (htop : m.dBaseAddress + 0x200 ≤ 0x10000) :
    TokenisesLine (fun k => tokenise k m a y) (m.dBaseAddress + blockTokenBuffer)
      ((lex (capitalise s)).map wordsOf) := by
  have hbuf : add16 blockTokenBuffer m.dBaseAddress = m.dBaseAddress + blockTokenBuffer := by
    rw [add16_eq (by unfold blockTokenBuffer; omega), Nat.add_comm]
  have hzero : add16 0xFFFF 1 = 0 := rfl
  obtain ⟨mem, hset, hcap, -⟩ := tokCap_spec (m := { m with
      dTemp1 := a, dTemp1H := y, dTemp2 := m.dBaseAddress + blockTokenBuffer })
    (s := s) (x := 0) (y := 0xFFFF) (by rw [hzero]; exact ht) (by rw [hzero]; omega) (by decide)
    (fun c hc h => hs (h ▸ hc))
  have hback : add16 (sub16 a 1) 1 = a := add16_sub16 (by omega) (by decide)
  have hwritten : Written { m with
      dTemp1 := a, dTemp1H := y, dTemp2 := m.dBaseAddress + blockTokenBuffer, far := mem }
      (m.dBaseAddress + blockTokenBuffer) [] :=
    ⟨by unfold blockTokenBuffer; omega, by unfold blockTokenBuffer; omega, trivial, rfl, by simp⟩
  have hmain := tokMainLoop_lex (s := capitalise s) ⟨hcap, by simpa [capitalise] using hb⟩ hwritten
    (zero_notMem_capitaliseFrom hs _)
  simp only [List.nil_append] at hmain
  have hrun := TokenisesLine.of_bind (g := fun k m => tokMainLoop k m.incTemp1) hset
    (by simpa only [Machine.incTemp1, hback] using hmain)
  simpa only [tokenise, hbuf] using hrun

/-- **`Tokenise` implements the lexer** on a text in one bank, with the workspace page aligned. -/
theorem tokenise_lex {a y : ℕ} (ht : m.far.BytesAt (a + 0x10000 * (y % 0x100)) (s ++ [0]))
    (hb : a + s.length < 0x10000) (hs : 0 ∉ s) (hbase : m.dBaseAddress % 0x100 = 0)
    (htop : m.dBaseAddress + 0x200 ≤ 0x10000) :
    Tokenises (fun k => tokenise k m a y) (m.dBaseAddress + blockTokenBuffer)
      ((lex (capitalise s)).map wordsOf) := (tokenise_line ht hb hs hbase htop).tokenises

end Basic65816
