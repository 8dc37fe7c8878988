import Basic65816.Lexer.Scanning
import Basic65816.Lexer.TokenLine

/-!
# Punctuation, constants and strings

The routines of the assembler tokeniser for the items that are not identifiers. Each emits the words
of the item the lexer finds, or fails where the lexer finds none.

## Main results

* `emits_tokPunctuation`, `emits_tokInteger`, `emits_tokQuotedString`: one item
-/

namespace Basic65816

variable {m : Machine} {buf c : ℕ} {s rest ws : List ℕ}

/-! ## Keywords and punctuation -/

theorem id_lt_of_mem : ∀ t ∈ tokenList, t.id < 0x4000 := by decide

theorem name_ne_zero_of_mem : ∀ t ∈ tokenList, 0 ∉ t.name.map upperChar := by decide

theorem keyword_lt {t : ℕ} (h : keyword s = some t) : t < 0x10000 := by
  obtain ⟨k, hk, -, rfl⟩ := keyword_mem h
  have := id_lt_of_mem k hk
  omega

theorem keyword_eq_none_of_zero_mem (h : 0 ∈ s) : keyword s = none := by
  rw [Option.eq_none_iff_forall_ne_some]
  intro t ht
  obtain ⟨k, hk, rfl, -⟩ := keyword_mem ht
  exact name_ne_zero_of_mem k hk h

/-- The search finds the keyword a text begins with and steps over it. -/
theorem tokKeywordSearch_some {p : List ℕ} {t : ℕ} (hr : Reads m (p ++ s))
    (ht : keyword p = some t) :
    ∃ m', tokKeywordSearch m p.length = (some t, m') ∧ Reads m' s ∧
      ∀ {buf ws}, Written m buf ws → Written m' buf ws := by
  obtain ⟨sign, count, h⟩ := tokKeywordSearch_eq m p.length
  have hb := hr.bound
  rw [List.length_append] at hb
  rw [hr.bytes, ht] at h
  refine ⟨_, h, ?_, fun hw => ⟨hw.aligned, hw.inBank, hw.words, hw.pointer, hw.room⟩⟩
  have he : add16 m.dTemp1 p.length = m.dTemp1 + p.length := add16_eq (by omega)
  simp only [Option.isSome_some, if_true, he]
  exact ⟨hr.skip.text, hr.skip.bound⟩

theorem tokKeywordSearch_none {k : ℕ} {pre : List ℕ}
    (hb : m.far.bytes (m.textAddress 0) k = pre) (ht : keyword pre = none) :
    ∃ sign count, tokKeywordSearch m k =
      (none, { m with dSignCount := sign, dTemp4 := k, dTemp4H := count }) := by
  obtain ⟨sign, count, h⟩ := tokKeywordSearch_eq m k
  refine ⟨sign, count, h.trans ?_⟩
  rw [hb, ht]
  rfl

/-- `tokPunctuation` after the search for two characters has failed. -/
theorem emits_single (hr : Reads m (c :: s)) (hw : Written m buf ws) :
    let f := fun _ : ℕ => match tokKeywordSearch m 1 with
      | (some token, m) => tokWriteToken m token
      | (none, m) => fail m .cannotParseLine
    match (keyword [c]).map fun t => (Item.token t, s) with
    | some (item, rest) => Emits f buf rest (ws ++ item.words)
    | none => Fails f := by
  intro f
  cases ht : keyword [c] with
  | some t =>
    obtain ⟨m', hk, hr', hw'⟩ := tokKeywordSearch_some (p := [c]) hr ht
    refine (emits_tokWriteToken hr' (hw' hw) (keyword_lt ht)).congr fun _ => ?_
    simp only [List.length_singleton] at hk
    simp only [f, hk]
  | none =>
    obtain ⟨sign, count, hk⟩ := tokKeywordSearch_none (Reads.bytes (p := [c]) hr) ht
    simp only [List.length_singleton] at hk
    simp only [Option.map_none, f, hk]
    exact fails_fail _ _

/-- The punctuation case of the main loop. -/
theorem emits_tokPunctuation (hr : Reads m (c :: s)) (hw : Written m buf ws) :
    match lexPunctuation (c :: s) with
    | some (item, rest) => Emits (fun _ => tokPunctuation m) buf rest (ws ++ item.words)
    | none => Fails fun _ => tokPunctuation m := by
  have single : ∀ {pre}, m.far.bytes (m.textAddress 0) 2 = pre → keyword pre = none →
      match (keyword [c]).map fun t => (Item.token t, s) with
      | some (item, rest) => Emits (fun _ => tokPunctuation m) buf rest (ws ++ item.words)
      | none => Fails fun _ => tokPunctuation m := by
    intro pre hb ht
    obtain ⟨sign, count, hk⟩ := tokKeywordSearch_none hb ht
    simp only [tokPunctuation, hk]
    exact emits_single ⟨hr.text, hr.bound⟩
      ⟨hw.aligned, hw.inBank, hw.words, hw.pointer, hw.room⟩
  cases s with
  | nil =>
    have hb : m.far.bytes (m.textAddress 0) 2 = [c, 0] :=
      hr.text.eq_bytes
    exact single hb (keyword_eq_none_of_zero_mem (by simp))
  | cons d s =>
    simp only [lexPunctuation]
    cases ht : keyword [c, d] with
    | some t =>
      obtain ⟨m', hk, hr', hw'⟩ := tokKeywordSearch_some (p := [c, d]) hr ht
      refine (emits_tokWriteToken hr' (hw' hw) (keyword_lt ht)).congr fun _ => ?_
      simp only [List.length_cons, List.length_nil] at hk
      rw [tokPunctuation, hk]
    | none => exact single (Reads.bytes (p := [c, d]) hr) ht

/-! ## Constants -/

/-- `DTemp3` holds the long word `v`. -/
def Machine.withLong (m : Machine) (v : ℕ) : Machine :=
  { m with dTemp3 := v % 0x10000, dTemp3H := v / 0x10000 }

/-- `asl`, `rol` doubles the long word. -/
theorem doubleLong_eq {v : ℕ} (hv : v < 0x80000000) :
    doubleLong (v % 0x10000) (v / 0x10000) = (2 * v % 0x10000, 2 * v / 0x10000) := by
  unfold doubleLong
  rw [Prod.mk.injEq]
  omega

theorem tokTimesTen_withLong {v : ℕ} (hv : v < 0x10000010) :
    tokTimesTen (m.withLong v) = m.withLong (10 * v) := by
  have hlo : (v % 0x10000 + 2 * (2 * v) % 0x10000) % 0x10000 = 5 * v % 0x10000 := by omega
  have hhi : (v / 0x10000 + 2 * (2 * v) / 0x10000 + (v % 0x10000 + 2 * (2 * v) % 0x10000) / 0x10000) %
      0x10000 = 5 * v / 0x10000 := by omega
  simp only [tokTimesTen, Machine.withLong]
  rw [doubleLong_eq (by omega), doubleLong_eq (by omega), hlo, hhi, doubleLong_eq (by omega),
    show 2 * (5 * v) = 10 * v by omega]

/-- One digit more. -/
def addDigit (v d : ℕ) : ℕ := 10 * v + (d - 48)

theorem le_foldl_addDigit (ds : List ℕ) : ∀ v, v ≤ ds.foldl addDigit v := by
  induction ds with
  | nil => intro v; exact Nat.le_refl v
  | cons d ds ih =>
    intro v
    exact Nat.le_trans (by unfold addDigit; omega) (ih (addDigit v d))

/-- One round of the digit loop. -/
theorem tokInLoop_succ {v : ℕ} (hc : isNumeral c) (hr : Reads m (c :: s)) (hv : v < 0x10000010)
    (k : ℕ) : tokInLoop (k + 1) (m.withLong v) =
      if 0x10000000 ≤ 10 * v then fail (m.withLong (10 * v)) .integerTooLarge
      else if isNumeral ((m.skip 1).text 0) then tokInLoop k ((m.skip 1).withLong (addDigit v c))
      else .ok ((m.skip 1).withLong (addDigit v c)) := by
  have hc' : 48 ≤ c ∧ c < 58 := by simpa [isNumeral] using hc
  have ht : (m.withLong (10 * v)).text 0 = c := hr.text_cons
  have hlim : (m.withLong (10 * v)).dTemp3H / 0x1000 ≠ 0 ↔ 0x10000000 ≤ 10 * v := by
    simp only [Machine.withLong]
    omega
  simp only [tokInLoop, tokTimesTen_withLong hv, hlim, ht]
  by_cases h : 0x10000000 ≤ 10 * v
  · rw [if_pos h, if_pos h]
  · have hadd : ∀ {lo hi}, lo = addDigit v c % 0x10000 → hi = addDigit v c / 0x10000 →
        ({ m.withLong (10 * v) with dTemp3 := lo, dTemp3H := hi } : Machine).incTemp1 =
          (m.skip 1).withLong (addDigit v c) := by
      rintro lo hi rfl rfl
      have hi := congrArg Machine.dTemp1 hr.incTemp1_eq
      simp only [Machine.incTemp1, Machine.skip] at hi
      simp only [Machine.incTemp1, Machine.withLong, Machine.skip, hi]
    rw [if_neg h, if_neg h, hadd (by simp only [Machine.withLong, addDigit]; omega)
      (by simp only [Machine.withLong, add16, addDigit]; omega)]
    have hn : (48 ≤ ((m.skip 1).withLong (addDigit v c)).text 0 ∧
        ((m.skip 1).withLong (addDigit v c)).text 0 < 58) ↔ isNumeral ((m.skip 1).text 0) := by
      simp only [isNumeral, Bool.and_eq_true, decide_eq_true_eq]
      rfl
    simp only [hn]

/-- The outcome of the digit loop on the text `s` from the value `v`. -/
def InLoopSpec (m : Machine) (s : List ℕ) (v : ℕ) : Prop :=
  let digits := s.takeWhile isNumeral
  let value := digits.foldl addDigit v
  (Fails (fun k => tokInLoop k (m.withLong v)) ∧ 0x8000000 ≤ value) ∨
    (Settles (fun k => tokInLoop k (m.withLong v))
      (.ok ((m.skip digits.length).withLong value)) ∧ value < 0x10000010)

theorem inLoopSpec_above {v : ℕ} (hc : isNumeral c) (hr : Reads m (c :: s)) (hv : v < 0x10000010)
    (h : 0x10000000 ≤ 10 * v) : InLoopSpec m (c :: s) v := by
  refine .inl ⟨⟨.integerTooLarge, m.withLong (10 * v), .unfold (.of_forall fun _ => rfl) fun k => ?_⟩,
    ?_⟩
  · rw [tokInLoop_succ hc hr hv, if_pos h]
  · have hle := le_foldl_addDigit (s.takeWhile isNumeral) (addDigit v c)
    rw [List.takeWhile_cons_of_pos hc, List.foldl_cons]
    refine Nat.le_trans ?_ hle
    unfold addDigit
    omega

theorem inLoopSpec_last {v : ℕ} (hc : isNumeral c) (hr : Reads m (c :: s)) (hv : v < 0x10000010)
    (h : ¬ 0x10000000 ≤ 10 * v) (hs : ¬ isNumeral (s.headD 0)) : InLoopSpec m (c :: s) v := by
  have hs' : s.takeWhile isNumeral = [] := by
    cases s with
    | nil => rfl
    | cons d s => exact List.takeWhile_cons_of_neg hs
  have hr' : Reads (m.skip 1) s := Reads.skip (p := [c]) hr
  unfold InLoopSpec
  rw [List.takeWhile_cons_of_pos hc, hs']
  refine .inr ⟨.unfold (.of_forall fun _ => rfl) fun k => ?_, ?_⟩
  · rw [tokInLoop_succ hc hr hv, if_neg h, hr'.text_eq_head, if_neg hs]
    rfl
  · simp only [isNumeral, Bool.and_eq_true, decide_eq_true_eq] at hc
    simp only [List.foldl_cons, List.foldl_nil, addDigit]
    omega

/-- **The digit loop** accumulates the value, or stops above the limit. -/
theorem tokInLoop_spec {v : ℕ} (hc : isNumeral c) (hr : Reads m (c :: s)) (hv : v < 0x10000010) :
    InLoopSpec m (c :: s) v := by
  induction s generalizing m c v with
  | nil =>
    by_cases h : 0x10000000 ≤ 10 * v
    · exact inLoopSpec_above hc hr hv h
    · exact inLoopSpec_last hc hr hv h (by decide)
  | cons d s ih =>
    by_cases h : 0x10000000 ≤ 10 * v
    · exact inLoopSpec_above hc hr hv h
    · by_cases hd : isNumeral d
      · have hr' : Reads (m.skip 1) (d :: s) := Reads.skip (p := [c]) hr
        have hstep : ∀ k, tokInLoop (k + 1) (m.withLong v) =
            tokInLoop k ((m.skip 1).withLong (addDigit v c)) := fun k => by
          rw [tokInLoop_succ hc hr hv, if_neg h, hr'.text_cons, if_pos hd]
        have hc' : 48 ≤ c ∧ c < 58 := by simpa [isNumeral] using hc
        have ih := ih hd hr' (v := addDigit v c) (by unfold addDigit; omega)
        simp only [InLoopSpec] at ih ⊢
        rw [List.takeWhile_cons_of_pos hc, List.foldl_cons, List.length_cons,
          Nat.add_comm _ 1, ← skip_skip]
        exact ih.imp (And.imp_left fun h => h.unfold hstep) (And.imp_left fun h => h.unfold hstep)
      · exact inLoopSpec_last hc hr hv h hd

/-- What follows the digit loop: the words of the constant. -/
theorem emits_constant {v : ℕ} (hr : Reads m s) (hw : Written m buf ws) (hv : v < 0x8000000) :
    Emits (fun _ =>
      let m := m.withLong (2 * v)
      if m.dTemp3H % 0x1000 = 0 then tokWriteToken m (v % 0x8000 + 0x4000)
      else do
        let m ← tokWriteToken m (m.dTemp3H % 0x1000 ||| 0x1000)
        tokWriteToken m (v % 0x8000 + 0x4000)) buf s (ws ++ Builder.constWords v) := by
  have hr' : Reads (m.withLong (2 * v)) s := ⟨hr.text, hr.bound⟩
  have hw' : Written (m.withLong (2 * v)) buf ws :=
    ⟨hw.aligned, hw.inBank, hw.words, hw.pointer, hw.room⟩
  have hhi : (m.withLong (2 * v)).dTemp3H % 0x1000 = v / 0x8000 := by
    simp only [Machine.withLong]
    omega
  have hshift : v / 0x8000 ||| 0x1000 < 0x10000 :=
    Nat.or_lt_two_pow (n := 16) (by omega) (by omega)
  simp only [hhi, Builder.constWords]
  by_cases h : 32768 ≤ v
  · rw [if_pos h, if_neg (by omega), ← List.append_assoc]
    exact (emits_tokWriteToken hr' hw' hshift).bind fun m' hr hw =>
      emits_tokWriteToken hr hw (by omega)
  · rw [if_neg h, if_pos (by omega), List.nil_append]
    exact emits_tokWriteToken hr' hw' (by omega)

/-- The constant case of the main loop. -/
theorem emits_tokInteger (hc : isNumeral c) (hr : Reads m (c :: s)) (hw : Written m buf ws) :
    match lexConst (c :: s) with
    | some (item, rest) => Emits (fun k => tokInteger k m) buf rest (ws ++ item.words)
    | none => Fails fun k => tokInteger k m := by
  have hsplit : (c :: s).takeWhile isNumeral ++ (c :: s).dropWhile isNumeral = c :: s :=
    List.takeWhile_append_dropWhile
  rcases tokInLoop_spec (v := 0) hc hr (by omega) with ⟨h, hv⟩ | ⟨h, hv⟩
  · have hlex : lexConst (c :: s) = none := if_neg (Nat.not_lt.mpr hv)
    rw [hlex]
    exact h.bind
  · generalize hval : ((c :: s).takeWhile isNumeral).foldl addDigit 0 = v at h hv
    have hr' := Reads.skip (hsplit ▸ hr)
    have hintOf : Builder.intOf ((c :: s).takeWhile isNumeral) = v := hval
    have hdouble : ∀ m : Machine, doubleLong (m.withLong v).dTemp3 (m.withLong v).dTemp3H =
        (2 * v % 0x10000, 2 * v / 0x10000) := fun _ => doubleLong_eq (by omega)
    have htoken : ∀ m : Machine, (m.withLong v).dTemp3 % 0x8000 = v % 0x8000 := fun m => by
      simp only [Machine.withLong]
      omega
    have hlimit : 0x1000 ≤ 2 * v / 0x10000 ↔ ¬ v < 0x8000000 := by omega
    unfold lexConst
    rw [hintOf]
    by_cases hlim : v < 0x8000000
    · simp only [if_pos hlim]
      refine Emits.of_bind h ((emits_constant hr' ⟨hw.aligned, hw.inBank, hw.words, hw.pointer,
        hw.room⟩ hlim).congr fun k => ?_)
      simp only [hdouble, htoken, hlimit, if_neg (not_not.mpr hlim)]
      rfl
    · simp only [if_neg hlim]
      refine Fails.of_bind h ?_
      simp only [hdouble, htoken, hlimit, if_pos hlim]
      exact fails_fail _ _

/-! ## Quoted strings -/

/-- A text without quotes has no closing quote. -/
theorem tokqFindSize_open (hr : Reads m s) (hs : 0 ∉ s) (hq : 34 ∉ s) :
    Fails fun k => tokqFindSize k m := by
  induction s generalizing m with
  | nil =>
    refine ⟨.missingClosingQuote, m.incTemp1, .unfold (.of_forall fun _ => rfl) fun k => ?_⟩
    simp only [tokqFindSize, hr.text_nil, if_true]
  | cons c s ih =>
    simp only [List.mem_cons, not_or] at hs hq
    refine (ih hr.incTemp1 hs.2 hq.2).unfold fun k => ?_
    simp only [tokqFindSize, hr.text_cons, if_neg (Ne.symm hs.1), if_neg (Ne.symm hq.1)]

/-- The search steps behind the closing quote. -/
theorem tokqFindSize_closed {chars : List ℕ} (hr : Reads m (chars ++ 34 :: rest)) (hs : 0 ∉ chars)
    (hq : 34 ∉ chars) : Settles (fun k => tokqFindSize k m) (.ok (m.skip (chars.length + 1))) := by
  induction chars generalizing m with
  | nil =>
    refine .unfold (.of_forall fun _ => rfl) fun k => ?_
    simp only [tokqFindSize, hr.text_cons, hr.incTemp1_eq, List.length_nil]
    rfl
  | cons c chars ih =>
    simp only [List.mem_cons, not_or] at hs hq
    have hi := ih hr.incTemp1 hs.2 hq.2
    rw [hr.incTemp1_eq, skip_skip, Nat.add_comm 1] at hi
    refine hi.unfold fun k => ?_
    simp only [tokqFindSize, hr.text_cons, if_neg (Ne.symm hs.1), if_neg (Ne.symm hq.1)]
    rw [hr.incTemp1_eq]

/-- Behind the words `ws` the bytes `bs` are written, and a zero byte when there are any. -/
structure Filling (m : Machine) (buf : ℕ) (ws bs : List ℕ) : Prop where
  aligned : buf % 0x100 = 0
  inBank : buf + 0x100 ≤ 0x10000
  words : m.bank.WordsAt buf ws
  bytes : m.bank.BytesAt (buf + 2 * ws.length) bs
  padding : bs ≠ [] → m.bank.byte (buf + 2 * ws.length + bs.length) = 0
  pointer : m.dTemp2 = buf + 2 * ws.length + bs.length
  room : 2 * ws.length + bs.length < 255

theorem Written.filling (h : Written m buf ws) : Filling m buf ws [] :=
  ⟨h.aligned, h.inBank, h.words, trivial, fun h => absurd rfl h, h.pointer, by
    have := h.room
    simp only [List.length_nil]
    omega⟩

/-- Only the bank and `DTemp2` are written by `tokWriteByte`. -/
def Machine.putByte (m : Machine) (a : ℕ) : Machine :=
  { m with bank := m.bank.setWord m.dTemp2 a, dTemp2 := m.dTemp2 + 1 }

@[simp] theorem put_dTemp2 (a : ℕ) : (m.put a).dTemp2 = m.dTemp2 + 2 := rfl

@[simp] theorem put_dTemp3H (a : ℕ) : (m.put a).dTemp3H = m.dTemp3H := rfl

@[simp] theorem putByte_dTemp2 (a : ℕ) : (m.putByte a).dTemp2 = m.dTemp2 + 1 := rfl

@[simp] theorem putByte_dTemp3H (a : ℕ) : (m.putByte a).dTemp3H = m.dTemp3H := rfl

theorem tokWriteByte_ok {a : ℕ} (h : m.dTemp2 % 0x100 < 0xfe) (hb : m.dTemp2 < 0x10000) :
    tokWriteByte m a = .ok (m.putByte a) := by
  have he : sub16 (m.dTemp2 + 2) 1 = m.dTemp2 + 1 := by unfold sub16; omega
  rw [tokWriteByte, tokWriteToken_ok h hb]
  simp only [ok_bind, Machine.put, Machine.putByte, he]

theorem tokWriteByte_full {a : ℕ} (h : m.dTemp2 % 0x100 = 0xfe) :
    ∃ m', tokWriteByte m a = fail m' .lineTooLong := by
  obtain ⟨m', he⟩ := tokWriteToken_full (a := a) h
  exact ⟨m', by rw [tokWriteByte, he]; rfl⟩

theorem Filling.byte {bs : List ℕ} {a : ℕ} (h : Filling m buf ws bs)
    (hl : 2 * ws.length + bs.length < 254) (ha : a < 256) :
    Filling (m.putByte a) buf ws (bs ++ [a]) where
  aligned := h.aligned
  inBank := h.inBank
  words := h.words.congr fun b h₀ h₁ => by
    have := h.pointer
    exact Memory.setWord_of_ne (by omega) (by omega)
  bytes := by
    have hp := h.pointer
    rw [Memory.bytesAt_append]
    refine ⟨h.bytes.congr fun b h₀ h₁ => ?_, ?_, trivial⟩
    · exact Memory.setWord_of_ne (by omega) (by omega)
    · simp only [← hp, Machine.putByte, Memory.byte_setWord_low]
      omega
  padding := fun _ => by
    have hp : buf + 2 * ws.length + (bs ++ [a]).length = m.dTemp2 + 1 := by
      simp only [h.pointer, List.length_append, List.length_singleton]
      omega
    simp only [hp, Machine.putByte, Memory.byte_setWord_high]
    omega
  pointer := by
    simp only [putByte_dTemp2, h.pointer, List.length_append, List.length_singleton]
    omega
  room := by
    simp only [List.length_append, List.length_singleton]
    omega

/-- **The characters fit**: they are copied to the token buffer. -/
theorem tokqWriteString_ok {chars : List ℕ} {bs : List ℕ} (h : Filling m buf ws bs)
    (hr : m.far.BytesAt (m.dTemp4 + 0x10000 * (m.dTemp4H % 0x100)) chars)
    (hb : m.dTemp4 + chars.length < 0x10000) (hl : 2 * ws.length + bs.length + chars.length < 255) :
    ∃ b p q, tokqWriteString chars.length m =
        .ok { m with bank := b, dTemp2 := p, dTemp4 := q } ∧
      Filling { m with bank := b, dTemp2 := p, dTemp4 := q } buf ws (bs ++ chars) := by
  induction chars generalizing m bs with
  | nil => exact ⟨m.bank, m.dTemp2, m.dTemp4, rfl, by simpa using h⟩
  | cons c chars ih =>
    simp only [List.length_cons, Memory.bytesAt_cons] at hb hl hr
    have ha := h.aligned
    have hi := h.inBank
    have hp := h.pointer
    have hc : m.text4 = c := hr.1
    have hc' : m.text4 < 256 := Memory.byte_lt _ _
    have he : add16 m.dTemp4 1 = m.dTemp4 + 1 := add16_eq (by omega)
    have hf := h.byte (by omega) hc'
    obtain ⟨b, p, q, heq, hfill⟩ := ih (m := { m.putByte m.text4 with dTemp4 := m.dTemp4 + 1 })
      ⟨hf.aligned, hf.inBank, hf.words, hf.bytes, hf.padding, hf.pointer, hf.room⟩
      (by simpa only [Machine.putByte, Nat.add_right_comm] using hr.2) (by simp only; omega)
      (by simp only [List.length_append, List.length_singleton]; omega)
    refine ⟨b, p, q, ?_, ?_⟩
    · rw [List.length_cons, tokqWriteString, tokWriteByte_ok (by omega) (by omega)]
      simp only [ok_bind, Machine.putByte, he] at heq ⊢
      exact heq
    · rw [← List.singleton_append, ← List.append_assoc, ← hc]
      exact hfill

/-- **The characters do not fit.** -/
theorem tokqWriteString_full {x : ℕ} (h : m.dTemp2 % 0x100 ≤ 254)
    (hl : 255 ≤ m.dTemp2 % 0x100 + x) (hb : m.dTemp2 < 0x10000) :
    ∃ m', tokqWriteString x m = fail m' .lineTooLong := by
  induction x generalizing m with
  | zero => omega
  | succ x ih =>
    by_cases hp : m.dTemp2 % 0x100 = 0xfe
    · obtain ⟨m', he⟩ := tokWriteByte_full (a := m.text4) hp
      exact ⟨m', by rw [tokqWriteString, he]; rfl⟩
    · obtain ⟨m', he⟩ := ih (m := { m.putByte m.text4 with dTemp4 := add16 m.dTemp4 1 })
        (by simp only [putByte_dTemp2]; omega) (by simp only [putByte_dTemp2]; omega)
        (by simp only [putByte_dTemp2]; omega)
      refine ⟨m', ?_⟩
      rw [tokqWriteString, tokWriteByte_ok (by omega) hb]
      exact he

/-- Bytes are read as words. -/
theorem wordsAt_byteWords {mem : Memory} (bs : List ℕ) :
    ∀ {a : ℕ}, mem.BytesAt a bs → bs.length % 2 = 0 → mem.WordsAt a (Builder.byteWords bs) := by
  induction bs using Builder.byteWords.induct with
  | case1 b₀ b₁ bs ih =>
    intro a h hl
    simp only [Memory.bytesAt_cons] at h
    refine ⟨?_, ih h.2.2 (by simp only [List.length_cons] at hl; omega)⟩
    rw [Memory.word, h.1, h.2.1, Nat.mul_comm]
  | case2 bs hbs =>
    intro a _ _
    cases bs with
    | nil => trivial
    | cons b bs => cases bs with
      | nil => simp at *
      | cons b' bs => exact absurd rfl (hbs b b' bs)

/-- **Alignment** closes the string: the padding byte is already there. -/
theorem Filling.close {bs : List ℕ} (h : Filling m buf ws bs) (hbs : bs ≠ []) :
    ∃ p, (if m.dTemp2 % 2 = 0 then (.ok m : Result Machine)
        else .ok { m with dTemp2 := add16 m.dTemp2 1 }) = .ok { m with dTemp2 := p } ∧
      Written { m with dTemp2 := p } buf (ws ++ Builder.byteWords (Builder.padEven bs)) := by
  have ha := h.aligned
  have hi := h.inBank
  have hp := h.pointer
  have hroom := h.room
  have hlen := length_padEven bs
  have hwords : m.bank.WordsAt (buf + 2 * ws.length) (Builder.byteWords (Builder.padEven bs)) := by
    refine wordsAt_byteWords _ ?_ (by omega)
    unfold Builder.padEven
    split_ifs
    · exact h.bytes
    · exact Memory.bytesAt_append.mpr ⟨h.bytes, h.padding hbs, trivial⟩
  have hall := Memory.wordsAt_append.mpr ⟨h.words, hwords⟩
  have hlen' : (ws ++ Builder.byteWords (Builder.padEven bs)).length =
      ws.length + (bs.length + 1) / 2 := by
    rw [List.length_append, length_byteWords, hlen]
    omega
  split_ifs with hpar
  · exact ⟨m.dTemp2, rfl, ha, hi, hall, by simp only [hlen']; omega, by omega⟩
  · have he : add16 m.dTemp2 1 = m.dTemp2 + 1 := add16_eq (by omega)
    exact ⟨m.dTemp2 + 1, by rw [he], ha, hi, hall, by simp only [hlen']; omega, by omega⟩

/-- What follows the search for the closing quote: the words of the string. -/
theorem emits_stringWords {chars : List ℕ} (hr : Reads m rest) (hw : Written m buf ws)
    (hc : m.far.BytesAt (m.dTemp4 + 0x10000 * (m.dTemp4H % 0x100)) chars)
    (hb : m.dTemp4 + chars.length < 0x10000) (hn : m.dTemp3H = chars.length) :
    Emits (fun _ => do
      let m ← tokWriteToken m (add16 m.dTemp3H 4 / 2 * 2)
      let m ← tokWriteByte m m.dTemp3H
      let m ← tokqWriteString m.dTemp3H m
      if m.dTemp2 % 2 = 0 then .ok m else .ok { m with dTemp2 := add16 m.dTemp2 1 })
      buf rest (ws ++ Builder.stringWords chars) := by
  have ha := hw.aligned
  have hi := hw.inBank
  have hp := hw.pointer
  have hroom := hw.room
  have hlen : (Builder.stringWords chars).length = 1 + (chars.length + 2) / 2 := by
    simp only [Builder.stringWords, List.length_cons, length_byteWords, length_padEven]
    omega
  rw [hn, Emits, List.length_append, hlen]
  -- the header, the length byte and the characters can each be too long
  by_cases h₁ : ws.length + 1 < 128
  case neg =>
    obtain ⟨m', he⟩ := hw.tokWriteToken_full (a := add16 chars.length 4 / 2 * 2) (by omega)
    rw [if_neg (by omega)]
    exact ⟨_, m', .of_forall fun _ => by rw [he, fail_bind]⟩
  rw [hw.tokWriteToken h₁, ok_bind, put_dTemp3H, hn]
  by_cases h₂ : 2 * ws.length + 2 < 254
  case neg =>
    obtain ⟨m', he⟩ := tokWriteByte_full (a := chars.length)
      (m := m.put (add16 chars.length 4 / 2 * 2)) (by rw [put_dTemp2]; omega)
    rw [if_neg (by omega)]
    exact ⟨_, m', .of_forall fun _ => by rw [he, fail_bind]⟩
  rw [tokWriteByte_ok (by rw [put_dTemp2]; omega) (by rw [put_dTemp2]; omega), ok_bind,
    putByte_dTemp3H, put_dTemp3H, hn]
  by_cases h₃ : 2 * ws.length + 2 + 1 + chars.length < 255
  case neg =>
    obtain ⟨m', he⟩ := tokqWriteString_full (x := chars.length)
      (m := (m.put (add16 chars.length 4 / 2 * 2)).putByte chars.length)
      (by simp only [putByte_dTemp2, put_dTemp2]; omega)
      (by simp only [putByte_dTemp2, put_dTemp2]; omega)
      (by simp only [putByte_dTemp2, put_dTemp2]; omega)
    rw [if_neg (by omega)]
    exact ⟨_, m', .of_forall fun _ => by rw [he, fail_bind]⟩
  have hhead : add16 chars.length 4 / 2 * 2 =
      (Builder.padEven (chars.length :: chars)).length / 2 * 2 + 2 := by
    rw [add16_eq (by omega), length_padEven, List.length_cons]
    omega
  have hfill := (hw.put (a := add16 chars.length 4 / 2 * 2) h₁ (by unfold add16; omega)).filling.byte
    (a := chars.length) (by simp; omega) (by omega)
  obtain ⟨b, p, q, he, hfill⟩ := tokqWriteString_ok hfill hc hb (by simp; omega)
  obtain ⟨p', hclose, hwritten⟩ := hfill.close (by simp)
  rw [if_pos (by omega), he, ok_bind, hclose]
  refine ⟨_, .of_forall fun _ => rfl, ⟨hr.text, hr.bound⟩, ?_⟩
  rw [Builder.stringWords, ← List.singleton_append, ← List.append_assoc, ← hhead]
  exact hwritten

/-- The string case of the main loop. -/
theorem emits_tokQuotedString (hr : Reads m (34 :: s)) (hw : Written m buf ws) (hs : 0 ∉ s) :
    match lexString s with
    | some (item, rest) => Emits (fun k => tokQuotedString k m) buf rest (ws ++ item.words)
    | none => Fails fun k => tokQuotedString k m := by
  have hr₁ := hr.incTemp1
  have hr₂ : Reads { m.incTemp1 with
      dTemp4 := m.incTemp1.dTemp1, dTemp4H := m.incTemp1.dTemp1H } s := ⟨hr₁.text, hr₁.bound⟩
  cases hlex : lexString s with
  | none => exact (tokqFindSize_open hr₂ hs (lexString_eq_none.mp hlex)).bind
  | some p =>
    obtain ⟨item, rest⟩ := p
    obtain ⟨chars, rfl, rfl, hq⟩ := lexString_eq_some hlex
    have hs' : 0 ∉ chars := fun h => hs (by simp [h])
    have hb := hr₁.bound
    simp only [List.length_append, List.length_cons] at hb
    refine Emits.of_bind (tokqFindSize_closed hr₂ hs' hq) ?_
    have hlen : sub16 (sub16 (m.incTemp1.dTemp1 + (chars.length + 1)) m.incTemp1.dTemp1) 1 =
        chars.length := by
      unfold sub16
      omega
    simp only [Machine.skip, hlen]
    have hr₃ : Reads (m.incTemp1.skip (chars.length + 1)) rest := by
      have h := Reads.skip (p := chars ++ [34]) (s := rest) (by simpa using hr₁)
      simpa using h
    have hchars := hr₁.text
    rw [List.append_assoc, Memory.bytesAt_append] at hchars
    exact emits_stringWords ⟨hr₃.text, hr₃.bound⟩
      ⟨hw.aligned, hw.inBank, hw.words, hw.pointer, hw.room⟩ hchars.1 (by simp only; omega) rfl

end Basic65816
