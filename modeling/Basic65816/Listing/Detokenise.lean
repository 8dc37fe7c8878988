import Basic65816.Builder.Reload
import Basic65816.Listing.Text
import Basic65816.Stack.Statements

/-!
# Expanding a line

`Detokenise` writes the text of a line into the buffer, when the buffer is long enough. The number
routine clears the byte behind each digit, so that a constant may not end in the last byte.

## Main definitions

* `Machine.Expanded`: a text has been written into the buffer

## Main results

* `dtkMainLoop_items`: the tokens of a line are expanded to the text of its items
* `detokenise_line`: a narrow line is expanded to its text
* `dtkPadLineNo_diverges`: a line that is indented too far is never expanded
-/

namespace Basic65816

open Builder

/-- The registers of the listing are as they were. -/
structure Machine.KeepsListing (m m' : Machine) : Prop where
  first : m'.dTemp4 = m.dTemp4
  last : m'.dTemp4H = m.dTemp4H
  buffer : m'.dListBuffer = m.dListBuffer
  indent : m'.dIndent = m.dIndent
  indent₂ : m'.dIndent2 = m.dIndent2
  shift : m'.dConstantShift = m.dConstantShift
  pointer : m'.dTempStringPointer = m.dTempStringPointer

/-- The buffer at `p` as the temporary string that was allocated last. -/
def Machine.atBuffer (p : ℕ) (m : Machine) : Machine := { m with dTempStringPointer := p }

/-- Since the state `m`, the text `s` has been written into the buffer at `p`. -/
structure Machine.Expanded (m : Machine) (p t : ℕ) (s : List ℕ) (m' : Machine) : Prop where
  written : (m.atBuffer p).Written p s t (m'.atBuffer p)
  keeps : m.KeepsListing m'

section

variable {m m₁ m₂ : Machine} {p t y fuel : ℕ} {s cs ws : List ℕ}

theorem Machine.KeepsListing.refl : m.KeepsListing m := ⟨rfl, rfl, rfl, rfl, rfl, rfl, rfl⟩

theorem Machine.KeepsListing.trans (h : m.KeepsListing m₁) (h' : m₁.KeepsListing m₂) :
    m.KeepsListing m₂ :=
  ⟨h'.first.trans h.first, h'.last.trans h.last, h'.buffer.trans h.buffer,
    h'.indent.trans h.indent, h'.indent₂.trans h.indent₂, h'.shift.trans h.shift,
    h'.pointer.trans h.pointer⟩

/-- The registers of strings other than the pointer are as they were. -/
theorem Machine.Expanded.scratch (h : m.Expanded p t s m₁)
    (hs : (m₁.atBuffer p).Scratch (m₂.atBuffer p)) (hk : m₁.KeepsListing m₂) : m.Expanded p t s m₂ :=
  ⟨h.written.scratch hs, h.keeps.trans hk⟩

theorem keepsListing_stringWriteCharacter (m : Machine) (c : ℕ) :
    m.KeepsListing (stringWriteCharacter m c) := ⟨rfl, rfl, rfl, rfl, rfl, rfl, rfl⟩

theorem keepsListing_ctsOutputA (m : Machine) (c : ℕ) : m.KeepsListing (ctsOutputA m c) :=
  ⟨rfl, rfl, rfl, rfl, rfl, rfl, rfl⟩

/-! ## Characters -/

theorem expanded_stringWriteCharacter (h : m.Expanded p t s m₁) (hn : s.length < t)
    (hp : p + t + 1 < 0x10000) {c : ℕ} (hc : c < 256) :
    m.Expanded p t (s ++ [c]) (stringWriteCharacter m₁ c) := by
  have hw := written_stringWriteCharacter h.written (by omega) (by omega) c
  rw [Nat.mod_eq_of_lt hc] at hw
  exact ⟨hw, h.keeps.trans (keepsListing_stringWriteCharacter m₁ c)⟩

theorem expanded_foldl (h : m.Expanded p t s m₁) (hn : s.length + cs.length ≤ t)
    (hp : p + t + 1 < 0x10000) (hc : ∀ c ∈ cs, c < 256) :
    m.Expanded p t (s ++ cs) (cs.foldl stringWriteCharacter m₁) := by
  induction cs generalizing m₁ s with
  | nil => simpa using h
  | cons c cs ih =>
    rw [List.length_cons] at hn
    have hone := expanded_stringWriteCharacter h (by omega) hp (hc c (by simp))
    have hrest := ih hone (by rw [List.length_append, List.length_singleton]; omega)
      fun d hd => hc d (by simp [hd])
    rwa [List.append_assoc] at hrest

/-- Bytes below the buffer stay as they are. -/
theorem Machine.Expanded.byte {a : ℕ} (h : m.Expanded p t s m₁) (ha : a < p) :
    m₁.bank.byte a = m.bank.byte a := h.written.bank.byte (.inl ha)

theorem Machine.Expanded.word {a : ℕ} (h : m.Expanded p t s m₁) (ha : a + 2 ≤ p) :
    m₁.bank.word a = m.bank.word a := h.written.bank.word (.inl ha)

theorem expanded_sccCopy (h : m.Expanded p t s m₁) (hw : m.bank.BytesAt (y + 1) cs)
    (hy : y + 1 + cs.length ≤ p) (hn : s.length + cs.length ≤ t) (hp : p + t + 1 < 0x10000) :
    m.Expanded p t (s ++ cs) (sccCopy cs.length m₁ y) := by
  induction cs generalizing m₁ s y with
  | nil => simpa [sccCopy] using h
  | cons c cs ih =>
    rw [List.length_cons] at hy hn
    obtain ⟨hbyte, hw⟩ := Memory.bytesAt_cons.mp hw
    have hc : c < 256 := hbyte ▸ m.bank.byte_lt _
    have hone := expanded_stringWriteCharacter h (by omega) hp hc
    have hrest := ih hone hw (by omega)
      (by rw [List.length_append, List.length_singleton]; omega)
    rw [List.append_assoc] at hrest
    rw [List.length_cons, sccCopy, add16_eq (by omega), h.byte (by omega), hbyte]
    exact hrest

/-! ## Numbers -/

theorem decimal_eq_canonical (n : ℕ) : decimal n = Numeral.canonical digitChar 10 n := by
  induction n using Nat.strong_induction_on with
  | _ n ih =>
    have hchar : ∀ d < 10, digitChar d = 48 + d := by decide
    rcases Nat.lt_or_ge n 10 with h | h
    · rw [decimal_of_lt h]
      interval_cases n <;> simp [Numeral.canonical, digitChar]
    · rw [decimal_of_le h, ih _ (by omega)]
      unfold Numeral.canonical
      rw [if_neg (by omega), if_neg (by omega), Nat.digits_def' (by decide) (by omega : 0 < n),
        List.reverse_cons, List.map_append, List.map_singleton, hchar _ (Nat.mod_lt _ (by decide))]

/-- Part of the number routine. More fuel gives the same. -/
theorem ctsMultiplySubtractor_keepsListing (h : m.KeepsListing m₁) (stack : List Long) :
    Outcome (fun r => m.KeepsListing r.2) anyStop (ctsMultiplySubtractor fuel m₁ stack)
      (ctsMultiplySubtractor (fuel + 1) m₁ stack) := by
  induction fuel generalizing m₁ stack with
  | zero => exact .error trivial
  | succ fuel ih =>
    refine .ite (fun _ => .ok h) fun _ => .ite (fun _ => .ok ?_) fun _ => ih ?_ _
    · exact h.trans ⟨rfl, rfl, rfl, rfl, rfl, rfl, rfl⟩
    · exact h.trans ⟨rfl, rfl, rfl, rfl, rfl, rfl, rfl⟩

theorem ctsSubLoop_keepsListing (h : m.KeepsListing m₁) (x : ℕ) :
    Outcome (fun r => m.KeepsListing r.2) anyStop (ctsSubLoop fuel m₁ x)
      (ctsSubLoop (fuel + 1) m₁ x) := by
  induction fuel generalizing m₁ x with
  | zero => exact .error trivial
  | succ fuel ih =>
    refine .ite (fun _ => .ok h) fun _ => ih ?_ _
    exact h.trans ⟨rfl, rfl, rfl, rfl, rfl, rfl, rfl⟩

theorem ctsScaledUp_keepsListing (h : m.KeepsListing m₁) (stack : List Long) :
    Outcome m.KeepsListing anyStop (ctsScaledUp fuel m₁ stack)
      (ctsScaledUp (fuel + 1) m₁ stack) := by
  induction stack generalizing m₁ with
  | nil => exact .error trivial
  | cons d stack ih =>
    refine .ite (fun _ => .ok ?_) fun _ => (ctsSubLoop_keepsListing (m := m) ?_ 0).bind ?_
    · exact h.trans (keepsListing_ctsOutputA _ _)
    · exact h.trans ⟨rfl, rfl, rfl, rfl, rfl, rfl, rfl⟩
    · rintro ⟨x, m₂⟩ h₂
      exact ih (h₂.trans (keepsListing_ctsOutputA _ _))

theorem convertToStringAlreadyAllocated_keepsListing (h : m.KeepsListing m₁) (v : Long) (x : ℕ) :
    Outcome m.KeepsListing anyStop (convertToStringAlreadyAllocated fuel m₁ v x)
      (convertToStringAlreadyAllocated (fuel + 1) m₁ v x) := by
  unfold convertToStringAlreadyAllocated
  refine (ctsMultiplySubtractor_keepsListing (m := m) ?_ _).bind ?_
  · refine h.trans ?_
    split_ifs
    · exact ⟨rfl, rfl, rfl, rfl, rfl, rfl, rfl⟩
    · exact ⟨rfl, rfl, rfl, rfl, rfl, rfl, rfl⟩
  · rintro ⟨stack, m₂⟩ h₂
    exact ctsScaledUp_keepsListing h₂ stack

/-! The number routine does not look at the pointer. -/

theorem ctsMultiplySubtractor_atBuffer (fuel : ℕ) (m : Machine) (stack : List Long) :
    ctsMultiplySubtractor fuel (m.atBuffer p) stack =
      (ctsMultiplySubtractor fuel m stack).map fun r => (r.1, r.2.atBuffer p) := by
  induction fuel generalizing m stack with
  | zero => rfl
  | succ fuel ih =>
    rw [ctsMultiplySubtractor, ctsMultiplySubtractor]
    change (if longLess (m.dTemp3, m.dTemp3H) (m.dTemp1, m.dTemp1H) then _ else _) = _
    split_ifs
    · rfl
    · change (if (multiplyTemp1ByA m m.dSignCount).1 then _ else _) = _
      dsimp only
      split_ifs
      · rfl
      · exact ih (multiplyTemp1ByA m m.dSignCount).2 ((m.dTemp1, m.dTemp1H) :: stack)

theorem ctsSubLoop_atBuffer (fuel : ℕ) (m : Machine) (x : ℕ) :
    ctsSubLoop fuel (m.atBuffer p) x =
      (ctsSubLoop fuel m x).map fun r => (r.1, r.2.atBuffer p) := by
  induction fuel generalizing m x with
  | zero => rfl
  | succ fuel ih =>
    rw [ctsSubLoop, ctsSubLoop]
    change (if longLess (m.dTemp3, m.dTemp3H) (m.dTemp2, m.dTemp2H) then _ else _) = _
    dsimp only
    split_ifs
    · rfl
    · exact ih { m with
        dTemp3 := (subLong (m.dTemp3, m.dTemp3H) (m.dTemp2, m.dTemp2H)).1
        dTemp3H := (subLong (m.dTemp3, m.dTemp3H) (m.dTemp2, m.dTemp2H)).2 } (add16 x 1)

theorem ctsScaledUp_atBuffer (fuel : ℕ) (m : Machine) (stack : List Long) :
    ctsScaledUp fuel (m.atBuffer p) stack =
      (ctsScaledUp fuel m stack).map (Machine.atBuffer p) := by
  induction stack generalizing m with
  | nil => rfl
  | cons d stack ih =>
    rw [ctsScaledUp, ctsScaledUp]
    split_ifs
    · rfl
    · have hsub := ctsSubLoop_atBuffer (p := p) fuel { m with dTemp2 := d.1, dTemp2H := d.2 } 0
      change (ctsSubLoop fuel (Machine.atBuffer p { m with dTemp2 := d.1, dTemp2H := d.2 }) 0 >>= _)
        = _
      rw [hsub]
      cases ctsSubLoop fuel { m with dTemp2 := d.1, dTemp2H := d.2 } 0 with
      | error e => rfl
      | ok r => exact ih (ctsOutputHexDigit r.2 r.1)

theorem convertToStringAlreadyAllocated_atBuffer (fuel : ℕ) (m : Machine) (v : Long) (x : ℕ) :
    convertToStringAlreadyAllocated fuel (m.atBuffer p) v x =
      (convertToStringAlreadyAllocated fuel m v x).map (Machine.atBuffer p) := by
  unfold convertToStringAlreadyAllocated
  -- the state behind the sign
  have hrest : ∀ m : Machine, (ctsMultiplySubtractor fuel (m.atBuffer p) [(1, 0)] >>=
      fun r => ctsScaledUp fuel r.2 r.1) = Except.map (Machine.atBuffer p)
        (ctsMultiplySubtractor fuel m [(1, 0)] >>= fun r => ctsScaledUp fuel r.2 r.1) := fun m => by
    rw [ctsMultiplySubtractor_atBuffer]
    cases ctsMultiplySubtractor fuel m [(1, 0)] with
    | error e => rfl
    | ok r => exact ctsScaledUp_atBuffer fuel r.2 r.1
  by_cases hneg : 0x8000 ≤ v.2
  · dsimp only
    rw [if_pos hneg, if_pos hneg]
    exact hrest { ctsOutputA m 45 with
      dTemp3 := (subLong (0, 0) v).1, dTemp3H := (subLong (0, 0) v).2
      dSignCount := x, dTemp1 := x, dTemp1H := 0 }
  · dsimp only
    rw [if_neg hneg, if_neg hneg]
    exact hrest { m with
      dTemp3 := v.1, dTemp3H := v.2, dSignCount := x, dTemp1 := x, dTemp1H := 0 }

theorem lt_pow_length_decimal (n : ℕ) : n < 10 ^ (decimal n).length := by
  induction n using Nat.strong_induction_on with
  | _ n ih =>
    rcases Nat.lt_or_ge n 10 with h | h
    · rw [decimal_of_lt h]
      simpa using h
    · have hd := ih (n / 10) (by omega)
      rw [decimal_of_le h, List.length_append, List.length_singleton, Nat.pow_succ]
      omega

theorem signedLong_small {v : Long} {n : ℕ} (hv : v.toNat = n) (hvalid : v.Valid)
    (hn : n < 2 ^ 31) : signedLong v = n := by
  rw [signedLong_eq hvalid, hv, if_pos hn]

/-- The number routine appends the decimal numeral, and needs a byte behind it. -/
theorem expanded_convert {v : Long} {n : ℕ} (h : m.Expanded p t s m₁) (hvalid : v.Valid)
    (hv : v.toNat = n) (hn : n < 2 ^ 31) (hroom : s.length + (decimal n).length < t)
    (hp : p + t + 1 < 0x10000) :
    ∃ m', (∀ fuel, 33 ≤ fuel → convertToStringAlreadyAllocated fuel m₁ v 10 = .ok m') ∧
      m.Expanded p t (s ++ decimal n) m' := by
  have hsigned := signedLong_small hv hvalid hn
  have hneg : ¬signedLong v < 0 := by omega
  have habs : (signedLong v).natAbs = n := by omega
  obtain ⟨k, m', hat, hw, -, hk, -, hlt⟩ := convertToStringAlreadyAllocated_places (b := 10)
    h.written hvalid (by decide) (by decide) (by omega) (fun k hk => by
      rw [if_neg hneg, List.length_nil]
      rw [habs] at hk
      have hlen := lt_pow_length_decimal n
      have hpos : 0 < (decimal n).length := List.length_pos_iff.mpr (decimal_ne_nil n)
      have hklt : k < (decimal n).length := by
        rcases hk with rfl | ⟨-, hk⟩
        · exact hpos
        · exact (Nat.pow_lt_pow_iff_right (by decide)).mp (hk.trans_lt hlen)
      omega) (le_refl 33)
  -- the run that was described keeps the pointer at the buffer; the other one goes the same way
  rw [convertToStringAlreadyAllocated_atBuffer] at hat
  obtain ⟨m₂, hrun, rfl⟩ : ∃ m₂, convertToStringAlreadyAllocated 33 m₁ v 10 = .ok m₂ ∧
      m₂.atBuffer p = m' := by
    cases hc : convertToStringAlreadyAllocated 33 m₁ v 10 with
    | error e => rw [hc] at hat; cases hat
    | ok m₂ =>
      rw [hc] at hat
      exact ⟨m₂, rfl, Except.ok.inj hat⟩
  rw [habs] at hk hlt hw
  -- the digits from the highest place down are the numeral without leading zeros
  have hplaces : (Numeral.places 10 k n).map digitChar = decimal n := by
    rw [decimal_eq_canonical]
    exact (Numeral.canonical_eq_places (by decide) (hlt.resolve_right (by omega)) hk).symm
  rw [if_neg hneg, List.append_nil, hplaces] at hw
  -- with 33 units of fuel every loop has come to its end, and each further unit changes nothing
  have hkeeps : ∀ fuel, 33 ≤ fuel →
      convertToStringAlreadyAllocated fuel m₁ v 10 = .ok m₂ ∧ m.KeepsListing m₂ := by
    intro fuel hfuel
    induction fuel, hfuel using Nat.le_induction with
    | base =>
      have hone : Outcome _ _ (convertToStringAlreadyAllocated 33 m₁ v 10)
        (convertToStringAlreadyAllocated 34 m₁ v 10) :=
        convertToStringAlreadyAllocated_keepsListing h.keeps v 10
      rw [hrun] at hone
      exact ⟨hrun, hone.2⟩
    | succ fuel _ ih =>
      have hone : Outcome _ _ (convertToStringAlreadyAllocated fuel m₁ v 10)
        (convertToStringAlreadyAllocated (fuel + 1) m₁ v 10) :=
        convertToStringAlreadyAllocated_keepsListing h.keeps v 10
      rw [ih.1] at hone
      exact hone
  exact ⟨m₂, fun fuel hfuel => (hkeeps fuel hfuel).1, hw, (hkeeps 33 (le_refl 33)).2⟩

/-! ## Keywords -/

/-- The character that was written last. -/
theorem Machine.Expanded.last (h : m.Expanded p t s m₁) (hs : s ≠ []) (hlen : s.length ≤ t)
    (hp : p + t + 1 < 0x10000) :
    m₁.bank.byte (sub16 m₁.dCurrentTempString 1) = s.getLastD 0 := by
  have hpos := List.length_pos_iff.mpr hs
  have hcur : sub16 m₁.dCurrentTempString 1 = p + 1 + (s.length - 1) := by
    have hcurrent : m₁.dCurrentTempString = (p + 1 + s.length) % 0x10000 := h.written.current
    rw [hcurrent, Nat.mod_eq_of_lt (by omega)]
    unfold sub16
    omega
  have hchar : m₁.bank.byte (p + 1 + (s.length - 1)) = _ := h.written.chars.get (by omega)
  rw [hcur, hchar, List.getLastD_eq_getLast?, List.getLast?_eq_getElem?,
    List.getElem?_eq_getElem (by omega)]
  rfl

theorem name_lt_of_mem : ∀ k ∈ tokenList, ∀ c ∈ k.name.map upperChar, c < 256 := by decide

/-- A token is expanded to its name, and a keyword gets its spaces. -/
theorem dtkDecodeKeyword_token {k : Token} (hk : k ∈ tokenList) (h : m.Expanded p t s m₁)
    (hs : s ≠ []) (hp : p + t + 1 < 0x10000)
    (hroom : (s ++ (Item.token k.id).listed (s.getLastD 0)).length ≤ t) :
    ∃ m', dtkDecodeKeyword m₁ k.id = .ok m' ∧
      m.Expanded p t (s ++ (Item.token k.id).listed (s.getLastD 0)) m' := by
  have hname : ∀ c ∈ tokenName k.id, c < 256 := by
    rw [tokenName_id hk]
    exact name_lt_of_mem k hk
  have hlen : s.length ≤ t := by
    rw [List.length_append] at hroom
    omega
  have hlast := h.last hs hlen hp
  obtain ⟨e, htext, hentry⟩ := dtkdEntry_mem hk
  unfold dtkDecodeKeyword
  by_cases hkey : isKeyword k.id
  · have hlisted : (Item.token k.id).listed (s.getLastD 0) =
        (if s.getLastD 0 = 32 ∨ s.getLastD 0 = 58 then [] else [32]) ++ tokenName k.id ++ [32] :=
      if_pos hkey
    have hflag : (k.id &&& 0x1800) ^^^ 0x1800 = 0 := hkey
    rw [hlisted] at hroom ⊢
    dsimp only
    rw [if_pos hflag, hlast]
    -- the leading space
    obtain ⟨m₂, hm₂, h₂⟩ : ∃ m₂, m₂ = (if s.getLastD 0 = 32 ∨ s.getLastD 0 = 58 then m₁
        else stringWriteCharacter m₁ 32) ∧
        m.Expanded p t (s ++ if s.getLastD 0 = 32 ∨ s.getLastD 0 = 58 then [] else [32]) m₂ := by
      refine ⟨_, rfl, ?_⟩
      split_ifs at hroom ⊢
      · simpa using h
      · exact expanded_stringWriteCharacter h (by simp at hroom; omega) hp (by decide)
    rw [← hm₂]
    -- the name
    obtain ⟨d, hd⟩ := hentry m₂
    rw [hd, ok_bind]
    dsimp only
    rw [if_pos hflag, htext]
    simp only [List.length_append, List.length_singleton] at hroom
    have h₃ : m.Expanded p t (s ++ if s.getLastD 0 = 32 ∨ s.getLastD 0 = 58 then [] else [32])
        { m₂ with dTemp1 := d } :=
      h₂.scratch ⟨rfl, rfl, rfl, rfl, rfl, rfl⟩ ⟨rfl, rfl, rfl, rfl, rfl, rfl, rfl⟩
    have h₄ := expanded_foldl h₃ (by rw [List.length_append]; omega) hp hname
    -- the trailing space
    have h₅ := expanded_stringWriteCharacter h₄
      (by rw [List.length_append, List.length_append]; omega) hp (c := 32) (by decide)
    refine ⟨_, rfl, ?_⟩
    rwa [← List.append_assoc, ← List.append_assoc]
  · -- other tokens are written without spaces
    have hlisted : (Item.token k.id).listed (s.getLastD 0) = tokenName k.id := if_neg hkey
    have hflag : ¬(k.id &&& 0x1800) ^^^ 0x1800 = 0 := hkey
    rw [hlisted] at hroom ⊢
    rw [List.length_append] at hroom
    dsimp only
    rw [if_neg hflag]
    obtain ⟨d, hd⟩ := hentry m₁
    rw [hd, ok_bind]
    dsimp only
    rw [if_neg hflag, htext]
    have h₂ : m.Expanded p t s { m₁ with dTemp1 := d } :=
      h.scratch ⟨rfl, rfl, rfl, rfl, rfl, rfl⟩ ⟨rfl, rfl, rfl, rfl, rfl, rfl, rfl⟩
    exact ⟨_, rfl, expanded_foldl h₂ hroom hp hname⟩

/-! ## Identifiers -/

theorem expanded_dtkiOutA (h : m.Expanded p t s m₁) {c : ℕ} (hc : c ≤ 36)
    (hn : s.length + (decodeC c).length ≤ t) (hp : p + t + 1 < 0x10000) :
    m.Expanded p t (s ++ decodeC c) (dtkiOutA m₁ c) := by
  rcases Nat.eq_zero_or_pos c with rfl | hpos
  · simpa [decodeC, dtkiOutA] using h
  rcases Nat.lt_or_ge c 27 with hlt | hge
  · have hdecode : decodeC c = [96 + c] := if_pos (by omega)
    have hout : dtkiOutA m₁ c = stringWriteCharacter m₁ (96 + c) := by
      rw [dtkiOutA, if_neg (by omega), if_pos hlt, add16_eq (by omega), Nat.add_comm]
    rw [hdecode, List.length_singleton] at hn
    rw [hdecode, hout]
    exact expanded_stringWriteCharacter h hn hp (by omega)
  · have hdecode : decodeC c = [c - 27 + 48] := by
      rw [decodeC, if_neg (by omega), if_pos (by omega)]
    have hchar : add16 (sub16 c 0x4B) 96 = c - 27 + 48 := by
      unfold add16 sub16
      omega
    have hout : dtkiOutA m₁ c = stringWriteCharacter m₁ (c - 27 + 48) := by
      rw [dtkiOutA, if_neg (by omega), if_neg (by omega), hchar]
    rw [hdecode, List.length_singleton] at hn
    rw [hdecode, hout]
    exact expanded_stringWriteCharacter h hn hp (by omega)

theorem length_decodeC_le (c : ℕ) : (decodeC c).length ≤ 1 := by
  unfold decodeC
  split_ifs <;> simp

/-- The two characters of a word, and the bit that says that there are more. -/
theorem expanded_dtkiDecodeToken (isString isArray more : Bool) {a b : ℕ} (ha : a ≤ 36)
    (hb : b ≤ 36) (h : m.Expanded p t s m₁)
    (hw : m.bank.word y = typeBits isString isArray + (a + b * 45) + if more then 0x0800 else 0)
    (hy : y + 2 ≤ p) (hroom : s.length + (decodeC a).length + (decodeC b).length ≤ t)
    (hp : p + t + 1 < 0x10000) :
    m.Expanded p t (s ++ decodeC a ++ decodeC b) (dtkiDecodeToken m₁ (m₁.bank.word y)) ∧
      ((dtkiDecodeToken m₁ (m₁.bank.word y)).bank.word y &&& idContMask = 0 ↔ more = false) := by
  have hx : a + b * 45 < 0x800 := by omega
  obtain ⟨-, hlow, hmore, -, -⟩ := identWord_fields isString isArray more hx
  rw [← hw] at hlow hmore
  have h800 : m.bank.word y &&& idContMask = 0 ↔ more = false :=
    (and_two_pow_eq_zero _ 11).trans hmore
  have h7FF : m.bank.word y &&& 0x07FF = a + b * 45 :=
    (Nat.and_two_pow_sub_one_eq_mod _ 11).trans hlow
  have h₂ := expanded_dtkiOutA (expanded_dtkiOutA h ha (by omega) hp) hb
    (by rw [List.length_append]; omega) hp
  have hdecode : dtkiDecodeToken m₁ (m₁.bank.word y) = dtkiOutA (dtkiOutA m₁ a) b := by
    unfold dtkiDecodeToken
    dsimp only
    rw [h.word hy, h7FF, show (a + b * 45) % 45 = a by omega, show (a + b * 45) / 45 = b by omega]
  rw [hdecode, h₂.word hy]
  exact ⟨h₂, h800⟩

/-- One word of an identifier. -/
theorem dtkiLoop_word (isString isArray more : Bool) {a b : ℕ} (ha : a ≤ 36) (hb : b ≤ 36)
    (h : m.Expanded p t s m₁)
    (hw : m.bank.word y = typeBits isString isArray + (a + b * 45) + if more then 0x0800 else 0)
    (hy : y + 2 ≤ p) (hroom : s.length + (decodeC a).length + (decodeC b).length ≤ t)
    (hp : p + t + 1 < 0x10000) :
    ∃ m₂, m.Expanded p t (s ++ decodeC a ++ decodeC b) m₂ ∧ ∀ k, dtkiLoop (k + 1) m₁ y =
      if more then dtkiLoop k m₂ (y + 2) else .ok (y + 2, m₂) := by
  obtain ⟨h₂, hmore⟩ := expanded_dtkiDecodeToken isString isArray more ha hb h hw hy hroom hp
  refine ⟨_, h₂, fun k => ?_⟩
  rw [dtkiLoop, add16_eq (by omega)]
  cases more with
  | false => rw [if_neg (not_not.mpr (hmore.mpr rfl)), if_neg Bool.false_ne_true]
  | true => rw [if_pos fun h0 => by simpa using hmore.mp h0, if_pos rfl]

/-- The words of an identifier, for the codes of its name. By induction on the words. -/
theorem dtkiLoop_codes (isString isArray : Bool) {m₁ : Machine} {y : ℕ} {s cs : List ℕ}
    (hcs : cs ≠ []) (hcode : ∀ c ∈ cs, IsCode c) (h : m.Expanded p t s m₁)
    (hw : m.bank.WordsAt y (identWords isString isArray (padEven cs)))
    (hy : y + 2 * (identWords isString isArray (padEven cs)).length ≤ p)
    (hroom : s.length + cs.length ≤ t) (hp : p + t + 1 < 0x10000) :
    ∃ m', m.Expanded p t (s ++ cs.flatMap decodeC) m' ∧ Settles (fun fuel => dtkiLoop fuel m₁ y)
      (.ok (y + 2 * (identWords isString isArray (padEven cs)).length, m')) := by
  match cs with
  | [a] =>
    -- the last word of an odd name holds one character; the code behind it is 0 and writes nothing
    have ha := hcode a (by simp)
    unfold IsCode at ha
    rw [identWords_single] at hw hy ⊢
    rw [List.length_singleton] at hy hroom
    have ha' := length_decodeC_le a
    obtain ⟨m₂, h₂, hloop⟩ := dtkiLoop_word (b := 0) isString isArray false ha.2 (by decide) h
      (by simpa using hw.1) (by omega)
      (by rw [show decodeC 0 = [] from rfl, List.length_nil]; omega) hp
    refine ⟨m₂, by simpa [decodeC] using h₂, ?_⟩
    exact Settles.succ (.of_forall fun k => (hloop k).trans (by simp))
  | a :: b :: cs =>
    have ha := hcode a (by simp)
    have hb := hcode b (by simp)
    unfold IsCode at ha hb
    rw [identWords_cons_cons] at hw hy ⊢
    rw [List.length_cons] at hy ⊢
    rw [List.length_cons, List.length_cons] at hroom
    have ha' := length_decodeC_le a
    have hb' := length_decodeC_le b
    obtain ⟨m₂, h₂, hloop⟩ := dtkiLoop_word isString isArray (cs ≠ []) ha.2 hb.2 h
      (by simpa using hw.1) (by omega) (by omega) hp
    -- the continuation bit is set when there are more characters
    by_cases hc : cs = []
    · subst hc
      refine ⟨m₂, by simpa using h₂, ?_⟩
      refine Settles.succ (.of_forall fun k => (hloop k).trans ?_)
      simp [padEven, identWords]
    · have hlen : (s ++ decodeC a ++ decodeC b).length ≤ s.length + 2 := by
        rw [List.length_append, List.length_append]
        omega
      obtain ⟨m₃, h₃, hset⟩ := dtkiLoop_codes isString isArray hc
        (fun c hc => hcode c (by simp [hc])) h₂ hw.2 (by omega) (by omega) hp
      refine ⟨m₃, by simpa using h₃, ?_⟩
      rw [show y + 2 * ((identWords isString isArray (padEven cs)).length + 1) =
        y + 2 + 2 * (identWords isString isArray (padEven cs)).length by omega]
      exact hset.unfold fun k => (hloop k).trans (by simp [hc])

/-- The first word of an identifier. -/
theorem identWords_head (isString isArray : Bool) (hcs : cs ≠ []) (hcode : ∀ c ∈ cs, IsCode c) :
    ∃ x ws, ∃ more : Bool, x < 0x800 ∧ identWords isString isArray (padEven cs) =
      (typeBits isString isArray + x + if more then 0x0800 else 0) :: ws := by
  match cs with
  | [a] =>
    have ha := hcode a (by simp)
    unfold IsCode at ha
    exact ⟨a, [], false, by omega, by rw [identWords_single]; rfl⟩
  | a :: b :: cs =>
    have ha := hcode a (by simp)
    have hb := hcode b (by simp)
    unfold IsCode at ha hb
    refine ⟨a + b * 45, identWords isString isArray (padEven cs), (cs ≠ [] : Bool), by omega, ?_⟩
    rw [identWords_cons_cons]
    by_cases hc : cs = [] <;> simp [hc]

/-- The dollar of a string and the bracket of an array, behind an identifier with the word `token`. -/
def dtkiSuffix (m : Machine) (token : ℕ) : Machine :=
  let m := if token &&& idTypeMask = 0 then m else stringWriteCharacter m 36
  if token &&& idArrayMask = 0 then m else stringWriteCharacter m 40

theorem expanded_dtkiSuffix (isString isArray : Bool) {token : ℕ}
    (hstring : token / 0x2000 % 2 = 0 ↔ isString = false)
    (harray : token / 0x1000 % 2 = 0 ↔ isArray = false) (h : m.Expanded p t s m₁)
    (hroom : s.length + (suffixes isString isArray).length ≤ t) (hp : p + t + 1 < 0x10000) :
    m.Expanded p t (s ++ suffixes isString isArray) (dtkiSuffix m₁ token) := by
  have htype : token &&& idTypeMask = 0 ↔ isString = false :=
    (and_two_pow_eq_zero _ 13).trans hstring
  have hmask : token &&& idArrayMask = 0 ↔ isArray = false :=
    (and_two_pow_eq_zero _ 12).trans harray
  unfold suffixes at hroom
  rw [List.length_append] at hroom
  unfold dtkiSuffix suffixes
  dsimp only
  -- the dollar
  obtain ⟨m₃, hm₃, h₃⟩ : ∃ m₃, m₃ = (if token &&& idTypeMask = 0 then m₁
      else stringWriteCharacter m₁ 36) ∧
      m.Expanded p t (s ++ if isString then [36] else []) m₃ := by
    refine ⟨_, rfl, ?_⟩
    cases isString with
    | false =>
      rw [if_pos (htype.mpr rfl)]
      simpa using h
    | true =>
      rw [if_neg (htype.not.mpr (by decide : ¬true = false))]
      exact expanded_stringWriteCharacter h (by simp at hroom; omega) hp (by decide : 36 < 256)
  rw [← hm₃]
  -- the bracket
  cases isArray with
  | false =>
    rw [if_pos (hmask.mpr rfl)]
    simpa using h₃
  | true =>
    rw [if_neg (hmask.not.mpr (by decide : ¬true = false)), ← List.append_assoc]
    refine expanded_stringWriteCharacter h₃ ?_ hp (by decide : 40 < 256)
    rw [List.length_append]
    simp only [if_true, List.length_singleton] at hroom
    omega

/-- An identifier is expanded to its name and the suffixes of its type. -/
theorem dtkIdentifier_expanded {name : List ℕ} (isString isArray : Bool) (hname : Named name)
    (h : m.Expanded p t s m₁)
    (hw : m.bank.WordsAt y (Item.ident name isString isArray).words)
    (hy : y + 2 * (Item.ident name isString isArray).words.length ≤ p)
    (hroom : (s ++ (Item.ident name isString isArray).listed (s.getLastD 0)).length ≤ t)
    (hp : p + t + 1 < 0x10000) :
    0xC000 ≤ m₁.bank.word y ∧
    ∃ m', m.Expanded p t (s ++ (Item.ident name isString isArray).listed (s.getLastD 0)) m' ∧
      Settles (fun fuel => dtkIdentifier fuel m₁ y)
        (.ok (y + 2 * (Item.ident name isString isArray).words.length, m')) := by
  obtain ⟨c, r, rfl, -⟩ := hname.head
  have hcode : ∀ x ∈ (c :: r).map convert, IsCode x := fun x hx => by
    obtain ⟨y, hy, rfl⟩ := List.mem_map.mp hx
    exact convert_isCode (hname.chars y hy)
  simp only [Item.listed, List.length_append, List.length_map] at hroom
  obtain ⟨m₂, h₂, hset⟩ := dtkiLoop_codes isString isArray (by simp) hcode h hw hy
    (by rw [List.length_map]; omega) hp
  rw [flatMap_decodeC hname.chars] at h₂
  -- the bits of the type are those of the first word
  obtain ⟨x, ws, more, hx, hwords⟩ := identWords_head isString isArray (by simp) hcode
  have hwords' : (Item.ident (c :: r) isString isArray).words = _ := hwords
  have hy2 : m₁.bank.word y = m.bank.word y := h.word (by
    rw [hwords', List.length_cons] at hy
    omega)
  have hword : m.bank.word y = typeBits isString isArray + x + if more then 0x0800 else 0 := by
    rw [hwords'] at hw
    exact hw.1
  obtain ⟨hge, -, -, harray, hstring⟩ := identWord_fields isString isArray more hx
  rw [← hword] at hge harray hstring
  have hn : (s ++ (c :: r).map lowerChar).length = s.length + (c :: r).length := by simp
  have h₃ := expanded_dtkiSuffix isString isArray hstring harray h₂ (by rw [hn]; omega) hp
  rw [← hy2] at hge h₃
  refine ⟨hge, dtkiSuffix m₂ (m₁.bank.word y), ?_, hset.bind (.of_forall fun k => rfl)⟩
  simpa only [Item.listed, List.append_assoc] using h₃

/-! ## Strings and constants -/

/-- A string is copied between quotes. Its header is the number of bytes up to the next token. -/
theorem expanded_string {chars : List ℕ} (hi : (Item.string chars).Valid)
    (h : m.Expanded p t s m₁) (hw : m.bank.WordsAt y (Item.string chars).words)
    (hy : y + 2 * (Item.string chars).words.length ≤ p)
    (hroom : (s ++ (Item.string chars).listed (s.getLastD 0)).length ≤ t)
    (hp : p + t + 1 < 0x10000) :
    m.Expanded p t (s ++ (Item.string chars).listed (s.getLastD 0))
        (stringWriteCharacter (stringCreateCopy (stringWriteCharacter m₁ 34) (add16 y 2)) 34) ∧
      m.bank.word y = 2 * (Item.string chars).words.length ∧ 0 < m.bank.word y ∧
      m.bank.word y < 0x100 := by
  obtain ⟨-, hl, hb⟩ := hi
  have hlen := length_padEven (chars.length :: chars)
  rw [List.length_cons] at hlen
  -- behind the header: the length, the characters, and a byte of padding for an even number of them
  have hbytes : m.bank.BytesAt (y + 2) (padEven (chars.length :: chars)) :=
    bytesAt_of_byteWords (by omega) (mem_padEven_lt fun b hc => by
      rcases List.mem_cons.mp hc with rfl | hc
      · omega
      · exact hb b hc) hw.2
  obtain ⟨pad, hpad⟩ := padEven_prefix (chars.length :: chars)
  rw [← hpad, List.cons_append, Memory.bytesAt_cons, Memory.bytesAt_append] at hbytes
  obtain ⟨hlength, hchars, -⟩ := hbytes
  have hword : m.bank.word y = (padEven (chars.length :: chars)).length / 2 * 2 + 2 := hw.1
  have hwords : 2 * (Item.string chars).words.length =
      (padEven (chars.length :: chars)).length / 2 * 2 + 2 := by
    simp only [Item.words, stringWords, List.length_cons, length_byteWords]
    omega
  simp only [Item.listed, List.length_append, List.length_cons, List.length_nil] at hroom
  have h₂ := expanded_stringWriteCharacter h (by omega) hp (c := 34) (by decide)
  have h₃ := expanded_sccCopy h₂ hchars (by omega)
    (by rw [List.length_append, List.length_singleton]; omega) hp
  have h₄ := expanded_stringWriteCharacter h₃ (by simp; omega) hp (c := 34) (by decide)
  have hcopy : stringCreateCopy (stringWriteCharacter m₁ 34) (y + 2) =
      sccCopy chars.length (stringWriteCharacter m₁ 34) (y + 2) := by
    rw [stringCreateCopy, h₂.byte (by omega), hlength]
  rw [add16_eq (by omega), hcopy]
  exact ⟨by simpa [Item.listed] using h₄, hword.trans hwords.symm, by omega, by omega⟩

theorem dtkMainLoop_string {chars : List ℕ} (hi : (Item.string chars).Valid)
    (h : m.Expanded p t s m₁) (hw : m.bank.WordsAt y (Item.string chars).words)
    (hy : y + 2 * (Item.string chars).words.length ≤ p)
    (hroom : (s ++ (Item.string chars).listed (s.getLastD 0)).length ≤ t)
    (hp : p + t + 1 < 0x10000) :
    ∃ m', m.Expanded p t (s ++ (Item.string chars).listed (s.getLastD 0)) m' ∧
      ∀ k, dtkMainLoop (k + 1) m₁ y =
        dtkMainLoop k m' (y + 2 * (Item.string chars).words.length) := by
  obtain ⟨h₂, hword, hpos, hlt⟩ := expanded_string hi h hw hy hroom hp
  refine ⟨_, h₂, fun k => ?_⟩
  have hy2 : m₁.bank.word y = m.bank.word y := h.word (by omega)
  rw [dtkMainLoop, if_neg (by omega)]
  dsimp only
  rw [if_pos (by omega), h₂.word (by omega), hword, add16_eq (by omega), add16_eq (by omega)]

theorem Machine.Expanded.withShift (h : m.Expanded p t s m₁) (x : ℕ) :
    Machine.Expanded { m with dConstantShift := x } p t s { m₁ with dConstantShift := x } :=
  ⟨⟨⟨h.written.base, h.written.high, rfl, h.written.start, h.written.current, h.written.length,
    h.written.bank⟩, h.written.chars⟩,
    h.keeps.first, h.keeps.last, h.keeps.buffer, h.keeps.indent, h.keeps.indent₂, rfl,
    h.keeps.pointer⟩

/-- A constant, whose lowest bit of the shift is bit 15 of the low word. -/
theorem expanded_const {v : ℕ} (hv : v < 0x8000000) (hshift : m.dConstantShift = 0)
    (h : m.Expanded p t s m₁) (hroom : s.length + (decimal v).length < t)
    (hp : p + t + 1 < 0x10000) :
    ∃ m₂, (∀ k, 33 ≤ k →
        convertToStringAlreadyAllocated k { m₁ with dConstantShift := v / 0x8000 / 2 }
          (v % 0x8000 + v / 0x8000 % 2 * 0x8000, v / 0x8000 / 2) 10 = .ok m₂) ∧
      m.Expanded p t (s ++ decimal v) { m₂ with dConstantShift := 0 } := by
  obtain ⟨m₂, hrun, h₂⟩ := expanded_convert
    (v := (v % 0x8000 + v / 0x8000 % 2 * 0x8000, v / 0x8000 / 2))
    (h.withShift (v / 0x8000 / 2)) ⟨by dsimp only; omega, by dsimp only; omega⟩
    (n := v) (by unfold Long.toNat; dsimp only; omega) (by omega) hroom hp
  have h₃ := h₂.withShift 0
  have hm : { m with dConstantShift := 0 } = m := by rw [← hshift]
  exact ⟨m₂, hrun, hm ▸ h₃⟩

/-- The word with the low bits of a constant, behind the shift. -/
theorem dtkMainLoop_low {v : ℕ} (hv : v < 0x8000000) (hshift : m.dConstantShift = 0)
    (h : m.Expanded p t s m₁) (hw : m.bank.word y = v % 0x8000 + 0x4000) (hy : y + 2 ≤ p)
    (hroom : s.length + (decimal v).length < t) (hp : p + t + 1 < 0x10000) :
    ∃ m', m.Expanded p t (s ++ decimal v) m' ∧ ∀ k, 33 ≤ k →
      dtkMainLoop (k + 1) { m₁ with dConstantShift := v / 0x8000 } y =
        dtkMainLoop k m' (y + 2) := by
  have hword : m₁.bank.word y = v % 0x8000 + 0x4000 := (h.word hy).trans hw
  obtain ⟨m₂, hrun, h₂⟩ := expanded_const hv hshift h hroom hp
  refine ⟨{ m₂ with dConstantShift := 0 }, h₂, fun k hk => ?_⟩
  rw [dtkMainLoop]
  dsimp only
  rw [hword, if_neg (by omega), if_neg (by omega), if_neg (by omega), if_neg (by omega),
    if_pos (by omega), show 2 * (v % 0x8000 + 0x4000 - 0x4000) % 0x10000 / 2 = v % 0x8000 by omega,
    hrun k hk, ok_bind, add16_eq (by omega)]

/-! ## Lines -/

/-- The text of an item is written for its words. -/
theorem dtkMainLoop_item {i : Item} (hi : i.Valid) (hshift : m.dConstantShift = 0)
    (h : m.Expanded p t s m₁) (hs : s ≠ []) (hw : m.bank.WordsAt y i.words)
    (hy : y + 2 * i.words.length ≤ p)
    (hslack : (s ++ i.listed (s.getLastD 0)).length + i.slack ≤ t) (hp : p + t + 1 < 0x10000) :
    ∃ m', m.Expanded p t (s ++ i.listed (s.getLastD 0)) m' ∧ ∀ r,
      Settles (fun fuel => dtkMainLoop fuel m' (y + 2 * i.words.length)) r →
        Settles (fun fuel => dtkMainLoop fuel m₁ y) r := by
  have hroom := (Nat.le_add_right _ _).trans hslack
  cases i with
  | token t =>
    obtain ⟨k, hk, rfl⟩ := hi
    have hge := id_ge_of_mem k hk
    have hlt := id_lt_of_mem k hk
    have hone : 2 * (Item.token k.id).words.length = 2 := rfl
    rw [hone] at hy ⊢
    have hword : m₁.bank.word y = k.id := (h.word hy).trans hw.1
    obtain ⟨m₂, hrun, h₂⟩ := dtkDecodeKeyword_token hk h hs hp
      hroom
    refine ⟨m₂, h₂, fun r hr => hr.unfold fun fuel => ?_⟩
    rw [dtkMainLoop]
    dsimp only
    rw [hword, if_neg (by omega), if_neg (by omega), if_neg (by omega), if_pos (by omega), hrun,
      ok_bind, add16_eq (by omega)]
  | ident name isString isArray =>
    obtain ⟨hge, m₂, h₂, hset⟩ := dtkIdentifier_expanded isString isArray hi.1 h hw hy
      hroom hp
    refine ⟨m₂, h₂, fun r hr => ?_⟩
    refine (hset.bind (g := fun fuel r => dtkMainLoop fuel r.2 r.1) hr).unfold fun fuel => ?_
    rw [dtkMainLoop]
    dsimp only
    rw [if_neg (by omega), if_neg (by omega), if_neg (by omega), if_neg (by omega),
      if_neg (by omega)]
  | const v =>
    have hv : v < 0x8000000 := hi
    simp only [Item.listed, Item.slack, List.length_append] at hslack
    by_cases hlarge : 32768 ≤ v
    · have hwords : (Item.const v).words = [0x1000 + v / 0x8000, v % 0x8000 + 0x4000] := by
        rw [Item.words, constWords, if_pos hlarge, shift_eq hv]
        rfl
      rw [hwords] at hw hy ⊢
      simp only [List.length_cons, List.length_nil] at hy ⊢
      -- the shift word is kept until the low word comes
      have hword : m₁.bank.word y = 0x1000 + v / 0x8000 := (h.word (by omega)).trans hw.1
      have hbits : m₁.bank.word y &&& 0x0FFF = v / 0x8000 := by
        rw [hword]
        exact (Nat.and_two_pow_sub_one_eq_mod _ 12).trans (by omega)
      obtain ⟨m₂, h₂, hrun⟩ := dtkMainLoop_low hv hshift h hw.2.1 (by omega) (by omega) hp
      refine ⟨m₂, h₂, fun r hr => ?_⟩
      have hlow : Settles (fun fuel =>
          dtkMainLoop (fuel + 1) { m₁ with dConstantShift := v / 0x8000 } (y + 2)) r := by
        obtain ⟨n, hn⟩ := hr.exists_le
        exact .of_le (n := n + 33) fun k hk => (hrun k (by omega)).trans (hn k (by omega))
      have hnext := Settles.succ (f := fun fuel =>
        dtkMainLoop fuel { m₁ with dConstantShift := v / 0x8000 } (y + 2)) hlow
      refine hnext.unfold fun fuel => ?_
      rw [dtkMainLoop]
      dsimp only
      rw [if_neg (by omega), if_neg (by omega), if_pos (by omega), hbits, add16_eq (by omega)]
    · have hwords : (Item.const v).words = [v % 0x8000 + 0x4000] := by
        rw [Item.words, constWords, if_neg hlarge]
        rfl
      rw [hwords] at hw hy ⊢
      simp only [List.length_cons, List.length_nil] at hy ⊢
      obtain ⟨m₂, h₂, hrun⟩ := dtkMainLoop_low hv hshift h hw.1 (by omega) (by omega) hp
      -- without a shift word the shift is still zero
      have hm : { m₁ with dConstantShift := v / 0x8000 } = m₁ := by
        rw [show v / 0x8000 = m₁.dConstantShift by rw [h.keeps.shift, hshift]; omega]
      rw [hm] at hrun
      refine ⟨m₂, h₂, fun r hr => ?_⟩
      obtain ⟨n, hn⟩ := hr.exists_le
      have hstep : Settles (fun fuel => dtkMainLoop (fuel + 1) m₁ y) r :=
        .of_le (n := n + 33) fun k hk => (hrun k (by omega)).trans (hn k (by omega))
      exact hstep.succ
  | string chars =>
    obtain ⟨m₂, h₂, hrun⟩ := dtkMainLoop_string hi h hw hy hroom hp
    exact ⟨m₂, h₂, fun r hr => hr.unfold hrun⟩

theorem slack_le (i : Item) : i.slack ≤ 1 := by
  cases i <;> simp [Item.slack]

/-- **The tokens of a line** are expanded to the text of its items. By induction on the items. -/
theorem dtkMainLoop_items {is : List Item} (his : ∀ i ∈ is, i.Valid) (hshift : m.dConstantShift = 0)
    (h : m.Expanded p t s m₁) (hs : s ≠ []) (hw : m.bank.WordsAt y (wordsOf is ++ [0x0000]))
    (hy : y + 2 * (wordsOf is).length + 2 ≤ p)
    (hslack : (listItems s is).length + is.getLast?.elim 0 Item.slack ≤ t)
    (hp : p + t + 1 < 0x10000) :
    ∃ m', m.Expanded p t (listItems s is) m' ∧
      Settles (fun fuel => dtkMainLoop fuel m₁ y) (.ok m') := by
  induction is generalizing m₁ s y with
  | nil =>
    have hword : m₁.bank.word y = 0 := (h.word (by simpa using hy)).trans hw.1
    refine ⟨m₁, h, Settles.succ (.of_forall fun fuel => ?_)⟩
    rw [dtkMainLoop]
    dsimp only
    rw [if_pos hword]
  | cons i is ih =>
    rw [wordsOf_cons, List.append_assoc, Memory.wordsAt_append] at hw
    rw [wordsOf_cons, List.length_append] at hy
    have hvalid := fun j hj => his j (List.mem_cons_of_mem i hj)
    have hall : (listItems (s ++ i.listed (s.getLastD 0)) is).length +
      (i :: is).getLast?.elim 0 Item.slack ≤ t := hslack
    -- every item behind a constant has characters
    have hone : (s ++ i.listed (s.getLastD 0)).length + i.slack ≤ t := by
      cases is with
      | nil => exact hslack
      | cons j is =>
        have hlt := length_lt_listItems hvalid (by simp) (s ++ i.listed (s.getLastD 0))
        have hone := slack_le i
        omega
    obtain ⟨m₂, h₂, hrun⟩ :=
      dtkMainLoop_item (his i (by simp)) hshift h hs hw.1 (by omega) hone hp
    obtain ⟨m₃, h₃, hset⟩ := ih hvalid h₂ (by simp [hs]) hw.2 (by omega) (by
      refine le_trans (Nat.add_le_add_left ?_ _) hslack
      cases is with
      | nil => exact Nat.zero_le _
      | cons j is => rw [List.getLast?_cons_cons])
    exact ⟨m₃, h₃, hrun _ hset⟩

/-- One space behind the line number. -/
theorem dtkPadLineNo_step (h : m.Expanded p t s m₁) (hlt : s.length < 255) (ht : 255 ≤ t) (hp : p + t + 1 < 0x10000)
    (fuel : ℕ) : dtkPadLineNo (fuel + 1) m₁ =
      if s.length + 1 = m₁.dTemp1 then .ok (stringWriteCharacter m₁ 32)
      else dtkPadLineNo fuel (stringWriteCharacter m₁ 32) := by
  have hone := expanded_stringWriteCharacter h (by omega) hp (by decide : 32 < 256)
  have hstart : (stringWriteCharacter m₁ 32).dStartTempString = p := hone.written.start
  have hbyte : (stringWriteCharacter m₁ 32).bank.byte p = (s ++ [32]).length % 256 :=
    hone.written.length
  rw [List.length_append, List.length_singleton, Nat.mod_eq_of_lt (by omega)] at hbyte
  have htarget : (stringWriteCharacter m₁ 32).dTemp1 = m₁.dTemp1 := rfl
  rw [dtkPadLineNo, hstart, hbyte, htarget]

/-- The spaces behind the line number. By induction on their number. -/
theorem dtkPadLineNo_spaces {k : ℕ} (h : m.Expanded p t s m₁) (hd : m₁.dTemp1 = s.length + (k + 1))
    (hlt : s.length + (k + 1) ≤ 255) (ht : 255 ≤ t) (hp : p + t + 1 < 0x10000) :
    ∃ m', m.Expanded p t (s ++ List.replicate (k + 1) 32) m' ∧
      Settles (fun fuel => dtkPadLineNo fuel m₁) (.ok m') := by
  have hone := expanded_stringWriteCharacter h (by omega) hp (by decide : 32 < 256)
  have hstep := dtkPadLineNo_step h (by omega) ht hp
  induction k generalizing m₁ s with
  | zero =>
    refine ⟨_, hone, Settles.succ (.of_forall fun fuel => ?_)⟩
    rw [hstep, if_pos (by omega)]
  | succ k ih =>
    have hlen : (s ++ [32]).length = s.length + 1 := by simp
    have hd' : (stringWriteCharacter m₁ 32).dTemp1 = (s ++ [32]).length + (k + 1) := by
      rw [hlen]
      exact hd.trans (by omega)
    obtain ⟨m', h', hset⟩ := ih hone hd' (by omega)
      (expanded_stringWriteCharacter hone (by omega) hp (by decide))
      (dtkPadLineNo_step hone (by omega) ht hp)
    refine ⟨m', ?_, hset.unfold fun fuel => ?_⟩
    · rw [List.append_assoc, List.singleton_append, ← List.replicate_succ] at h'
      exact h'
    · rw [hstep, if_neg (by omega)]

/-- A line whose tokens begin behind column 255 is never expanded: the length is a byte. -/
theorem dtkPadLineNo_diverges (hd : 256 ≤ m.dTemp1) (fuel : ℕ) :
    dtkPadLineNo fuel m = .error .outOfFuel := by
  induction fuel generalizing m with
  | zero => rfl
  | succ fuel ih =>
    have hlt :=
      (stringWriteCharacter m 32).bank.byte_lt (stringWriteCharacter m 32).dStartTempString
    have hd' : 256 ≤ (stringWriteCharacter m 32).dTemp1 := hd
    rw [dtkPadLineNo, if_neg (by omega), ih hd']

theorem length_decimal_le {n k : ℕ} (hn : n < 10 ^ (k + 1)) : (decimal n).length ≤ k + 1 := by
  induction k generalizing n with
  | zero =>
    rw [decimal_of_lt hn, List.length_singleton]
  | succ k ih =>
    rcases Nat.lt_or_ge n 10 with h | h
    · rw [decimal_of_lt h, List.length_singleton]
      omega
    · have hd := ih (n := n / 10) (by rw [Nat.pow_succ] at hn; omega)
      rw [decimal_of_le h, List.length_append, List.length_singleton]
      omega

/-- **A narrow line** is expanded to its text. -/
theorem detokenise_line {n : ℕ} {is : List Item} (his : ∀ i ∈ is, i.Valid) (hn : n ≤ 32767)
    (hw : m.bank.WordsAt (y + 2) (n :: wordsOf is ++ [0x0000]))
    (hy : y + 4 + 2 * (wordsOf is).length + 2 ≤ p) (ht : 255 ≤ t) (hp : p + t + 1 < 0x10000)
    (hwidth : (lineText n (min m.dIndent m.dIndent2) is).length ≤ 255)
    (hslack : (lineText n (min m.dIndent m.dIndent2) is).length + is.getLast?.elim 0 Item.slack ≤ t) :
    ∃ m', Machine.Expanded { m with dConstantShift := 0 } p t
        (lineText n (min m.dIndent m.dIndent2) is) m' ∧
      Settles (fun fuel => detokenise fuel m y p) (.ok m') := by
  obtain ⟨indent, hindent⟩ : ∃ d, d = min m.dIndent m.dIndent2 := ⟨_, rfl⟩
  rw [← hindent] at hwidth hslack ⊢
  have hdecimal : (decimal n).length ≤ 5 := length_decimal_le (by omega)
  have hstart : (lineStart n indent).length = 6 + 2 * indent := by
    rw [lineStart, List.length_append, List.length_replicate]
    omega
  have hwide : 6 + 2 * indent ≤ 255 := by
    have hle := length_le_listItems (lineStart n indent) is
    unfold lineText at hwidth
    omega
  -- the empty string in the buffer, then the number of the line
  have h₀ : Machine.Expanded { m with dConstantShift := 0 } p t []
      { m with
        dStartTempString := p, dCurrentTempString := add16 p 1, dConstantShift := 0
        bank := m.bank.setWord p 0x0000 } := by
    refine ⟨⟨⟨rfl, rfl, rfl, rfl, rfl, ?_, ?_⟩, trivial⟩, rfl, rfl, rfl, rfl, rfl, rfl, rfl⟩
    · exact Memory.byte_setWord_low _ _ _
    · exact (Memory.EqOff.refl _ _ _).setWord (by omega) (by omega)
  have hnumber : (m.bank.setWord p 0x0000).word (y + 2) = n := by
    rw [Memory.word_setWord_of_disjoint (by omega)]
    exact hw.1
  obtain ⟨m₁, hrun, h₁⟩ := expanded_convert (v := (n, 0)) (n := n) h₀
    ⟨by dsimp only; omega, by dsimp only; omega⟩ (by simp [Long.toNat]) (by omega)
    (by rw [List.length_nil]; omega) hp
  rw [List.nil_append] at h₁
  -- the spaces
  obtain ⟨k, hk⟩ : ∃ k, 6 + 2 * indent = (decimal n).length + (k + 1) :=
    ⟨6 + 2 * indent - (decimal n).length - 1, by omega⟩
  have h₂ : Machine.Expanded { m with dConstantShift := 0 } p t (decimal n)
      { m₁ with dTemp1 := 6 + 2 * indent } :=
    h₁.scratch ⟨rfl, rfl, rfl, rfl, rfl, rfl⟩ ⟨rfl, rfl, rfl, rfl, rfl, rfl, rfl⟩
  obtain ⟨m₃, h₃, hpad⟩ := dtkPadLineNo_spaces h₂ hk (by omega) ht hp
  have hline : decimal n ++ List.replicate (k + 1) 32 = lineStart n indent := by
    rw [lineStart, show 6 + 2 * indent - (decimal n).length = k + 1 by omega]
  rw [hline] at h₃
  -- the tokens
  obtain ⟨m₄, h₄, hmain⟩ := dtkMainLoop_items his rfl h₃ (List.ne_nil_of_length_pos (by omega))
    hw.2 (by omega) hslack hp
  refine ⟨m₄, h₄, ?_⟩
  have hset : Settles (fun fuel => dtkPadLineNo fuel { m₁ with dTemp1 := 6 + 2 * indent } >>=
      fun m => dtkMainLoop fuel m (y + 4)) (.ok m₄) := hpad.bind hmain
  obtain ⟨r, hr⟩ := hset.exists_le
  refine .of_le (n := r + 33) fun fuel hfuel => ?_
  have hd : m₁.dIndent = m.dIndent := h₁.keeps.indent
  have hd₂ : m₁.dIndent2 = m.dIndent2 := h₁.keeps.indent₂
  have hmin : (if m₁.dIndent < m₁.dIndent2 then m₁.dIndent else m₁.dIndent2) = indent := by
    rw [hd, hd₂, hindent]
    split_ifs <;> omega
  have hcarry : indent / 0x8000 = 0 := Nat.div_eq_of_lt (by omega)
  have htwice : 2 * indent % 0x10000 = 2 * indent := Nat.mod_eq_of_lt (by omega)
  unfold detokenise
  dsimp only
  rw [hnumber, hrun fuel (by omega), ok_bind, add16_eq (by omega), ← hr fuel (by omega), hmin,
    hcarry, htwice, show (2 * indent + 6 + 0) % 0x10000 = 6 + 2 * indent by omega]

end

end Basic65816
