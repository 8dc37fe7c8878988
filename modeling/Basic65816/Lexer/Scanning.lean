import Basic65816.Lexer.Item
import Basic65816.Machine.Tokeniser

/-!
# Reading text and writing tokens

The two cursors of the assembler tokeniser: `DTemp1` stands at the text that is left to scan, and
`DTemp2` behind the words written to the token buffer. Each is a predicate on the state that depends
on its own cells only.

## Main definitions

* `Reads`: the text that is left, closed by a zero byte
* `Written`: the words in the token buffer so far
* `Emits`: a routine that writes words, or fails when the buffer is full

## Main results

* `emits_tokWriteToken`: one word
* `tokKeywordSearch_eq`: the table search is `keyword` on the text read
* `settles_tokCap`: the text is capitalised in place
-/

namespace Basic65816

/-! ## The text that is left -/

/-- The text `s` is left to scan: a zero byte closes it and it does not cross its bank. -/
structure Reads (m : Machine) (s : List ℕ) : Prop where
  text : m.far.BytesAt (m.textAddress 0) (s ++ [0])
  bound : m.dTemp1 + s.length < 0x10000

/-- Step over the first `k` characters. -/
def Machine.skip (m : Machine) (k : ℕ) : Machine := { m with dTemp1 := m.dTemp1 + k }

section

variable {m : Machine} {s p : List ℕ} {c : ℕ}

@[simp] theorem skip_skip (i j : ℕ) : (m.skip i).skip j = m.skip (i + j) := by
  simp [Machine.skip, Nat.add_assoc]

theorem textAddress_add (y k : ℕ) : m.textAddress (y + k) = m.textAddress y + k := by
  simp [Machine.textAddress, Nat.add_assoc]

theorem Reads.text_get (h : Reads m s) {y : ℕ} (hy : y < (s ++ [0]).length) :
    m.text y = (s ++ [0])[y] := by
  rw [← h.text.get hy, ← textAddress_add, Nat.zero_add, Machine.text]

theorem Reads.text_cons (h : Reads m (c :: s)) : m.text 0 = c := h.text_get (by simp)

theorem Reads.text_nil (h : Reads m []) : m.text 0 = 0 := h.text_get (by simp)

theorem Reads.skip (h : Reads m (p ++ s)) : Reads (m.skip p.length) s where
  text := by
    have ht := h.text
    rw [List.append_assoc, Memory.bytesAt_append] at ht
    have ha : (m.skip p.length).textAddress 0 = m.textAddress 0 + p.length := by
      simp only [Machine.textAddress, Machine.skip]
      omega
    rw [ha]
    exact ht.2
  bound := by
    have := h.bound
    simp only [List.length_append] at this
    simp only [Machine.skip]
    omega

theorem Reads.incTemp1_eq (h : Reads m (c :: s)) : m.incTemp1 = m.skip 1 := by
  have := h.bound
  simp only [List.length_cons] at this
  rw [Machine.incTemp1, Machine.skip, add16_eq (by omega)]

theorem Reads.incTemp1 (h : Reads m (c :: s)) : Reads m.incTemp1 s := by
  rw [h.incTemp1_eq]
  exact Reads.skip (p := [c]) h

theorem Reads.bytes (h : Reads m (p ++ s)) :
    m.far.bytes (m.textAddress 0) p.length = p := by
  have ht := h.text
  rw [List.append_assoc, Memory.bytesAt_append] at ht
  exact ht.1.eq_bytes

/-- The first character decides about a loop that stops at a zero byte. -/
theorem Reads.text_eq_head (h : Reads m s) : m.text 0 = s.headD 0 := by
  cases s with
  | nil => exact h.text_nil
  | cons c s => exact h.text_cons

end

/-! ## The token buffer -/

/-- The words `ws` are in the token buffer at `buf`, a page boundary, and `DTemp2` is behind them.
`tokWriteToken` never leaves the buffer full. -/
structure Written (m : Machine) (buf : ℕ) (ws : List ℕ) : Prop where
  aligned : buf % 0x100 = 0
  inBank : buf + 0x100 ≤ 0x10000
  words : m.bank.WordsAt buf ws
  pointer : m.dTemp2 = buf + 2 * ws.length
  room : ws.length < 128

/-- The routine ends in an error. -/
def Fails {α : Type} (f : ℕ → Result α) : Prop := ∃ e m, Settles f (fail m e)

/-- The routine writes, so that `ws` is in the buffer and `rest` is left to scan; when these are too
many words it ends in an error. -/
def Emits (f : ℕ → Result Machine) (buf : ℕ) (rest ws : List ℕ) : Prop :=
  if ws.length < 128 then ∃ m, Settles f (.ok m) ∧ Reads m rest ∧ Written m buf ws else Fails f

section

variable {m : Machine} {buf a : ℕ} {s ws us : List ℕ} {f g : ℕ → Result Machine}

theorem Fails.unfold (h : Fails g) (hf : ∀ k, f (k + 1) = g k) : Fails f := by
  obtain ⟨e, m, h⟩ := h
  exact ⟨e, m, h.unfold hf⟩

theorem Fails.bind {α β : Type} {f : ℕ → Result α} {g : ℕ → α → Result β} (h : Fails f) :
    Fails fun k => f k >>= g k := by
  obtain ⟨e, m, h⟩ := h
  exact ⟨e, m, h.bind_error⟩

theorem Fails.of_bind {α β : Type} {f : ℕ → Result α} {g : ℕ → α → Result β} {x : α}
    (h : Settles f (.ok x)) (h' : Fails fun k => g k x) : Fails fun k => f k >>= g k := by
  obtain ⟨e, m, h'⟩ := h'
  exact ⟨e, m, h.bind h'⟩

theorem fails_fail {α : Type} (m : Machine) (e : Error) :
    Fails fun _ => (fail m e : Result α) :=
  ⟨e, m, Settles.of_forall fun _ => rfl⟩

/-- Only the bank and `DTemp2` are written by `tokWriteToken`. -/
def Machine.put (m : Machine) (a : ℕ) : Machine :=
  { m with bank := m.bank.setWord m.dTemp2 a, dTemp2 := m.dTemp2 + 2 }

theorem tokWriteToken_ok (h : m.dTemp2 % 0x100 < 0xfe) (hb : m.dTemp2 < 0x10000) :
    tokWriteToken m a = .ok (m.put a) := by
  have he : add16 m.dTemp2 2 = m.dTemp2 + 2 := add16_eq (by omega)
  simp only [tokWriteToken, he]
  rw [if_neg (by omega)]
  rfl

theorem tokWriteToken_full (h : m.dTemp2 % 0x100 = 0xfe) :
    ∃ m', tokWriteToken m a = fail m' .lineTooLong := by
  have he : add16 m.dTemp2 2 % 0x100 = 0 := by unfold add16; omega
  simp only [tokWriteToken, he]
  exact ⟨_, rfl⟩

theorem Written.put (h : Written m buf ws) (hl : ws.length + 1 < 128) (ha : a < 0x10000) :
    Written (m.put a) buf (ws ++ [a]) where
  aligned := h.aligned
  inBank := h.inBank
  words := by
    have hp := h.pointer
    rw [Memory.wordsAt_append]
    refine ⟨h.words.congr fun b h₀ h₁ => ?_, ?_, trivial⟩
    · exact Memory.setWord_of_ne (by omega) (by omega)
    · rw [← hp, Machine.put, Memory.word_setWord ha]
  pointer := by
    simp only [Machine.put, h.pointer, List.length_append, List.length_singleton]
    omega
  room := by simpa using hl

theorem Written.tokWriteToken (h : Written m buf ws) (hl : ws.length + 1 < 128) :
    tokWriteToken m a = .ok (m.put a) := by
  have := h.aligned
  have := h.inBank
  have := h.pointer
  exact tokWriteToken_ok (by omega) (by omega)

theorem Written.tokWriteToken_full (h : Written m buf ws) (hl : 128 ≤ ws.length + 1) :
    ∃ m', Basic65816.tokWriteToken m a = fail m' .lineTooLong := by
  have := h.aligned
  have := h.pointer
  have := h.room
  exact Basic65816.tokWriteToken_full (by omega)

/-- **One word** is written, or the line is too long. -/
theorem emits_tokWriteToken (hr : Reads m s) (hw : Written m buf ws) (ha : a < 0x10000) :
    Emits (fun _ => tokWriteToken m a) buf s (ws ++ [a]) := by
  unfold Emits
  rw [List.length_append, List.length_singleton]
  split_ifs with hl
  · rw [hw.tokWriteToken hl]
    exact ⟨m.put a, Settles.of_forall fun _ => rfl, ⟨hr.text, hr.bound⟩, hw.put hl ha⟩
  · obtain ⟨m', h⟩ := hw.tokWriteToken_full (a := a) (by omega)
    rw [h]
    exact fails_fail m' _

theorem Emits.congr {g : ℕ → Result Machine} (h : Emits f buf s ws) (hg : ∀ k, g k = f k) :
    Emits g buf s ws := by
  rwa [show g = f from funext hg]

/-- A computation that settles, then a routine that writes. -/
theorem Emits.of_bind {α : Type} {f : ℕ → Result α} {g : ℕ → α → Result Machine} {x : α}
    (h : Settles f (.ok x)) (hg : Emits (fun k => g k x) buf s ws) :
    Emits (fun k => f k >>= g k) buf s ws := by
  unfold Emits at hg ⊢
  split_ifs at hg ⊢
  · obtain ⟨m, hm, hg⟩ := hg
    exact ⟨m, h.bind hm, hg⟩
  · exact Fails.of_bind h hg

/-- A routine that writes, and then another. -/
theorem Emits.bind {g : ℕ → Machine → Result Machine} {s' : List ℕ}
    (h : Emits f buf s ws) (hg : ∀ m, Reads m s → Written m buf ws →
      Emits (fun k => g k m) buf s' (ws ++ us)) :
    Emits (fun k => f k >>= g k) buf s' (ws ++ us) := by
  by_cases hl : ws.length < 128
  · rw [Emits, if_pos hl] at h
    obtain ⟨m, hf, hr, hw⟩ := h
    have h' := hg m hr hw
    unfold Emits at h' ⊢
    split_ifs at h' ⊢ with hl'
    · obtain ⟨m', hm', h'⟩ := h'
      exact ⟨m', hf.bind hm', h'⟩
    · exact Fails.of_bind hf h'
  · rw [Emits, if_neg hl] at h
    rw [Emits, if_neg (by simp only [List.length_append]; omega)]
    exact h.bind

end

/-! ## The table search -/

section

variable {m : Machine}

theorem tokCompare_eq (m : Machine) (cs : List ℕ) :
    ∀ y, tokCompare m y cs = (m.far.bytes (m.textAddress y) cs.length == cs) := by
  induction cs with
  | nil => intro y; rfl
  | cons c cs ih =>
    intro y
    rw [tokCompare, ih, List.length_cons, Memory.bytes_succ, textAddress_add]
    rfl

/-- The tokens of a table numbered from `k`: the token word holds the type and the number, and the
table byte holds the type and the length. -/
def Numbered : ℕ → List Token → Prop
  | _, [] => True
  | k, t :: ts =>
    (t.id = (t.type * 0x200 ||| k ||| 0x2000) ∧ t.name.length + 1 < 16 ∧ t.type < 16 ∧ k < 0x200) ∧
      Numbered (k + 1) ts

instance : ∀ k ts, Decidable (Numbered k ts)
  | _, [] => inferInstanceAs (Decidable True)
  | k, _ :: ts =>
    have := instDecidableNumbered (k + 1) ts
    inferInstanceAs (Decidable (_ ∧ Numbered (k + 1) ts))

theorem numbered_tokenList : Numbered 1 tokenList := by decide

/-- The state after a table search differs from the one before in its scratch cells only. -/
theorem tokScan_eq {ts : List Token} {bs : List ℕ} :
    ∀ {k : ℕ} {m : Machine}, Numbered k ts → m.dTemp4H = k →
      m.far.bytes (m.textAddress 0) m.dTemp4 = bs →
      let found := ts.find? fun t => t.name.map upperChar == bs
      ∃ sign count, tokScan (ts.map fun t =>
          { byte := (t.name.length + 1) + t.type * 16, text := t.name.map upperChar }) m =
        (found.map Token.id, { m with
          dSignCount := sign, dTemp4H := count
          dTemp1 := if found.isSome then add16 m.dTemp1 m.dTemp4 else m.dTemp1 }) := by
  induction ts with
  | nil => intro k m _ _ _; exact ⟨m.dSignCount, m.dTemp4H, rfl⟩
  | cons t ts ih =>
    intro k m ⟨⟨hid, hlen, htype, hk⟩, hts⟩ hm hbs
    have hn : bs.length = m.dTemp4 := by rw [← hbs, Memory.length_bytes]
    have hb : ((t.name.length + 1) + t.type * 16) % 16 - 1 = t.name.length := by omega
    have hd : ((t.name.length + 1) + t.type * 16) / 16 % 16 = t.type := by omega
    have hc : (((t.name.length + 1) + t.type * 16) % 16 - 1 = m.dTemp4 ∧
        tokCompare m 0 (t.name.map upperChar)) ↔ (t.name.map upperChar == bs) = true := by
      rw [hb, tokCompare_eq, List.length_map, beq_iff_eq, beq_iff_eq]
      constructor
      · rintro ⟨h, h'⟩
        rw [← h', h, hbs]
      · intro h
        have hl : t.name.length = m.dTemp4 := by rw [← hn, ← h, List.length_map]
        exact ⟨hl, by rw [hl, hbs, h]⟩
    simp only [List.map_cons, tokScan, List.find?_cons]
    by_cases h : (t.name.map upperChar == bs) = true
    · rw [if_pos (hc.mpr h)]
      refine ⟨m.dSignCount, m.dTemp4H, ?_⟩
      simp only [h, hd, hid, hm, Option.map_some, Option.isSome_some, if_true]
    · rw [if_neg (fun h' => h (hc.mp h'))]
      simp only [h]
      exact ih hts (by simp only [hm]; exact add16_eq (by omega)) hbs

/-- **The table search is `keyword`** on the bytes it compares. -/
theorem tokKeywordSearch_eq (m : Machine) (x : ℕ) :
    let found := keyword (m.far.bytes (m.textAddress 0) x)
    ∃ sign count, tokKeywordSearch m x = (found, { m with
      dSignCount := sign, dTemp4 := x, dTemp4H := count
      dTemp1 := if found.isSome then add16 m.dTemp1 x else m.dTemp1 }) := by
  obtain ⟨sign, count, h⟩ :=
    tokScan_eq (m := { m with dTemp4 := x, dTemp4H := 1 }) numbered_tokenList rfl rfl
  refine ⟨sign, count, ?_⟩
  simp only [tokKeywordSearch, tokenText, keyword, Option.isSome_map]
  exact h

end

end Basic65816
