import Basic65816.Lexer.TokenLine
import Basic65816.Lib.Nesting
import Basic65816.Machine.Structure
import Basic65816.Program.Stored
import Basic65816.Storage.StringAssign

/-!
# The forward scanner

`ScanForwardLevel` skips to a token on the level it starts from. In a stored program the words behind
the end of a line are the offset and the number of the next line. In the token buffer they are what
an earlier command line has left there.

## Main definitions

* `Located`, `TokensAt`, `LinesAt`: the tokens of the running code, with their addresses and lines
* `sflStep`, `SflReads`: one round of the scanner, and the states in which it reads a token
* `Machine.Running`: the code pointer stands between two tokens of the running code
* `ScansForward`: the scanner finds the matching token and nothing else

## Main results

* `sflLoop_search`: in its code the scanner is a search along the nested tokens
* `scanForwardLevel_finds`: when the scanner keeps to its code
-/

namespace Basic65816

open Nesting

/-- What a token does to the level. -/
def keywordLevel (t : ℕ) : ℤ :=
  if t &&& 0xE000 = 0x2000 then
    if t &&& 15 <<< 9 = 14 <<< 9 then 1 else if t &&& 15 <<< 9 = 13 <<< 9 then -1 else 0
  else 0

/-- A token, its address and the number of its line. -/
structure Located where
  word : ℕ
  address : ℕ
  line : ℕ
  deriving DecidableEq

/-- The words `ts` from the address `p` on are these tokens; the body of a string belongs to its
header. -/
inductive TokensAt (line : ℕ) : ℕ → List ℕ → List Located → Prop
  | nil {p : ℕ} : TokensAt line p [] []
  | token {p t : ℕ} {ts : List ℕ} {ks : List Located} (ht : 0x100 ≤ t)
      (h : TokensAt line (p + 2) ts ks) : TokensAt line p (t :: ts) (⟨t, p, line⟩ :: ks)
  | string {p header : ℕ} {body ts : List ℕ} {ks : List Located}
      (hbody : header = 2 * (body.length + 1)) (hlt : header < 0x100)
      (h : TokensAt line (p + header) ts ks) :
      TokensAt line p (header :: (body ++ ts)) (⟨header, p, line⟩ :: ks)

/-- Behind the body of a string the line goes on. -/
theorem wordsAt_string {mem : Memory} {p header : ℕ} {body ts : List ℕ}
    (hbody : header = 2 * (body.length + 1)) (hw : mem.WordsAt p (header :: (body ++ ts))) :
    mem.word p = header ∧ mem.WordsAt (p + header) ts := by
  obtain ⟨hword, hw⟩ := Memory.wordsAt_cons.mp hw
  have htail := (Memory.wordsAt_append.mp hw).2
  rw [show p + 2 + 2 * body.length = p + header by omega] at htail
  exact ⟨hword, htail⟩

theorem end_string {p header : ℕ} {body ts : List ℕ} (hbody : header = 2 * (body.length + 1)) :
    p + 2 * (header :: (body ++ ts)).length = p + header + 2 * ts.length := by
  rw [List.length_cons, List.length_append]
  omega

/-- The lines `ls`, stored from the address `p` on, hold these tokens. -/
inductive LinesAt : ℕ → List Line → List Located → Prop
  | nil {p : ℕ} : LinesAt p [] []
  | cons {p : ℕ} {l : Line} {ls : List Line} {ks js : List Located}
      (h : TokensAt l.number (p + 4) l.tokens ks)
      (hs : LinesAt (p + (2 * l.tokens.length + 6)) ls js) : LinesAt p (l :: ls) (ks ++ js)

/-- One round of `_SFLLoop`: the end, or the next state and level. -/
def sflStep (a b line : ℕ) (m : Machine) (x : ℕ) : Result (ℕ × Machine) ⊕ Machine × ℕ :=
  let t := m.token
  if x = 0 ∧ t ≠ 0 ∧ (t = a ∨ t = b) then .inl (.ok (t, m))
  else if t = 0 then
    if m.bank.word (m.dCodePtr + 2) = 0 then
      .inl (fail { m with dLineNumber := line } .structureImbalance)
    else .inr ({ m with
      dLineNumber := m.bank.word (m.dCodePtr + 4), dCodePtr := add16 m.dCodePtr 6 }, x)
  else if t < 0x0100 then .inr ({ m with dCodePtr := add16 (t % 256) m.dCodePtr }, x)
  else
    let m := m.skipToken
    if t &&& 0xE000 ≠ 0x2000 then .inr (m, x)
    else
      let type := t &&& 15 <<< 9
      if type = 15 <<< 9 ∨ type < 13 <<< 9 then .inr (m, x)
      else if type = 14 <<< 9 then .inr (m, add16 x 1)
      else if x = 0 then .inl (fail { m with dLineNumber := line } .structureImbalance)
      else .inr (m, x - 1)

/-- The states in which the scanner reads a token, from the state `m` and the level `x` on. -/
inductive SflReads (a b line : ℕ) : Machine → ℕ → Machine → Prop
  | here {m : Machine} {x : ℕ} : SflReads a b line m x m
  | next {m m₁ m₂ : Machine} {x x₁ : ℕ} (h : sflStep a b line m x = .inr (m₁, x₁))
      (hs : SflReads a b line m₁ x₁ m₂) : SflReads a b line m x m₂

/-! ## One round -/

section

variable {m m' : Machine} {a b line x p t fuel : ℕ} {ts : List ℕ}

theorem Machine.token_eq (m : Machine) (hp : m.dCodePtr = p) (h : m.bank.word p = t) :
    m.token = t := by
  subst hp
  exact h

theorem sflLoop_succ : sflLoop a b line (fuel + 1) m x =
    match sflStep a b line m x with
    | .inl r => r
    | .inr (m', x') => sflLoop a b line fuel m' x' := by
  rw [sflLoop]
  unfold sflStep
  dsimp only
  split_ifs <;> rfl

theorem sflReads_iff : SflReads a b line m x m' ↔
    m' = m ∨ ∃ m₁ x₁, sflStep a b line m x = .inr (m₁, x₁) ∧ SflReads a b line m₁ x₁ m' := by
  constructor
  · intro h
    cases h with
    | here => exact .inl rfl
    | next h hs => exact .inr ⟨_, _, h, hs⟩
  · rintro (rfl | ⟨m₁, x₁, h, hs⟩)
    · exact .here
    · exact .next h hs

theorem and_type (t : ℕ) : t &&& 15 <<< 9 = t / 2 ^ 9 % 2 ^ 4 * 2 ^ 9 := by
  rw [← Nat.and_two_pow_sub_one_eq_mod, ← Nat.shiftRight_eq_div_pow, ← Nat.shiftLeft_eq]
  refine Nat.eq_of_testBit_eq fun i => ?_
  simp only [Nat.testBit_and, Nat.testBit_shiftLeft, Nat.testBit_shiftRight]
  rcases Nat.lt_or_ge i 9 with hi | hi
  · simp [Nat.not_le.mpr hi]
  · simp [hi]

/-- The number of bytes of a token. -/
def tokenSize (t : ℕ) : ℕ := if t < 0x100 then t else 2

theorem and_small (h : t < 0x100) : t &&& 0xE000 = 0 := by
  have hlow : t % 2 ^ 8 = t := Nat.mod_eq_of_lt h
  rw [← hlow, ← Nat.and_two_pow_sub_one_eq_mod, Nat.and_assoc]
  exact Nat.and_zero t

/-- In front of a token the scanner tests it, or skips it and changes the level. -/
theorem sflStep_token (a b line : ℕ) (ht : m.token = t) (hpos : 0 < t) (hx : x + 1 < 0x10000)
    (hp : m.dCodePtr + tokenSize t < 0x10000) :
    sflStep a b line m x =
      if (x : ℤ) = 0 ∧ (t = a ∨ t = b) then .inl (.ok (t, m))
      else if (x : ℤ) + keywordLevel t < 0 then
        .inl (fail { m with dCodePtr := m.dCodePtr + tokenSize t, dLineNumber := line }
          .structureImbalance)
      else .inr ({ m with dCodePtr := m.dCodePtr + tokenSize t },
        ((x : ℤ) + keywordLevel t).toNat) := by
  have hskip : ¬t < 0x100 → m.skipToken = { m with dCodePtr := m.dCodePtr + tokenSize t } := by
    intro h
    unfold Machine.skipToken tokenSize
    unfold tokenSize at hp
    rw [if_neg h] at hp ⊢
    rw [add16_eq hp]
  have htype := and_type t
  unfold sflStep
  dsimp only
  rw [ht]
  have hcond : (x = 0 ∧ t ≠ 0 ∧ (t = a ∨ t = b)) ↔ ((x : ℤ) = 0 ∧ (t = a ∨ t = b)) := by omega
  rw [if_congr hcond rfl rfl]
  by_cases hfound : (x : ℤ) = 0 ∧ (t = a ∨ t = b)
  · rw [if_pos hfound, if_pos hfound]
  rw [if_neg hfound, if_neg hfound, if_neg (by omega)]
  rcases Nat.lt_or_ge t 0x100 with hstring | hword
  · have hlevel : keywordLevel t = 0 := by
      unfold keywordLevel
      rw [and_small hstring, if_neg (by decide)]
    have hsize : tokenSize t = t := if_pos hstring
    rw [hsize] at hp
    rw [if_pos hstring, hlevel, if_neg (by omega), Nat.mod_eq_of_lt hstring,
      add16_eq (by omega), Nat.add_comm, hsize]
    simp
  rw [if_neg (by omega), hskip (by omega)]
  by_cases hkeyword : t &&& 0xE000 = 0x2000
  · obtain ⟨k, hk⟩ : ∃ k, k = t / 2 ^ 9 % 2 ^ 4 := ⟨_, rfl⟩
    have hlt : k < 2 ^ 4 := hk ▸ Nat.mod_lt _ (by decide)
    have hlevel : keywordLevel t =
        if k * 2 ^ 9 = 14 <<< 9 then 1 else if k * 2 ^ 9 = 13 <<< 9 then -1 else 0 := by
      rw [hk, ← htype]
      exact if_pos hkeyword
    rw [if_neg (not_not.mpr hkeyword), hlevel, htype, ← hk]
    rcases Nat.lt_trichotomy k 14 with h | rfl | h
    · rcases Nat.lt_or_ge k 13 with h' | h'
      · rw [if_pos (.inr (by omega)), if_neg (by omega), if_neg (by omega), if_neg (by omega)]
        simp
      · obtain rfl : k = 13 := by omega
        rw [if_neg (by decide), if_neg (by decide), if_neg (c := 13 * 2 ^ 9 = 14 <<< 9) (by decide),
          if_pos (c := 13 * 2 ^ 9 = 13 <<< 9) rfl]
        rcases Nat.eq_zero_or_pos x with rfl | hx
        · rfl
        · rw [if_neg (by omega), if_neg (by omega)]
          congr 2
          omega
    · rw [if_neg (by decide), if_pos (c := 14 * 2 ^ 9 = 14 <<< 9) rfl,
        if_pos (c := 14 * 2 ^ 9 = 14 <<< 9) rfl, if_neg (by omega), add16_eq hx]
      rfl
    · obtain rfl : k = 15 := by omega
      rw [if_pos (.inl rfl), if_neg (c := 15 * 2 ^ 9 = 14 <<< 9) (by decide),
        if_neg (c := 15 * 2 ^ 9 = 13 <<< 9) (by decide), if_neg (by omega)]
      simp
  · have hlevel : keywordLevel t = 0 := if_neg hkeyword
    rw [if_pos hkeyword, hlevel, if_neg (by omega)]
    simp

/-- At the end of a line the scanner looks at the word behind it. -/
theorem sflStep_end (a b line x : ℕ) (ht : m.token = 0) : sflStep a b line m x =
    if m.bank.word (m.dCodePtr + 2) = 0 then
      .inl (fail { m with dLineNumber := line } .structureImbalance)
    else .inr ({ m with
      dLineNumber := m.bank.word (m.dCodePtr + 4), dCodePtr := add16 m.dCodePtr 6 }, x) := by
  unfold sflStep
  dsimp only
  rw [ht, if_neg (by omega), if_pos rfl]

theorem keywordLevel_le (t : ℕ) : -1 ≤ keywordLevel t ∧ keywordLevel t ≤ 1 := by
  unfold keywordLevel
  split_ifs <;> omega

/-! ## Runs of the scanner -/

/-- From the state `m` the scanner comes to the state `m₁`; it reads tokens between `lo` and `hi` on
its way. -/
structure SflPasses (a b line lo hi : ℕ) (m : Machine) (x : ℕ) (m₁ : Machine) (x₁ : ℕ) : Prop where
  settles : ∀ r, Settles (fun fuel => sflLoop a b line fuel m₁ x₁) r →
    Settles (fun fuel => sflLoop a b line fuel m x) r
  reads : ∀ m', SflReads a b line m₁ x₁ m' → SflReads a b line m x m'
  within : ∀ m', SflReads a b line m x m' →
    lo ≤ m'.dCodePtr ∧ m'.dCodePtr ≤ hi ∨ SflReads a b line m₁ x₁ m'

/-- From the state `m` the scanner ends with `r`; it reads tokens between `lo` and `hi` only. -/
structure SflEnds (a b line lo hi : ℕ) (m : Machine) (x : ℕ) (r : Result (ℕ × Machine)) : Prop where
  settles : Settles (fun fuel => sflLoop a b line fuel m x) r
  within : ∀ m', SflReads a b line m x m' → lo ≤ m'.dCodePtr ∧ m'.dCodePtr ≤ hi

variable {lo hi x₁ x₂ : ℕ} {m₁ m₂ : Machine} {r : Result (ℕ × Machine)}

theorem SflPasses.refl : SflPasses a b line lo hi m x m x :=
  ⟨fun _ h => h, fun _ h => h, fun _ h => .inr h⟩

theorem SflPasses.step (h : sflStep a b line m x = .inr (m₁, x₁)) (hlo : lo ≤ m.dCodePtr)
    (hhi : m.dCodePtr ≤ hi) : SflPasses a b line lo hi m x m₁ x₁ where
  settles r hr := hr.unfold fun k => by rw [sflLoop_succ, h]
  reads m' hm' := .next h hm'
  within m' hm' := by
    rcases sflReads_iff.mp hm' with rfl | ⟨m₂, x₂, h₂, hs⟩
    · exact .inl ⟨hlo, hhi⟩
    · rw [h] at h₂
      cases h₂
      exact .inr hs

theorem SflPasses.trans (h : SflPasses a b line lo hi m x m₁ x₁)
    (h' : SflPasses a b line lo hi m₁ x₁ m₂ x₂) : SflPasses a b line lo hi m x m₂ x₂ where
  settles r hr := h.settles r (h'.settles r hr)
  reads m' hm' := h.reads m' (h'.reads m' hm')
  within m' hm' := (h.within m' hm').elim .inl (h'.within m')

theorem SflEnds.step (h : sflStep a b line m x = .inl r) (hlo : lo ≤ m.dCodePtr)
    (hhi : m.dCodePtr ≤ hi) : SflEnds a b line lo hi m x r where
  settles := Settles.succ (.of_forall fun k => by rw [sflLoop_succ, h])
  within m' hm' := by
    rcases sflReads_iff.mp hm' with rfl | ⟨m₂, x₂, h₂, -⟩
    · exact ⟨hlo, hhi⟩
    · rw [h] at h₂
      cases h₂

theorem SflPasses.ends (h : SflPasses a b line lo hi m x m₁ x₁)
    (h' : SflEnds a b line lo hi m₁ x₁ r) : SflEnds a b line lo hi m x r where
  settles := h.settles r h'.settles
  within m' hm' := (h.within m' hm').elim id (h'.within m')

/-- The search for a token that is `a` or `b`. -/
abbrev sflSearch (a b : ℕ) (x : ℤ) (ks : List Located) : Verdict Located :=
  search (fun k => keywordLevel k.word) (fun k => k.word = a ∨ k.word = b) x ks

/-- The level behind some tokens. -/
abbrev sflLevel (ks : List Located) : ℤ := level (fun k => keywordLevel k.word) ks

/-- What the scanner does in code with this verdict. -/
def SflMeets (a b line lo hi : ℕ) (m : Machine) (x : ℕ) : Verdict Located → Prop
  | .found k => SflEnds a b line lo hi m x
      (.ok (k.word, { m with dCodePtr := k.address, dLineNumber := k.line }))
  | _ => ∃ q, SflEnds a b line lo hi m x
      (fail { m with dCodePtr := q, dLineNumber := line } .structureImbalance)

theorem SflPasses.meets {v : Verdict Located} {q n : ℕ}
    (h : SflPasses a b line lo hi m x { m with dCodePtr := q, dLineNumber := n } x₁)
    (h' : SflMeets a b line lo hi { m with dCodePtr := q, dLineNumber := n } x₁ v) :
    SflMeets a b line lo hi m x v := by
  cases v with
  | found k => exact h.ends h'
  | below =>
    obtain ⟨q', h'⟩ := h'
    exact ⟨q', h.ends h'⟩
  | unmatched =>
    obtain ⟨q', h'⟩ := h'
    exact ⟨q', h.ends h'⟩

/-- What the scanner does with the tokens `ks` of a line that ends at `q`. -/
def SflLine (a b line lo hi : ℕ) (m : Machine) (x q : ℕ) (ks : List Located) : Prop :=
  if sflSearch a b x ks = .unmatched then
    0 ≤ x + sflLevel ks ∧ (x + sflLevel ks).toNat ≤ q ∧
      SflPasses a b line lo hi m x { m with dCodePtr := q } (x + sflLevel ks).toNat
  else SflMeets a b line lo hi m x (sflSearch a b x ks)

/-- One token more in front. -/
theorem SflLine.cons {n q : ℕ} {ks : List Located} (ht : m.token = t) (hpos : 0 < t)
    (hp : m.dCodePtr = p) (hn : m.dLineNumber = n) (hend : p + tokenSize t < 0x10000)
    (hlo : lo ≤ p) (hhi : p ≤ hi) (hx : x ≤ p) (hsize : 1 ≤ tokenSize t)
    (h : ∀ x' ≤ p + tokenSize t,
      SflLine a b line lo hi { m with dCodePtr := p + tokenSize t } x' q ks) :
    SflLine a b line lo hi m x q (⟨t, p, n⟩ :: ks) := by
  have hlevel := keywordLevel_le t
  have hstep := sflStep_token a b line ht hpos (x := x) (by omega) (by rw [hp]; exact hend)
  have hsearch : sflSearch a b x (⟨t, p, n⟩ :: ks) =
      if (x : ℤ) = 0 ∧ (t = a ∨ t = b) then .found ⟨t, p, n⟩
      else if x + keywordLevel t < 0 then .below else sflSearch a b (x + keywordLevel t) ks := rfl
  unfold SflLine
  by_cases hfound : (x : ℤ) = 0 ∧ (t = a ∨ t = b)
  · rw [if_pos hfound] at hstep hsearch
    rw [hsearch, if_neg (by simp)]
    subst hp hn
    exact SflEnds.step hstep hlo hhi
  rw [if_neg hfound] at hstep hsearch
  by_cases hbelow : (x : ℤ) + keywordLevel t < 0
  · rw [if_pos hbelow] at hstep hsearch
    rw [hsearch, if_neg (by simp)]
    exact ⟨_, SflEnds.step hstep (hp ▸ hlo) (hp ▸ hhi)⟩
  rw [if_neg hbelow] at hstep hsearch
  obtain ⟨x', hx'⟩ : ∃ x' : ℕ, (x' : ℤ) = x + keywordLevel t :=
    ⟨_, Int.toNat_of_nonneg (not_lt.mp hbelow)⟩
  have hpass : SflPasses a b line lo hi m x { m with dCodePtr := p + tokenSize t } x' := by
    rw [← hx', Int.toNat_natCast, hp] at hstep
    exact SflPasses.step hstep (hp ▸ hlo) (hp ▸ hhi)
  have hline := h x' (by omega)
  have hsum : (x : ℤ) + sflLevel (⟨t, p, n⟩ :: ks) = x' + sflLevel ks := by
    rw [hx', sflLevel, level_cons, add_assoc]
  unfold SflLine at hline
  rw [hsearch, ← hx', hsum]
  split_ifs at hline ⊢ with hrest
  · exact ⟨hline.1, hline.2.1, hpass.trans hline.2.2⟩
  · exact hpass.meets (n := m.dLineNumber) hline

/-- **Along a line** the scanner is a search. By induction on the tokens; the level is never above
the code pointer, so that it does not wrap. -/
theorem sflLoop_line {n : ℕ} {ks : List Located} (hk : TokensAt n p ts ks)
    (hm : m.bank.WordsAt p ts) (hp : m.dCodePtr = p) (hn : m.dLineNumber = n)
    (hend : p + 2 * ts.length < 0x10000) (hlo : lo ≤ p) (hhi : p + 2 * ts.length ≤ hi)
    (hx : x ≤ p) :
    SflLine a b line lo hi m x (p + 2 * ts.length) ks := by
  induction hk generalizing m x with
  | @nil p =>
    have hsame : { m with dCodePtr := p } = m := by
      rw [← hp]
    unfold SflLine
    rw [if_pos (c := sflSearch a b x [] = .unmatched) rfl, sflLevel, level_nil, add_zero,
      Int.toNat_natCast]
    exact ⟨Int.natCast_nonneg x, hx, hsame ▸ .refl⟩
  | @token p t ts ks ht h ih =>
    have hsize : tokenSize t = 2 := if_neg (by omega)
    rw [List.length_cons] at hend hhi ⊢
    obtain ⟨hword, hm⟩ := Memory.wordsAt_cons.mp hm
    refine .cons (m.token_eq hp hword) (by omega) hp hn (by omega) hlo (by omega) hx (by omega) ?_
    intro x' hx'
    rw [hsize] at hx' ⊢
    rw [show p + 2 * (ts.length + 1) = p + 2 + 2 * ts.length by omega] at hend hhi ⊢
    exact ih hm rfl hn hend (by omega) hhi hx'
  | @string p header body ts ks hbody hlt h ih =>
    have hsize : tokenSize header = header := if_pos hlt
    obtain ⟨hword, htail⟩ := wordsAt_string hbody hm
    rw [end_string hbody] at hend hhi ⊢
    refine .cons (m.token_eq hp hword) (by omega) hp hn (by omega) hlo (by omega) hx (by omega) ?_
    intro x' hx'
    rw [hsize] at hx' ⊢
    exact ih htail rfl hn hend (by omega) hhi hx'

/-- A line with more behind it. -/
theorem SflLine.append {q : ℕ} {ks js : List Located} (h : SflLine a b line lo hi m x q ks)
    (h' : ∀ x' ≤ q, SflMeets a b line lo hi { m with dCodePtr := q } x' (sflSearch a b x' js)) :
    SflMeets a b line lo hi m x (sflSearch a b x (ks ++ js)) := by
  unfold SflLine at h
  rw [sflSearch, search_append]
  split_ifs at h with hks
  · obtain ⟨hnonneg, hle, hpass⟩ := h
    have hjs := h' _ hle
    rw [Int.toNat_of_nonneg hnonneg] at hjs
    rw [sflSearch] at hks
    rw [hks]
    exact hpass.meets (n := m.dLineNumber) hjs
  · rw [sflSearch] at hks h
    cases hv : search (fun k : Located => keywordLevel k.word)
        (fun k => k.word = a ∨ k.word = b) x ks with
    | unmatched => exact absurd hv hks
    | found k =>
      rw [hv] at h
      exact h
    | below =>
      rw [hv] at h
      exact h

theorem StoredAt.tokens {l : Line} {ls : List Line} (h : StoredAt m.bank p (l :: ls)) :
    m.bank.WordsAt (p + 4) l.tokens ∧ m.bank.word (p + 4 + 2 * l.tokens.length) = 0 := by
  have hw := h.words
  rw [wordsOfLines_cons, List.append_assoc, Memory.wordsAt_append, Line.words] at hw
  obtain ⟨⟨-, -, hw⟩, -⟩ := hw
  rw [show p + 2 + 2 = p + 4 from rfl, Memory.wordsAt_append] at hw
  exact ⟨hw.1, hw.2.1⟩

/-- **From the end of a line** of a stored program the scanner is a search along the lines behind it.
By induction on the lines. -/
theorem sflLoop_lines {q : ℕ} {ls : List Line} {ks : List Located} (hk : LinesAt (q + 2) ls ks)
    (hzero : m.bank.word q = 0) (hm : StoredAt m.bank (q + 2) ls) (hp : m.dCodePtr = q)
    (hlo : lo ≤ q) (hhi : q + sizeOfLines ls ≤ hi) (hx : x ≤ q) :
    SflMeets a b line lo hi m x (sflSearch a b x ks) := by
  have hbound := hm.bound
  have ht : m.token = 0 := m.token_eq hp hzero
  obtain ⟨p, hq⟩ : ∃ p, p = q + 2 := ⟨_, rfl⟩
  rw [← hq] at hk hm hbound
  induction hk generalizing m x q with
  | nil =>
    refine ⟨m.dCodePtr, SflEnds.step ?_ (hp ▸ hlo) (by rw [hp]; simpa using hhi)⟩
    rw [sflStep_end a b line x ht, hp, ← hq, if_pos hm.word_nil]
  | @cons p l ls ks js h hs ih =>
    rw [sizeOfLines_cons] at hhi hbound
    have hstep : sflStep a b line m x =
        .inr ({ m with dLineNumber := l.number, dCodePtr := q + 6 }, x) := by
      rw [sflStep_end a b line x ht, hp, ← hq, if_neg (by rw [hm.word_offset]; omega),
        show q + 4 = p + 2 by omega, hm.word_number, add16_eq (by omega)]
    have hpass : SflPasses a b line lo hi m x
        { m with dCodePtr := q + 6, dLineNumber := l.number } x :=
      .step hstep (hp ▸ hlo) (by omega)
    obtain ⟨hwords, hend⟩ := hm.tokens
    have hnext := hm.next
    rw [show q + 6 = p + 4 by omega] at hpass
    have hline : SflLine a b line lo hi { m with dCodePtr := p + 4, dLineNumber := l.number } x
        (p + 4 + 2 * l.tokens.length) ks :=
      sflLoop_line h hwords rfl rfl (by omega) (by omega) (by omega) (by omega)
    refine hpass.meets (hline.append fun x' hx' => ?_)
    exact ih hend rfl (by omega) (by omega) hx' hend (by omega) hnext (by omega)

end

/-! ## The running code -/

/-- The code pointer stands between two tokens of the running code, which is a stored program or the
token buffer. The tokens `ks` are those up to the end of the code, whose last zero is at `hi`. -/
inductive Machine.Running (m : Machine) : Bool → List Located → ℕ → Prop
  | program {ps ls : List Line} {l : Line} {us ts : List ℕ} {is ks js : List Located}
      (hstored : StoredAt m.bank m.programStart (ps ++ l :: ls)) (hl : l.tokens = us ++ ts)
      (hline : m.dLineNumber = l.number)
      (hcode : m.dCodePtr = m.programStart + sizeOfLines ps + 4 + 2 * us.length)
      (hus : TokensAt l.number (m.programStart + sizeOfLines ps + 4) us is)
      (hts : TokensAt l.number m.dCodePtr ts ks)
      (hls : LinesAt (m.dCodePtr + 2 * ts.length + 2) ls js) :
      m.Running true (ks ++ js) (m.dCodePtr + 2 * ts.length + sizeOfLines ls)
  | command {us ts : List ℕ} {is ks : List Located}
      (hwords : m.bank.WordsAt (m.dBaseAddress + blockTokenBuffer) (us ++ (ts ++ [0x0000])))
      (hline : m.dLineNumber = 0)
      (hcode : m.dCodePtr = m.dBaseAddress + blockTokenBuffer + 2 * us.length)
      (hbound : m.dCodePtr + 2 * ts.length + 2 ≤ 0x10000)
      (hus : TokensAt 0 (m.dBaseAddress + blockTokenBuffer) us is)
      (hts : TokensAt 0 m.dCodePtr ts ks) :
      m.Running false ks (m.dCodePtr + 2 * ts.length)

/-- The token `k` behind `us` is the first one that is searched for on level 0. -/
def FirstMatch (a b : ℕ) (us : List Located) (k : Located) : Prop :=
  First (fun k => keywordLevel k.word) (fun k => k.word = a ∨ k.word = b) us k

/-- The scanner stops at the first matching token of `ks` with the number of its line, or fails with
the line number it began with if there is none; it reads no token behind `hi`. -/
def ScansForward (a b : ℕ) (m : Machine) (ks : List Located) (hi : ℕ) : Prop :=
  (∀ us k vs, ks = us ++ k :: vs → FirstMatch a b us k →
    Settles (fun fuel => scanForwardLevel fuel m a b) (.ok (k.word, { m with
      dTemp1 := a, dTemp1H := b, dTemp2 := m.dLineNumber, dCodePtr := k.address,
      dLineNumber := k.line }))) ∧
  ((¬∃ us k vs, ks = us ++ k :: vs ∧ FirstMatch a b us k) →
    ∃ q, Settles (fun fuel => scanForwardLevel fuel m a b) (fail { m with
      dTemp1 := a, dTemp1H := b, dTemp2 := m.dLineNumber, dCodePtr := q } .structureImbalance)) ∧
  ∀ m', SflReads a b m.dLineNumber
      { m with dTemp1 := a, dTemp1H := b, dTemp2 := m.dLineNumber } 0 m' →
    m.dCodePtr ≤ m'.dCodePtr ∧ m'.dCodePtr ≤ hi

section

variable {m : Machine} {a b hi : ℕ} {ks : List Located} {stored : Bool}

theorem SflMeets.scansForward (h : SflMeets a b m.dLineNumber m.dCodePtr hi
      { m with dTemp1 := a, dTemp1H := b, dTemp2 := m.dLineNumber } 0 (sflSearch a b 0 ks)) :
    ScansForward a b m ks hi := by
  have hfirst : ∀ k, sflSearch a b 0 ks = .found k ↔
      ∃ us vs, ks = us ++ k :: vs ∧ FirstMatch a b us k := fun k => search_eq_found
  cases hv : sflSearch a b 0 ks with
  | found k =>
    rw [hv] at h
    refine ⟨fun us k' vs hks hk' => ?_, fun hno => ?_, h.within⟩
    · have hv' := (hfirst k').mpr ⟨us, vs, hks, hk'⟩
      rw [hv] at hv'
      cases hv'
      exact h.settles
    · obtain ⟨us, vs, hks, hk⟩ := (hfirst k).mp hv
      exact absurd ⟨us, k, vs, hks, hk⟩ hno
  | below =>
    rw [hv] at h
    obtain ⟨q, h⟩ := h
    refine ⟨fun us k vs hks hk => ?_, fun _ => ⟨q, h.settles⟩, h.within⟩
    have hv' := (hfirst k).mpr ⟨us, vs, hks, hk⟩
    rw [hv] at hv'
    cases hv'
  | unmatched =>
    rw [hv] at h
    obtain ⟨q, h⟩ := h
    refine ⟨fun us k vs hks hk => ?_, fun _ => ⟨q, h.settles⟩, h.within⟩
    have hv' := (hfirst k).mpr ⟨us, vs, hks, hk⟩
    rw [hv] at hv'
    cases hv'

/-- The scanner finds the matching token and nothing else in every stored program, and in the token
buffer unless it comes to the end of the command line and the word behind it is not zero. -/
theorem scanForwardLevel_finds (h : m.Running stored ks hi) :
    ScansForward a b m ks hi ↔
      (stored = false → sflSearch a b 0 ks = .unmatched → m.bank.word (hi + 2) = 0) := by
  cases h with
  | @program ps ls l us ts is ks js hstored hl hline hcode hus hts hls =>
    refine iff_of_true (SflMeets.scansForward ?_) fun hfalse => absurd hfalse (by decide)
    have htail := hstored.tail
    have hbound := htail.bound
    obtain ⟨hwords, hend⟩ := htail.tokens
    rw [hl, Memory.wordsAt_append, ← hcode] at hwords
    rw [sizeOfLines_cons, hl, List.length_append] at hbound
    rw [hl, List.length_append, Nat.mul_add, ← Nat.add_assoc, ← hcode] at hend
    have hnext := htail.next
    rw [hl, List.length_append] at hnext
    have hrun : SflLine a b m.dLineNumber m.dCodePtr (m.dCodePtr + 2 * ts.length + sizeOfLines ls)
        { m with dTemp1 := a, dTemp1H := b, dTemp2 := m.dLineNumber } 0
        (m.dCodePtr + 2 * ts.length) ks :=
      sflLoop_line hts hwords.2 rfl hline (by omega) (le_refl _) (by omega) (Nat.zero_le _)
    refine hrun.append fun x' hx' => ?_
    refine sflLoop_lines hls hend ?_ rfl (by omega) (le_refl _) hx'
    rw [hcode, show m.programStart + sizeOfLines ps + 4 + 2 * us.length + 2 * ts.length + 2 =
      m.programStart + sizeOfLines ps + (2 * (us.length + ts.length) + 6) by omega]
    exact hnext
  | @command us ts is ks hwords hline hcode hbound hus hts =>
    rw [Memory.wordsAt_append, ← hcode, Memory.wordsAt_append] at hwords
    obtain ⟨-, hwords, hzero, -⟩ := hwords
    have hrun : SflLine a b m.dLineNumber m.dCodePtr (m.dCodePtr + 2 * ts.length)
        { m with dTemp1 := a, dTemp1H := b, dTemp2 := m.dLineNumber } 0
        (m.dCodePtr + 2 * ts.length) ks :=
      sflLoop_line hts hwords rfl hline (by omega) (le_refl _) (le_refl _) (Nat.zero_le _)
    unfold SflLine at hrun
    rw [Nat.cast_zero] at hrun
    by_cases hv : sflSearch a b 0 ks = .unmatched
    · rw [if_pos hv] at hrun
      obtain ⟨-, -, hpass⟩ := hrun
      have hlow : 0x100 ≤ m.dCodePtr := by
        have : 0x100 ≤ blockTokenBuffer := by decide
        omega
      have hstep := sflStep_end a b m.dLineNumber (0 + sflLevel ks).toNat (m := { m with
        dTemp1 := a, dTemp1H := b, dTemp2 := m.dLineNumber, dCodePtr := m.dCodePtr + 2 * ts.length })
        hzero
      split_ifs at hstep with hlink
      · refine iff_of_true (SflMeets.scansForward ?_) fun _ _ => hlink
        rw [hv]
        exact ⟨_, hpass.ends (.step hstep (Nat.le_add_right _ _) (le_refl _))⟩
      · refine iff_of_false (fun hscan => ?_) fun h => hlink (h rfl hv)
        -- the scanner goes on behind the zero at the end of the command line
        have hread := hscan.2.2 _ (hpass.reads _ (.next hstep .here))
        dsimp only at hread
        unfold add16 at hread
        omega
    · rw [if_neg hv] at hrun
      exact iff_of_true hrun.scansForward fun _ hv' => absurd hv' hv

/-- The command line `while 0 : wend`, scanned behind the condition. -/
theorem scanForwardLevel_finds_wend :
    { commandMachine [whileTokenID, 0x4000, colonTokenID, wendTokenID, 0] with
      dCodePtr := 0x4104 }.Running false
        [⟨colonTokenID, 0x4104, 0⟩, ⟨wendTokenID, 0x4106, 0⟩] 0x4108 ∧
    (ScansForward wendTokenID 0
      { commandMachine [whileTokenID, 0x4000, colonTokenID, wendTokenID, 0] with
        dCodePtr := 0x4104 } [⟨colonTokenID, 0x4104, 0⟩, ⟨wendTokenID, 0x4106, 0⟩] 0x4108 ↔
      (false = false → sflSearch wendTokenID 0 0
          [⟨colonTokenID, 0x4104, 0⟩, ⟨wendTokenID, 0x4106, 0⟩] = .unmatched →
        { commandMachine [whileTokenID, 0x4000, colonTokenID, wendTokenID, 0] with
          dCodePtr := 0x4104 }.bank.word (0x4108 + 2) = 0)) := by
  have hrun : { commandMachine [whileTokenID, 0x4000, colonTokenID, wendTokenID, 0] with
      dCodePtr := 0x4104 }.Running false
        [⟨colonTokenID, 0x4104, 0⟩, ⟨wendTokenID, 0x4106, 0⟩] 0x4108 := by
    refine @Machine.Running.command _ [whileTokenID, 0x4000] [colonTokenID, wendTokenID]
      [⟨whileTokenID, 0x4100, 0⟩, ⟨0x4000, 0x4102, 0⟩] _ ?_ rfl rfl (by decide) ?_ ?_
    · exact ⟨by rfl, by rfl, by rfl, by rfl,
        by rfl, trivial⟩
    · exact .token (by decide) (.token (by decide) .nil)
    · exact .token (by decide) (.token (by decide) .nil)
  exact ⟨hrun, scanForwardLevel_finds hrun⟩

/-- After the command line `a = 1 : b = 2 : wend` the command line `while 0` finds the `wend` of the
former, in a line that is numbered by the token `b`. -/
theorem scanForwardLevel_left_over : ∃ m : Machine, m.Running false [] 0x4104 ∧
    m.bank.WordsAt 0x4100 [whileTokenID, 0x4000, 0, colonTokenID, 0xC002, equalTokenID, 0x4002,
      colonTokenID, wendTokenID, 0] ∧
    (∃ m', scanForwardLevel 9 m wendTokenID 0 = .ok (wendTokenID, m') ∧ m'.dCodePtr = 0x4110 ∧
      m'.dLineNumber = 0xC002) ∧
    ¬ScansForward wendTokenID 0 m [] 0x4104 := by
  refine ⟨{ commandMachine [whileTokenID, 0x4000, 0, colonTokenID, 0xC002, equalTokenID, 0x4002,
    colonTokenID, wendTokenID, 0] with dCodePtr := 0x4104 }, ?_, ?_, ?_, ?_⟩
  · refine @Machine.Running.command _ [whileTokenID, 0x4000] []
      [⟨whileTokenID, 0x4100, 0⟩, ⟨0x4000, 0x4102, 0⟩] _ ?_ rfl rfl (by decide) ?_ .nil
    · exact ⟨by rfl, by rfl, by rfl, trivial⟩
    · exact .token (by decide) (.token (by decide) .nil)
  · refine ⟨?_, ?_, ?_, ?_, ?_, ?_, ?_, ?_, ?_, ?_, trivial⟩
    all_goals rfl
  · obtain ⟨⟨t, m'⟩, h, ht, hcode, hline⟩ := Except.exists_of_check
      (r := scanForwardLevel 9 { commandMachine [whileTokenID, 0x4000, 0, colonTokenID, 0xC002,
        equalTokenID, 0x4002, colonTokenID, wendTokenID, 0] with dCodePtr := 0x4104 }
        wendTokenID 0)
      (P := fun r => r.1 = wendTokenID ∧ r.2.dCodePtr = 0x4110 ∧ r.2.dLineNumber = 0xC002)
      (by rfl)
    exact ⟨m', by rw [h, ← ht], hcode, hline⟩
  · rintro ⟨-, -, hreads⟩
    have hread := hreads _ (.next ((sflStep_end _ _ _ _ (by rfl)).trans
      (if_neg (by decide))) .here)
    exact absurd hread (by decide)

end

end Basic65816
