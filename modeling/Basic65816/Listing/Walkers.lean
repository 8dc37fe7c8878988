import Basic65816.Lib.Visits
import Basic65816.Listing.Reenter
import Basic65816.Loops.Scan

/-!
# The walkers of a line

Six loops walk along the tokens of a line. Each of them takes a word below `$100` for the header of a
string and skips its body by it, and the terminator for the end; what it does with the other words is
its own business. In a line that comes from a tokeniser they pass the same tokens.

## Main definitions

* `Tokenised`: the lines that one of the tokenisers produces
* `liStep`, `fifStep`, `siStep`, `dtkStep`: one round of each loop; `sflStep` is that of the scanner

## Main results

* `TokensAt.unique`: the words determine where the tokens are
* `TokensAt.visits`: a loop that moves by the size of each token passes all of them
* `dtkVisits_items`: `Detokenise` passes the tokens of the items that it expands
-/

namespace Basic65816

open Builder

/-! ## Lines that are produced by a tokeniser -/

/-- The words `ts` without the terminator are what a tokeniser makes of a line of text. -/
inductive Tokenised : List ℕ → Prop
  | builder {s ts : List ℕ} (hs : ∀ c ∈ s, c < 256) (h : Builder.tokenise s = some ts) : Tokenised ts
  | machine {m m' : Machine} {a y : ℕ} {s ts : List ℕ}
      (ht : m.far.BytesAt (a + 0x10000 * (y % 0x100)) (s ++ [0])) (hb : a + s.length < 0x10000)
      (hs : 0 ∉ s) (hbase : m.dBaseAddress % 0x100 = 0) (htop : m.dBaseAddress + 0x200 ≤ 0x10000)
      (h : Settles (fun fuel => tokenise fuel m a y) (.ok m'))
      (hwords : m'.bank.WordsAt (m.dBaseAddress + blockTokenBuffer) (ts ++ [0]))
      (hend : m'.dTemp2 = m.dBaseAddress + blockTokenBuffer + 2 * (ts ++ [0]).length) : Tokenised ts

section

variable {mem : Memory} {p n : ℕ} {ts us : List ℕ} {ks js : List Located}

theorem wordsAt_unique (h : mem.WordsAt p ts) (h' : mem.WordsAt p us)
    (hlen : ts.length = us.length) : ts = us := by
  induction ts generalizing p us with
  | nil => exact (List.eq_nil_of_length_eq_zero hlen.symm).symm
  | cons t ts ih =>
    cases us with
    | nil => cases hlen
    | cons u us =>
      obtain ⟨ht, hts⟩ := Memory.wordsAt_cons.mp h
      obtain ⟨hu, hus⟩ := Memory.wordsAt_cons.mp h'
      rw [ih hts hus (Nat.succ.inj hlen), ← ht, hu]

/-- A tokenised line is a line of items. -/
theorem Tokenised.items (h : Tokenised ts) :
    ∃ is : List Item, (∀ i ∈ is, i.Valid) ∧ ts = wordsOf is := by
  cases h with
  | builder hs h =>
    obtain ⟨is, his, hts, -⟩ := tokenise_items hs h
    exact ⟨is, his, hts⟩
  | @machine m m' a y s _ ht hb hs hbase htop h hwords hend =>
    have hline := tokenise_line ht hb hs hbase htop
    have hbytes : ∀ c ∈ s, c < 256 := by
      intro c hc
      obtain ⟨i, hi, rfl⟩ := List.getElem_of_mem hc
      rw [← (Memory.bytesAt_append.mp ht).1.get hi]
      exact m.far.byte_lt _
    cases hlex : lex (capitalise s) with
    | none =>
      rw [hlex] at hline
      exact (Fails.not_ok hline h).elim
    | some is =>
      rw [hlex] at hline
      simp only [Option.map_some, TokenisesLine] at hline
      split_ifs at hline with hshort
      · obtain ⟨m₁, hrun, hw⟩ := hline
        obtain rfl : m' = m₁ := Except.ok.inj (h.unique hrun)
        have hlen : (ts ++ [0]).length = (wordsOf is ++ [0]).length := by
          have hpointer := hw.pointer
          omega
        refine ⟨is, lex_valid _ (Nat.le_refl _) hlex (capitaliseFrom_lt hbytes _)
          (short_of_words hshort), ?_⟩
        exact List.append_cancel_right (wordsAt_unique hwords hw.words hlen)
      · exact (Fails.not_ok hline h).elim

theorem Item.Valid.tokenLine {i : Item} (h : i.Valid) : TokenLine i.words := by
  cases i with
  | token t =>
    obtain ⟨k, hk, rfl⟩ := h
    exact .token ((by decide : 0x100 ≤ 0x2000).trans (id_ge_of_mem k hk)) .nil
  | ident name isString isArray =>
    exact .of_forall fun w hw => (by decide : 0x100 ≤ 0xC000).trans (identWords_ge _ _ _ w hw)
  | const v => exact tokenLine_constWords v
  | string chars => exact tokenLine_stringWords h.2.1

theorem tokenLine_wordsOf {is : List Item} (his : ∀ i ∈ is, i.Valid) : TokenLine (wordsOf is) := by
  induction is with
  | nil => exact .nil
  | cons i is ih =>
    exact (his i (by simp)).tokenLine.append (ih fun j hj => his j (List.mem_cons_of_mem i hj))

/-! ## Where the tokens are -/

theorem TokenLine.located (h : TokenLine ts) (n p : ℕ) : ∃ ks, TokensAt n p ts ks := by
  induction h generalizing p with
  | nil => exact ⟨[], .nil⟩
  | token ht _ ih =>
    obtain ⟨ks, hks⟩ := ih (p + 2)
    exact ⟨_, .token ht hks⟩
  | @string header _ _ hbody hlt _ ih =>
    obtain ⟨ks, hks⟩ := ih (p + header)
    exact ⟨_, .string hbody hlt hks⟩

/-- **The words determine the tokens.** -/
theorem TokensAt.unique (h : TokensAt n p ts ks) (h' : TokensAt n p ts js) : ks = js := by
  induction h generalizing js with
  | nil =>
    cases h'
    rfl
  | token ht _ ih =>
    cases h' with
    | token _ h' => rw [ih h']
    | string hbody hlt => omega
  | @string p header body ts ks hbody hlt h ih =>
    obtain ⟨us, hus⟩ : ∃ us, us = header :: (body ++ ts) := ⟨_, rfl⟩
    rw [← hus] at h'
    cases h' with
    | nil => cases hus
    | token ht =>
      obtain ⟨rfl, -⟩ := List.cons.inj hus
      omega
    | @string _ _ body' _ _ hbody' _ h' =>
      obtain ⟨rfl, hrest⟩ := List.cons.inj hus
      obtain ⟨-, rfl⟩ := List.append_inj hrest (by omega)
      rw [ih h']

theorem TokensAt.append (h : TokensAt n p ts ks) (h' : TokensAt n (p + 2 * ts.length) us js) :
    TokensAt n p (ts ++ us) (ks ++ js) := by
  induction h with
  | nil => exact h'
  | token ht _ ih =>
    refine .token ht (ih ?_)
    rw [List.length_cons] at h'
    convert h' using 1
    omega
  | string hbody hlt _ ih =>
    rw [List.cons_append, List.append_assoc]
    refine .string hbody hlt (ih ?_)
    rw [List.length_cons, List.length_append] at h'
    convert h' using 1
    omega

/-- Behind a token the next one follows, or the end of the line. -/
theorem TokensAt.next (h : TokensAt n p ts ks) (hw : mem.WordsAt p ts) {vs : List Located}
    {k : Located} {is : List Located} (hk : ks = is ++ k :: vs) :
    mem.word k.address = k.word ∧ 0 < k.word ∧
      k.address + tokenSize k.word = (vs.map Located.address).headD (p + 2 * ts.length) ∧
      k.address + tokenSize k.word ≤ p + 2 * ts.length := by
  have hhead : ∀ {p : ℕ} {ts : List ℕ} {ks : List Located}, TokensAt n p ts ks →
      (ks.map Located.address).headD (p + 2 * ts.length) = p ∧ p ≤ p + 2 * ts.length := by
    intro p ts ks h
    refine ⟨?_, Nat.le_add_right _ _⟩
    cases h <;> rfl
  induction h generalizing is with
  | nil => simp at hk
  | @token p t ts ks ht h ih =>
    obtain ⟨hword, hw⟩ := Memory.wordsAt_cons.mp hw
    have hsize : tokenSize t = 2 := if_neg (Nat.not_lt.mpr ht)
    have hend : p + 2 * (t :: ts).length = p + 2 + 2 * ts.length := by
      rw [List.length_cons]
      omega
    rw [hend]
    cases is with
    | nil =>
      obtain ⟨rfl, rfl⟩ := List.cons.inj hk
      obtain ⟨hnext, hle⟩ := hhead h
      dsimp only
      rw [hsize, hnext]
      exact ⟨hword, by omega, rfl, hle⟩
    | cons i is => exact ih hw (List.cons.inj hk).2
  | @string p header body ts ks hbody hlt h ih =>
    obtain ⟨hword, htail⟩ := wordsAt_string hbody hw
    have hsize : tokenSize header = header := if_pos hlt
    rw [end_string hbody]
    cases is with
    | nil =>
      obtain ⟨rfl, rfl⟩ := List.cons.inj hk
      obtain ⟨hnext, hle⟩ := hhead h
      dsimp only
      rw [hsize, hnext]
      exact ⟨hword, by omega, rfl, hle⟩
    | cons i is => exact ih htail (List.cons.inj hk).2

/-- No token begins inside another one. -/
theorem TokensAt.outside (h : TokensAt n p ts ks) : (∀ k ∈ ks, p ≤ k.address) ∧
    ∀ k ∈ ks, ∀ j ∈ ks, ¬(k.address < j.address ∧ j.address < k.address + tokenSize k.word) := by
  have hcons : ∀ {p q t : ℕ} {ks : List Located}, q = p + tokenSize t →
      ((∀ k ∈ ks, q ≤ k.address) ∧
        ∀ k ∈ ks, ∀ j ∈ ks, ¬(k.address < j.address ∧ j.address < k.address + tokenSize k.word)) →
      (∀ k ∈ (⟨t, p, n⟩ : Located) :: ks, p ≤ k.address) ∧
        ∀ k ∈ (⟨t, p, n⟩ : Located) :: ks, ∀ j ∈ (⟨t, p, n⟩ : Located) :: ks,
          ¬(k.address < j.address ∧ j.address < k.address + tokenSize k.word) := by
    rintro p q t ks hq ⟨hlow, hout⟩
    constructor
    · intro k hk
      rcases List.mem_cons.mp hk with rfl | hk
      · exact Nat.le_refl _
      · have hle := hlow k hk
        omega
    · intro k hk j hj
      rcases List.mem_cons.mp hk with rfl | hk
      · rcases List.mem_cons.mp hj with rfl | hj
        · omega
        · have hle := hlow j hj
          dsimp only
          omega
      · rcases List.mem_cons.mp hj with rfl | hj
        · have hle := hlow k hk
          dsimp only
          omega
        · exact hout k hk j hj
  induction h with
  | nil => simp
  | @token p t ts ks ht _ ih => exact hcons (by rw [tokenSize, if_neg (by omega)]) ih
  | @string p header body ts ks hbody hlt _ ih => exact hcons (by rw [tokenSize, if_pos hlt]) ih

/-- **A loop that moves by the size of each token** passes all of them. By induction on the tokens;
the loop keeps what its rounds rely on. -/
theorem TokensAt.visits {σ : Type} (next : σ → σ → Prop) (position : σ → ℕ) (Inv : σ → Prop)
    (hk : TokensAt n p ts ks) (hw : mem.WordsAt p ts) (hend : p + 2 * ts.length < 0x10000)
    (hstep : ∀ s t, Inv s → mem.word (position s) = t → 0 < t →
      position s + tokenSize t < 0x10000 →
        ∃ s', next s s' ∧ Inv s' ∧ position s' = position s + tokenSize t) :
    ∀ s, Inv s → position s = p → ∃ s', Visits next position s (ks.map Located.address) s' ∧
      Inv s' ∧ position s' = p + 2 * ts.length := by
  -- the step, and the rest of the walk
  have hcons : ∀ {q t r : ℕ} {js : List Located}, mem.word q = t → 0 < t →
      q + tokenSize t ≤ r → r < 0x10000 →
      (∀ s, Inv s → position s = q + tokenSize t →
        ∃ s', Visits next position s (js.map Located.address) s' ∧ Inv s' ∧ position s' = r) →
      ∀ s, Inv s → position s = q → ∃ s', Visits next position s
        (((⟨t, q, n⟩ : Located) :: js).map Located.address) s' ∧ Inv s' ∧ position s' = r := by
    rintro q t r js hword hpos hle hr hrest s hs rfl
    obtain ⟨s₁, hnext, hs₁, hq⟩ := hstep s t hs hword hpos (by omega)
    obtain ⟨s', hvisits, hs', hr'⟩ := hrest s₁ hs₁ hq
    have hsize : 0 < tokenSize t := by
      unfold tokenSize
      split_ifs <;> omega
    exact ⟨s', .move hnext (by omega) hvisits, hs', hr'⟩
  induction hk with
  | nil => exact fun s hs hp => ⟨s, .here, hs, hp⟩
  | @token p t ts ks ht _ ih =>
    obtain ⟨hword, hw⟩ := Memory.wordsAt_cons.mp hw
    rw [List.length_cons] at hend ⊢
    have hsize : tokenSize t = 2 := if_neg (by omega)
    rw [show p + 2 * (ts.length + 1) = p + 2 + 2 * ts.length by omega] at hend ⊢
    refine hcons hword (by omega) (by omega) hend ?_
    rw [hsize]
    exact ih hw hend
  | @string p header body ts ks hbody hlt _ ih =>
    obtain ⟨hword, htail⟩ := wordsAt_string hbody hw
    have hsize : tokenSize header = header := if_pos hlt
    rw [end_string hbody] at hend ⊢
    refine hcons hword (by omega) (by omega) hend ?_
    rw [hsize]
    exact ih htail hend

end

/-! ## `_LIFindLength`, `_FIFEndOfLine` and `_SILoop` -/

/-- One round of `_LIFindLength`; at the end of the line there is none. -/
def liStep (m : Machine) (y : ℕ) : Option ℕ :=
  let token := m.bank.word (m.dTemp1 + y)
  if token = 0x0000 then none
  else if token < 0x0100 then some (add16 y token)
  else some (add16 y 2)

/-- One round of `_FIFEndOfLine`. -/
def fifStep (m : Machine) : Option Machine :=
  let t := m.token
  if t = 0 then none
  else if t < 0x0100 then some { m with dCodePtr := add16 (t % 256) m.dCodePtr }
  else some m.skipToken

/-- One round of `_SILoop`. -/
def siStep (m : Machine) (y : ℕ) : Option (Machine × ℕ) :=
  let t := m.bank.word y
  if t = 0 then none
  else if t < 0x0100 then some (m, add16 y t)
  else if t &&& 0xE000 ≠ 0x2000 then some (m, add16 y 2)
  else if t &&& 15 <<< 9 = 14 <<< 9 then
    some ({ m with dIndent := add16 m.dIndent 1 }, add16 y 2)
  else if t &&& 15 <<< 9 = 13 <<< 9 then
    let indent := sub16 m.dIndent 1
    some ({ m with dIndent := if indent < 0x8000 then indent else 0 }, add16 y 2)
  else some (m, add16 y 2)

section

variable {m m' : Machine} {p n y t fuel : ℕ} {ts : List ℕ} {ks : List Located}

theorem liFindLength_succ :
    liFindLength (fuel + 1) m y = (liStep m y).elim (.ok y) (liFindLength fuel m) := by
  rw [liFindLength]
  unfold liStep
  dsimp only
  split_ifs <;> rfl

theorem fifEndOfLine_succ :
    fifEndOfLine (fuel + 1) m = (fifStep m).elim (.ok m) (fifEndOfLine fuel) := by
  rw [fifEndOfLine]
  unfold fifStep
  dsimp only
  split_ifs <;> rfl

theorem siLoop_succ :
    siLoop (fuel + 1) m y = (siStep m y).elim (.ok m) fun s => siLoop fuel s.1 s.2 := by
  rw [siLoop]
  unfold siStep
  dsimp only
  split_ifs <;> rfl

/-- `_LIFindLength` passes the tokens; the length is that of the line. -/
theorem liFindLength_walks (hk : TokensAt n p ts ks) (hw : m.bank.WordsAt p (ts ++ [0]))
    (hend : p + 2 * ts.length < 0x10000) :
    StopsBehind (fun y y' => liStep { m with dTemp1 := p } y = some y') (fun y => p + y) 0
        (ks.map Located.address) (p + 2 * ts.length) ∧
      Settles (fun fuel => liFindLength fuel { m with dTemp1 := p } 0) (.ok (2 * ts.length)) := by
  obtain ⟨hwords, hzero, -⟩ := Memory.wordsAt_append.mp hw
  obtain ⟨y, hvisits, -, hy⟩ := hk.visits
    (fun y y' => liStep { m with dTemp1 := p } y = some y') (fun y => p + y) (fun _ => True)
    hwords hend (fun y t _ hword hpos hlt => by
      refine ⟨y + tokenSize t, ?_, trivial, by omega⟩
      unfold liStep tokenSize
      unfold tokenSize at hlt
      dsimp only
      rw [hword, if_neg (by omega)]
      split_ifs at hlt ⊢
      · rw [add16_eq (by omega)]
      · rw [add16_eq (by omega)]) 0 trivial rfl
  obtain rfl : y = 2 * ts.length := by omega
  have hstop : liStep { m with dTemp1 := p } (2 * ts.length) = none := if_pos hzero
  refine ⟨⟨_, hvisits, rfl, fun s hs => nomatch hstop.symm.trans hs⟩, ?_⟩
  refine hvisits.reflects (P := fun y => Settles
    (fun fuel => liFindLength fuel { m with dTemp1 := p } y) (.ok (2 * ts.length))) ?_ ?_
  · intro y y' hy hr
    exact hr.unfold fun fuel => by rw [liFindLength_succ, hy]; rfl
  · exact Settles.succ (.of_forall fun fuel => by rw [liFindLength_succ, hstop]; rfl)

/-- `_FIFEndOfLine` passes the tokens. -/
theorem fifEndOfLine_walks (hk : TokensAt n p ts ks) (hw : m.bank.WordsAt p (ts ++ [0]))
    (hend : p + 2 * ts.length < 0x10000) :
    StopsBehind (fun m m' => fifStep m = some m') Machine.dCodePtr { m with dCodePtr := p }
        (ks.map Located.address) (p + 2 * ts.length) ∧
      Settles (fun fuel => fifEndOfLine fuel { m with dCodePtr := p })
        (.ok { m with dCodePtr := p + 2 * ts.length }) := by
  obtain ⟨hwords, hzero, -⟩ := Memory.wordsAt_append.mp hw
  obtain ⟨m', hvisits, hsame, hcode⟩ := hk.visits
    (fun m m' => fifStep m = some m') Machine.dCodePtr
    (fun m' => m' = { m with dCodePtr := m'.dCodePtr }) hwords hend
    (fun m₁ t hsame hword hpos hlt => by
      refine ⟨{ m₁ with dCodePtr := m₁.dCodePtr + tokenSize t }, ?_, by rw [hsame], rfl⟩
      have htoken : m₁.token = t := by
        rw [hsame]
        exact hword
      unfold fifStep Machine.skipToken tokenSize
      unfold tokenSize at hlt
      dsimp only
      rw [htoken, if_neg (by omega)]
      split_ifs at hlt ⊢ with hstring
      · rw [Nat.mod_eq_of_lt hstring, add16_eq (by omega), Nat.add_comm]
      · rw [add16_eq (by omega)]) { m with dCodePtr := p } rfl rfl
  obtain rfl : m' = { m with dCodePtr := p + 2 * ts.length } := by rw [hsame, hcode]
  have hstop : fifStep { m with dCodePtr := p + 2 * ts.length } = none := if_pos hzero
  refine ⟨⟨_, hvisits, rfl, fun s hs => nomatch hstop.symm.trans hs⟩, ?_⟩
  refine hvisits.reflects (P := fun m₁ => Settles (fun fuel => fifEndOfLine fuel m₁)
    (.ok { m with dCodePtr := p + 2 * ts.length })) ?_ ?_
  · intro m₁ m₂ hm hr
    exact hr.unfold fun fuel => by rw [fifEndOfLine_succ, hm]; rfl
  · exact Settles.succ (.of_forall fun fuel => by rw [fifEndOfLine_succ, hstop]; rfl)

/-- `_SILoop` passes the tokens, and changes nothing but the indentation. -/
theorem siLoop_walks (hk : TokensAt n p ts ks) (hw : m.bank.WordsAt p (ts ++ [0]))
    (hend : p + 2 * ts.length < 0x10000) :
    StopsBehind (fun s s' => siStep s.1 s.2 = some s') Prod.snd (m, p)
        (ks.map Located.address) (p + 2 * ts.length) ∧
      ∃ d, Settles (fun fuel => siLoop fuel m p) (.ok { m with dIndent := d }) := by
  obtain ⟨hwords, hzero, -⟩ := Memory.wordsAt_append.mp hw
  obtain ⟨⟨m', y⟩, hvisits, hsame, hy⟩ := hk.visits
    (fun s s' => siStep s.1 s.2 = some s') Prod.snd
    (fun s : Machine × ℕ => s.1 = { m with dIndent := s.1.dIndent }) hwords hend
    (fun s t hsame hword hpos hlt => by
      have htoken : s.1.bank.word s.2 = t := by
        rw [hsame]
        exact hword
      obtain ⟨d, hd⟩ : ∃ d, siStep s.1 s.2 =
          some ({ s.1 with dIndent := d }, s.2 + tokenSize t) := by
        unfold siStep tokenSize
        unfold tokenSize at hlt
        dsimp only
        rw [htoken, if_neg (by omega)]
        split_ifs at hlt ⊢ <;> rw [add16_eq (a := s.2) (by omega)] <;> exact ⟨_, rfl⟩
      exact ⟨_, hd, by rw [hsame], rfl⟩) (m, p) rfl rfl
  obtain rfl : y = p + 2 * ts.length := hy
  obtain ⟨d, rfl⟩ : ∃ d, m' = { m with dIndent := d } := ⟨_, hsame⟩
  have hstop : siStep { m with dIndent := d } (p + 2 * ts.length) = none := if_pos hzero
  refine ⟨⟨_, hvisits, rfl, fun s hs => nomatch hstop.symm.trans hs⟩, d, ?_⟩
  refine hvisits.reflects (P := fun s => Settles (fun fuel => siLoop fuel s.1 s.2)
    (.ok { m with dIndent := d })) ?_ ?_
  · intro s s' hs hr
    exact hr.unfold fun fuel => by rw [siLoop_succ, hs]; rfl
  · exact Settles.succ (.of_forall fun fuel => by rw [siLoop_succ, hstop]; rfl)

/-! ## `_SFLLoop` and the string constant of `EvaluateLevel` -/

/-- In front of a token the scanner ends the search, or moves behind it. -/
theorem sflStep_moves (a b line x : ℕ) (hword : m.bank.word m.dCodePtr = t) (hpos : 0 < t)
    (hlt : m.dCodePtr + tokenSize t < 0x10000) :
    (∃ r, sflStep a b line m x = .inl r) ∨
      ∃ x', sflStep a b line m x = .inr ({ m with dCodePtr := m.dCodePtr + tokenSize t }, x') := by
  have htoken : m.token = t := hword
  unfold sflStep
  dsimp only
  rw [htoken]
  by_cases hfound : x = 0 ∧ t ≠ 0 ∧ (t = a ∨ t = b)
  · rw [if_pos hfound]
    exact .inl ⟨_, rfl⟩
  rw [if_neg hfound, if_neg (by omega)]
  by_cases hstring : t < 0x100
  · have hsize : tokenSize t = t := if_pos hstring
    rw [hsize] at hlt ⊢
    rw [if_pos hstring, Nat.mod_eq_of_lt hstring, add16_eq (by omega), Nat.add_comm]
    exact .inr ⟨_, rfl⟩
  · have hsize : tokenSize t = 2 := if_neg hstring
    rw [hsize] at hlt ⊢
    have hskip : m.skipToken = { m with dCodePtr := m.dCodePtr + 2 } := by
      unfold Machine.skipToken
      rw [add16_eq hlt]
    rw [if_neg hstring, hskip]
    split_ifs
    all_goals first | exact .inr ⟨_, rfl⟩ | exact .inl ⟨_, rfl⟩

/-- The scanner passes the tokens in front of the one where it ends the search; if there is none it
comes to the end of the line. By induction on the tokens. -/
theorem sflLoop_walks (a b line : ℕ) (hk : TokensAt n p ts ks) (hw : m.bank.WordsAt p ts)
    (hend : p + 2 * ts.length < 0x10000) (hp : m.dCodePtr = p) (x : ℕ) :
    ∃ us vs m' x', ks = us ++ vs ∧
      Visits (fun s s' => sflStep a b line s.1 s.2 = .inr s') (fun s => s.1.dCodePtr) (m, x)
        (us.map Located.address) (m', x') ∧
      m'.dCodePtr = (vs.map Located.address).headD (p + 2 * ts.length) ∧
      (vs = [] ∨ ∃ r, sflStep a b line m' x' = .inl r) := by
  -- the first token and the rest of the walk
  have hcons : ∀ {m : Machine} {q t r x : ℕ} {js : List Located}, m.dCodePtr = q →
      m.bank.word q = t → 0 < t → q + tokenSize t < 0x10000 →
      (∀ x', ∃ us vs m' x'', js = us ++ vs ∧
        Visits (fun s s' => sflStep a b line s.1 s.2 = .inr s') (fun s => s.1.dCodePtr)
          ({ m with dCodePtr := q + tokenSize t }, x') (us.map Located.address) (m', x'') ∧
        m'.dCodePtr = (vs.map Located.address).headD r ∧
        (vs = [] ∨ ∃ r, sflStep a b line m' x'' = .inl r)) →
      ∃ us vs m' x', (⟨t, q, n⟩ : Located) :: js = us ++ vs ∧
        Visits (fun s s' => sflStep a b line s.1 s.2 = .inr s') (fun s => s.1.dCodePtr) (m, x)
          (us.map Located.address) (m', x') ∧
        m'.dCodePtr = (vs.map Located.address).headD r ∧
        (vs = [] ∨ ∃ r, sflStep a b line m' x' = .inl r) := by
    rintro m q t r x js rfl hword hpos hlt hrest
    rcases sflStep_moves a b line x hword hpos hlt with hstop | ⟨x₁, hmove⟩
    · exact ⟨[], _, m, x, rfl, .here, rfl, .inr hstop⟩
    · obtain ⟨us, vs, m', x', rfl, hvisits, hcode, hend⟩ := hrest x₁
      have hsize : 0 < tokenSize t := by
        unfold tokenSize
        split_ifs <;> omega
      refine ⟨⟨t, m.dCodePtr, n⟩ :: us, vs, m', x', rfl, .move hmove ?_ hvisits, hcode, hend⟩
      dsimp only
      omega
  induction hk generalizing m x with
  | nil => exact ⟨[], [], m, x, rfl, .here, hp, .inl rfl⟩
  | @token p t ts ks ht _ ih =>
    obtain ⟨hword, hw⟩ := Memory.wordsAt_cons.mp hw
    rw [List.length_cons] at hend ⊢
    have hsize : tokenSize t = 2 := if_neg (by omega)
    rw [show p + 2 * (ts.length + 1) = p + 2 + 2 * ts.length by omega] at hend ⊢
    refine hcons hp hword (by omega) (by omega) fun x' => ?_
    rw [hsize]
    exact ih (m := { m with dCodePtr := p + 2 }) hw hend rfl x'
  | @string p header body ts ks hbody hlt _ ih =>
    obtain ⟨hword, htail⟩ := wordsAt_string hbody hw
    have hsize : tokenSize header = header := if_pos hlt
    rw [end_string hbody] at hend ⊢
    refine hcons hp hword (by omega) (by omega) fun x' => ?_
    rw [hsize]
    exact ih (m := { m with dCodePtr := p + header }) htail hend rfl x'

/-- Behind a string constant `EvaluateLevel` goes on at the next token. -/
theorem elStringConstant_skips {us vs : List Located} {k : Located} (hk : TokensAt n p ts ks)
    (hw : m.bank.WordsAt p ts) (hend : p + 2 * ts.length < 0x10000) (hks : ks = us ++ k :: vs)
    (hstring : k.word < 0x100) (x : ℕ) :
    ∃ m', elStringConstant { m with dCodePtr := k.address } x = .ok m' ∧
      m'.dCodePtr = (vs.map Located.address).headD (p + 2 * ts.length) := by
  obtain ⟨hword, hpos, hnext, hle⟩ := hk.next hw hks
  have htoken : ({ m with dCodePtr := k.address } : Machine).token = k.word := hword
  have hsize : tokenSize k.word = k.word := if_pos hstring
  rw [hsize] at hnext hle
  have hskip : add16 k.word k.address = k.address + k.word := by
    rw [add16_eq (by omega), Nat.add_comm]
  unfold elStringConstant
  rw [if_neg (by omega)]
  refine ⟨_, rfl, ?_⟩
  rw [← hnext, ← hskip, ← htoken]
  rfl

end

/-! ## `_DTKMainLoop` -/

/-- Where the listing of a line is: in front of a token, or in `_DTKILoop`, in front of a word of the
identifier that begins with `token`. -/
inductive DtkState
  | main (m : Machine) (y : ℕ)
  | identifier (token : ℕ) (m : Machine) (y : ℕ)

def DtkState.position : DtkState → ℕ
  | .main _ y => y
  | .identifier _ _ y => y

/-- One round of `_DTKMainLoop` or of `_DTKILoop`; at the end of the line there is none. -/
def dtkStep (fuel : ℕ) : DtkState → Result (Option DtkState)
  | .main m y =>
    let t := m.bank.word y
    if t = 0 then .ok none
    else if t < 0x0100 then
      let m := stringWriteCharacter m 34
      let m := stringCreateCopy m (add16 y 2)
      let m := stringWriteCharacter m 34
      .ok (some (.main m (add16 y (m.bank.word y))))
    else if t < 0x2000 then
      .ok (some (.main { m with dConstantShift := t &&& 0x0FFF } (add16 y 2)))
    else if t < 0x4000 then do
      let m ← dtkDecodeKeyword m t
      .ok (some (.main m (add16 y 2)))
    else if t < 0xC000 then do
      let a := 2 * (t - 0x4000) % 0x10000
      let shift := m.dConstantShift
      let m ← convertToStringAlreadyAllocated fuel { m with dConstantShift := shift / 2 }
        (a / 2 + (shift % 2) * 0x8000, shift / 2) 10
      .ok (some (.main { m with dConstantShift := 0 } (add16 y 2)))
    else .ok (some (.identifier t m y))
  | .identifier token m y =>
    let m := dtkiDecodeToken m (m.bank.word y)
    if m.bank.word y &&& idContMask ≠ 0 then .ok (some (.identifier token m (add16 y 2)))
    else .ok (some (.main (dtkiSuffix m token) (add16 y 2)))

/-- The round from `s` leads to `s'`. -/
def dtkNext (s s' : DtkState) : Prop := Settles (fun fuel => dtkStep fuel s) (.ok (some s'))

/-- The listing that is in the state `s` ends in `r`. -/
def DtkState.Ends (r : Result Machine) : DtkState → Prop
  | .main m y => Settles (fun fuel => dtkMainLoop fuel m y) r
  | .identifier token m y => ∃ y' m', Settles (fun fuel => dtkiLoop fuel m y) (.ok (y', m')) ∧
    Settles (fun fuel => dtkMainLoop fuel (dtkiSuffix m' token) y') r

section

variable {m m₁ m₂ : Machine} {p t y n fuel : ℕ} {s cs ts : List ℕ} {r : Result Machine}

theorem dtkMainLoop_succ : dtkMainLoop (fuel + 1) m y =
    dtkStep fuel (.main m y) >>= fun s => s.elim (.ok m) fun
      | .main m y => dtkMainLoop fuel m y
      | .identifier _ m y => dtkIdentifier fuel m y >>= fun r => dtkMainLoop fuel r.2 r.1 := by
  rw [dtkMainLoop, dtkStep]
  dsimp only
  split_ifs
  · rfl
  · rfl
  · rfl
  · cases dtkDecodeKeyword m (m.bank.word y) <;> rfl
  · cases convertToStringAlreadyAllocated fuel { m with dConstantShift := m.dConstantShift / 2 }
      (2 * (m.bank.word y - 0x4000) % 0x10000 / 2 + (m.dConstantShift % 2) * 0x8000,
        m.dConstantShift / 2) 10 <;> rfl
  · rfl

theorem dtkiLoop_succ : dtkiLoop (fuel + 1) m y =
    if (dtkiDecodeToken m (m.bank.word y)).bank.word y &&& idContMask ≠ 0 then
      dtkiLoop fuel (dtkiDecodeToken m (m.bank.word y)) (add16 y 2)
    else .ok (add16 y 2, dtkiDecodeToken m (m.bank.word y)) := rfl

/-- **The loops of the listing make these rounds.** -/
theorem dtkNext_ends {s s' : DtkState} (h : dtkNext s s') (hr : s'.Ends r) : s.Ends r := by
  cases s with
  | main m y =>
    -- the state behind the round, run by the main loop
    have hrun : Settles (fun fuel => dtkStep fuel (.main m y) >>= fun s => s.elim (.ok m) fun
        | .main m y => dtkMainLoop fuel m y
        | .identifier _ m y => dtkIdentifier fuel m y >>= fun r => dtkMainLoop fuel r.2 r.1) r := by
      refine h.bind ?_
      cases s' with
      | main m' y' => exact hr
      | identifier token m' y' =>
        obtain ⟨y'', m'', hloop, hmain⟩ := hr
        have htoken : token = m'.bank.word y' := by
          obtain ⟨k, hk⟩ := h.exists_fuel
          unfold dtkStep at hk
          dsimp only at hk
          split_ifs at hk
          · cases hk
          · cases hk
          · cases hk
          · cases hd : dtkDecodeKeyword m (m.bank.word y) with
            | error e => rw [hd] at hk; cases hk
            | ok m => rw [hd] at hk; cases hk
          · obtain ⟨m', -, hm⟩ := Except.bind_eq_ok.mp hk
            cases hm
          · cases hk
            rfl
        subst htoken
        exact (hloop.bind (.of_forall fun k => rfl)).bind hmain
    exact Settles.unfold hrun fun fuel => dtkMainLoop_succ
  | identifier token m y =>
    obtain ⟨k, hk⟩ := h.exists_fuel
    unfold dtkStep at hk
    dsimp only at hk
    split_ifs at hk with hmore
    · cases hk
      obtain ⟨y', m', hloop, hmain⟩ := hr
      exact ⟨y', m', hloop.unfold fun fuel => by rw [dtkiLoop_succ, if_pos hmore], hmain⟩
    · cases hk
      exact ⟨_, _, Settles.succ (.of_forall fun fuel => by rw [dtkiLoop_succ, if_neg hmore]), hr⟩

/-- The words of an identifier. By induction on the words. -/
theorem dtkVisits_codes (isString isArray : Bool) (token : ℕ) {m₁ : Machine} {y : ℕ}
    {s cs : List ℕ} (hcs : cs ≠ []) (hcode : ∀ c ∈ cs, IsCode c) (h : m.Expanded p t s m₁)
    (hw : m.bank.WordsAt y (identWords isString isArray (padEven cs)))
    (hy : y + 2 * (identWords isString isArray (padEven cs)).length ≤ p)
    (hroom : s.length + cs.length ≤ t) (hp : p + t + 1 < 0x10000) :
    ∃ m' ks, m.Expanded p t (s ++ cs.flatMap decodeC) m' ∧
      TokensAt n y (identWords isString isArray (padEven cs)) ks ∧
      Visits dtkNext DtkState.position (.identifier token m₁ y) (ks.map Located.address)
        (.main (dtkiSuffix m' token)
          (y + 2 * (identWords isString isArray (padEven cs)).length)) := by
  match cs with
  | [a] =>
    have ha := hcode a (by simp)
    unfold IsCode at ha
    have hge := identWords_ge isString isArray (padEven [a])
    rw [identWords_single] at hw hy hge ⊢
    rw [List.length_singleton] at hy hroom
    have ha' := length_decodeC_le a
    obtain ⟨h₂, hmore⟩ := expanded_dtkiDecodeToken (b := 0) isString isArray false ha.2 (by decide) h
      (by simpa using hw.1) (by omega)
      (by rw [show decodeC 0 = [] from rfl, List.length_nil]; omega) hp
    have hstep : dtkNext (.identifier token m₁ y)
        (.main (dtkiSuffix (dtkiDecodeToken m₁ (m₁.bank.word y)) token) (y + 2)) := by
      refine .of_forall fun fuel => ?_
      rw [dtkStep]
      rw [if_neg (not_not.mpr (hmore.mpr rfl)), add16_eq (by omega)]
    refine ⟨_, [⟨_, y, n⟩], by simpa [decodeC] using h₂,
      .token ((by decide : 0x100 ≤ 0xC000).trans (hge _ (by simp))) .nil, ?_⟩
    exact .move hstep (Nat.ne_of_gt (Nat.lt_add_of_pos_right (by decide))) .here
  | a :: b :: cs =>
    have ha := hcode a (by simp)
    have hb := hcode b (by simp)
    unfold IsCode at ha hb
    have hge := identWords_ge isString isArray (padEven (a :: b :: cs))
    rw [identWords_cons_cons] at hw hy hge ⊢
    rw [List.length_cons] at hy ⊢
    rw [List.length_cons, List.length_cons] at hroom
    have ha' := length_decodeC_le a
    have hb' := length_decodeC_le b
    have hword := (by decide : 0x100 ≤ 0xC000).trans (hge _ (List.mem_cons_self ..))
    obtain ⟨h₂, hmore⟩ := expanded_dtkiDecodeToken isString isArray (cs ≠ []) ha.2 hb.2 h
      (by simpa using hw.1) (by omega) (by omega) hp
    have hne : y + 2 ≠ y := Nat.ne_of_gt (Nat.lt_add_of_pos_right (by decide))
    -- the continuation bit is set when there are more characters
    by_cases hc : cs = []
    · subst hc
      have hstep : dtkNext (.identifier token m₁ y)
          (.main (dtkiSuffix (dtkiDecodeToken m₁ (m₁.bank.word y)) token) (y + 2)) := by
        refine .of_forall fun fuel => ?_
        rw [dtkStep]
        rw [if_neg (not_not.mpr (hmore.mpr (by simp))), add16_eq (by omega)]
      exact ⟨_, [⟨_, y, n⟩], by simpa using h₂, .token hword .nil, .move hstep hne .here⟩
    · have hstep : dtkNext (.identifier token m₁ y)
          (.identifier token (dtkiDecodeToken m₁ (m₁.bank.word y)) (y + 2)) := by
        refine .of_forall fun fuel => ?_
        rw [dtkStep]
        rw [if_pos (fun h0 => by simpa [hc] using hmore.mp h0), add16_eq (by omega)]
      have hlen : (s ++ decodeC a ++ decodeC b).length ≤ s.length + 2 := by
        rw [List.length_append, List.length_append]
        omega
      obtain ⟨m₃, ks, h₃, hks, hvisits⟩ := dtkVisits_codes isString isArray token hc
        (fun c hc => hcode c (by simp [hc])) h₂ hw.2 (by omega) (by omega) hp
      refine ⟨m₃, ⟨_, y, n⟩ :: ks, by simpa using h₃, .token hword hks, ?_⟩
      rw [show y + 2 * ((identWords isString isArray (padEven cs)).length + 1) =
        y + 2 + 2 * (identWords isString isArray (padEven cs)).length by omega]
      exact .move hstep hne hvisits

/-- The rounds for the words of an item write its text. -/
theorem dtkVisits_item {i : Item} (hi : i.Valid) (hshift : m.dConstantShift = 0)
    (h : m.Expanded p t s m₁) (hs : s ≠ []) (hw : m.bank.WordsAt y i.words)
    (hy : y + 2 * i.words.length ≤ p)
    (hslack : (s ++ i.listed (s.getLastD 0)).length + i.slack ≤ t) (hp : p + t + 1 < 0x10000) :
    ∃ m' ks, m.Expanded p t (s ++ i.listed (s.getLastD 0)) m' ∧ TokensAt n y i.words ks ∧
      Visits dtkNext DtkState.position (.main m₁ y) (ks.map Located.address)
        (.main m' (y + 2 * i.words.length)) := by
  have hroom := (Nat.le_add_right _ _).trans hslack
  have hne : y + 2 ≠ y := Nat.ne_of_gt (Nat.lt_add_of_pos_right (by decide))
  cases i with
  | token t =>
    obtain ⟨k, hk, rfl⟩ := hi
    have hge := id_ge_of_mem k hk
    have hlt := id_lt_of_mem k hk
    have hone : 2 * (Item.token k.id).words.length = 2 := rfl
    rw [hone] at hy ⊢
    have hword : m₁.bank.word y = k.id := (h.word hy).trans hw.1
    obtain ⟨m₂, hrun, h₂⟩ := dtkDecodeKeyword_token hk h hs hp hroom
    have hstep : dtkNext (.main m₁ y) (.main m₂ (y + 2)) := by
      refine .of_forall fun fuel => ?_
      rw [dtkStep]
      dsimp only
      rw [hword, if_neg (by omega), if_neg (by omega), if_neg (by omega), if_pos (by omega), hrun,
        ok_bind, add16_eq (by omega)]
    exact ⟨m₂, [⟨k.id, y, n⟩], h₂, .token (by omega) .nil, .move hstep hne .here⟩
  | ident name isString isArray =>
    obtain ⟨hname, -⟩ := hi
    obtain ⟨c, r, rfl, -⟩ := hname.head
    have hcode : ∀ x ∈ (c :: r).map convert, IsCode x := fun x hx => by
      obtain ⟨y, hy, rfl⟩ := List.mem_map.mp hx
      exact convert_isCode (hname.chars y hy)
    simp only [Item.listed, List.length_append, List.length_map] at hroom
    -- the main loop does not move in front of an identifier
    obtain ⟨x, ws, more, hx, hwords⟩ := identWords_head isString isArray (by simp) hcode
    have hwords' : (Item.ident (c :: r) isString isArray).words = _ := hwords
    have hword : m₁.bank.word y = typeBits isString isArray + x + if more then 0x0800 else 0 := by
      rw [hwords', List.length_cons] at hy
      rw [hwords'] at hw
      exact (h.word (by omega)).trans hw.1
    obtain ⟨hge, -, -, harray, hstring⟩ := identWord_fields isString isArray more hx
    rw [← hword] at hge harray hstring
    have hstep : dtkNext (.main m₁ y) (.identifier (m₁.bank.word y) m₁ y) := by
      refine .of_forall fun fuel => ?_
      rw [dtkStep]
      dsimp only
      rw [if_neg (by omega), if_neg (by omega), if_neg (by omega), if_neg (by omega),
        if_neg (by omega)]
    obtain ⟨m₂, ks, h₂, hks, hvisits⟩ := dtkVisits_codes (n := n) isString isArray (m₁.bank.word y)
      (by simp) hcode h hw hy (by rw [List.length_map]; omega) hp
    rw [flatMap_decodeC hname.chars] at h₂
    have h₃ := expanded_dtkiSuffix isString isArray hstring harray h₂
      (by rw [List.length_append, List.length_map]; omega) hp
    exact ⟨_, ks, by simpa only [Item.listed, List.append_assoc] using h₃, hks,
      .stay hstep rfl hvisits⟩
  | const v =>
    have hv : v < 0x8000000 := hi
    simp only [Item.listed, Item.slack, List.length_append] at hslack
    obtain ⟨m₂, hrun, h₂⟩ := expanded_const hv hshift h (by omega) hp
    -- the word with the low bits, behind the shift
    have hlow : ∀ z, m.bank.word z = v % 0x8000 + 0x4000 → z + 2 ≤ p →
        dtkNext (.main { m₁ with dConstantShift := v / 0x8000 } z)
          (.main { m₂ with dConstantShift := 0 } (z + 2)) := by
      intro z hz hzp
      have hword : m₁.bank.word z = v % 0x8000 + 0x4000 := (h.word hzp).trans hz
      refine .of_le (n := 33) fun k hk => ?_
      rw [dtkStep]
      dsimp only
      rw [hword, if_neg (by omega), if_neg (by omega), if_neg (by omega), if_neg (by omega),
        if_pos (by omega),
        show 2 * (v % 0x8000 + 0x4000 - 0x4000) % 0x10000 / 2 = v % 0x8000 by omega, hrun k hk,
        ok_bind, add16_eq (by omega)]
    by_cases hlarge : 32768 ≤ v
    · have hwords : (Item.const v).words = [0x1000 + v / 0x8000, v % 0x8000 + 0x4000] := by
        rw [Item.words, constWords, if_pos hlarge, shift_eq hv]
        rfl
      rw [hwords] at hw hy ⊢
      simp only [List.length_cons, List.length_nil] at hy ⊢
      -- the shift word is kept until the low word comes
      have hword : m₁.bank.word y = 0x1000 + v / 0x8000 := (h.word (by omega)).trans hw.1
      have hbits : m₁.bank.word y &&& 0x0FFF = v / 0x8000 := by
        rw [hword]
        exact (Nat.and_two_pow_sub_one_eq_mod _ 12).trans (by omega)
      have hstep : dtkNext (.main m₁ y)
          (.main { m₁ with dConstantShift := v / 0x8000 } (y + 2)) := by
        refine .of_forall fun fuel => ?_
        rw [dtkStep]
        dsimp only
        rw [if_neg (by omega), if_neg (by omega), if_pos (by omega), hbits, add16_eq (by omega)]
      have hne' : y + 2 + 2 ≠ y + 2 := Nat.ne_of_gt (Nat.lt_add_of_pos_right (by decide))
      exact ⟨_, [⟨_, y, n⟩, ⟨_, y + 2, n⟩], h₂, .token (by omega) (.token (by omega) .nil),
        .move hstep hne (.move (hlow _ hw.2.1 (by omega)) hne' .here)⟩
    · have hwords : (Item.const v).words = [v % 0x8000 + 0x4000] := by
        rw [Item.words, constWords, if_neg hlarge]
        rfl
      rw [hwords] at hw hy ⊢
      simp only [List.length_cons, List.length_nil] at hy ⊢
      -- without a shift word the shift is still zero
      have hm : { m₁ with dConstantShift := v / 0x8000 } = m₁ := by
        rw [show v / 0x8000 = m₁.dConstantShift by rw [h.keeps.shift, hshift]; omega]
      have hstep := hlow y hw.1 (by omega)
      rw [hm] at hstep
      exact ⟨_, [⟨_, y, n⟩], h₂, .token (by omega) .nil, .move hstep hne .here⟩
  | string chars =>
    obtain ⟨h₂, hword, hpos, hlt⟩ := expanded_string hi h hw hy hroom hp
    have hy2 : m₁.bank.word y = m.bank.word y := h.word (by omega)
    have hstep : dtkNext (.main m₁ y) (.main
        (stringWriteCharacter (stringCreateCopy (stringWriteCharacter m₁ 34) (add16 y 2)) 34)
        (y + 2 * (Item.string chars).words.length)) := by
      refine .of_forall fun fuel => ?_
      rw [dtkStep]
      dsimp only
      rw [if_neg (by omega), if_pos (by omega), h₂.word (by omega), hword]
      rw [add16_eq (a := y) (b := 2 * (Item.string chars).words.length) (by omega)]
    have hcons : (Item.string chars).words = 2 * (Item.string chars).words.length ::
        (Item.string chars).words.tail := by
      refine (List.cons_head?_tail ?_).symm
      rw [← hword]
      exact congrArg some hw.1.symm
    have hbody : 2 * (Item.string chars).words.length =
        2 * ((Item.string chars).words.tail.length + 1) := by
      conv_lhs => rw [hcons]
      rfl
    refine ⟨_, [⟨2 * (Item.string chars).words.length, y, n⟩], h₂, ?_,
      .move hstep (Nat.ne_of_gt (Nat.lt_add_of_pos_right (by omega))) .here⟩
    have hstring : TokensAt n y (2 * (Item.string chars).words.length ::
        ((Item.string chars).words.tail ++ [])) [⟨_, y, n⟩] := .string hbody (by omega) .nil
    rwa [List.append_nil, ← hcons] at hstring

/-- **`_DTKMainLoop` passes the tokens** of the items that it expands. By induction on the items. -/
theorem dtkVisits_items {is : List Item} (his : ∀ i ∈ is, i.Valid) (hshift : m.dConstantShift = 0)
    (h : m.Expanded p t s m₁) (hs : s ≠ []) (hw : m.bank.WordsAt y (wordsOf is))
    (hy : y + 2 * (wordsOf is).length ≤ p) (hslack : (listItems s is).length + 1 ≤ t)
    (hp : p + t + 1 < 0x10000) :
    ∃ m' ks, m.Expanded p t (listItems s is) m' ∧ TokensAt n y (wordsOf is) ks ∧
      Visits dtkNext DtkState.position (.main m₁ y) (ks.map Located.address)
        (.main m' (y + 2 * (wordsOf is).length)) := by
  induction is generalizing m₁ s y with
  | nil => exact ⟨m₁, [], h, .nil, .here⟩
  | cons i is ih =>
    rw [wordsOf_cons, Memory.wordsAt_append] at hw
    rw [wordsOf_cons, List.length_append] at hy ⊢
    have hall : (listItems (s ++ i.listed (s.getLastD 0)) is).length + 1 ≤ t := hslack
    have hle := length_le_listItems (s ++ i.listed (s.getLastD 0)) is
    have hone := slack_le i
    obtain ⟨m₂, ks, h₂, hks, hvisits⟩ :=
      dtkVisits_item (n := n) (his i (by simp)) hshift h hs hw.1 (by omega) (by omega) hp
    obtain ⟨m₃, js, h₃, hjs, hrest⟩ := ih (fun j hj => his j (List.mem_cons_of_mem i hj)) h₂
      (by simp [hs]) hw.2 (by omega) hall
    refine ⟨m₃, ks ++ js, h₃, hks.append hjs, ?_⟩
    rw [List.map_append, Nat.mul_add, ← Nat.add_assoc]
    exact hvisits.trans hrest

/-- The text `s` is in the buffer at `b`, and `Detokenise` writes on behind it. -/
structure Machine.Writing (m : Machine) (b : ℕ) (s : List ℕ) : Prop where
  start : m.dStartTempString = b
  current : m.dCurrentTempString = (b + 1 + s.length) % 0x10000
  length : m.bank.byte b = s.length % 256
  chars : m.bank.BytesAt (b + 1) s
  shift : m.dConstantShift = 0

theorem Machine.Writing.expanded {b : ℕ} (h : m.Writing b s) (t : ℕ) : m.Expanded b t s m :=
  ⟨⟨⟨rfl, rfl, rfl, h.start, h.current, h.length, .refl _ _ _⟩, h.chars⟩, .refl⟩

/-- `_DTKMainLoop` passes the tokens, and comes to an end. -/
theorem dtkMainLoop_walks {is : List Item} {ks : List Located} {b : ℕ} (his : ∀ i ∈ is, i.Valid)
    (hk : TokensAt n p (wordsOf is) ks) (hw : m.bank.WordsAt p (wordsOf is ++ [0]))
    (h : m.Writing b s) (hs : s ≠ []) (hline : p + 2 * (wordsOf is).length + 2 ≤ b)
    (hroom : b + (listItems s is).length + 2 < 0x10000) :
    StopsBehind dtkNext DtkState.position (.main m p) (ks.map Located.address)
        (p + 2 * (wordsOf is).length) ∧
      ∃ m', Settles (fun fuel => dtkMainLoop fuel m p) (.ok m') := by
  obtain ⟨hwords, hzero, -⟩ := Memory.wordsAt_append.mp hw
  obtain ⟨m', js, hexp, hjs, hvisits⟩ := dtkVisits_items (n := n) his h.shift
    (h.expanded ((listItems s is).length + 1)) hs hwords (by omega) (Nat.le_refl _) (by omega)
  obtain rfl := hk.unique hjs
  have hend : m'.bank.word (p + 2 * (wordsOf is).length) = 0 := (hexp.word (by omega)).trans hzero
  have hstop : ∀ fuel, dtkStep fuel (.main m' (p + 2 * (wordsOf is).length)) = .ok none := by
    intro fuel
    exact if_pos hend
  refine ⟨⟨_, hvisits, rfl, fun s' hs' => ?_⟩, m', ?_⟩
  · cases (Settles.of_forall hstop).unique hs'
  · refine hvisits.reflects (P := DtkState.Ends (.ok m')) (fun s s' h hr => dtkNext_ends h hr) ?_
    refine Settles.succ (.of_forall fun fuel => ?_)
    rw [dtkMainLoop_succ, hstop]
    rfl

end

/-! ## All walkers -/

section

variable {m : Machine} {p : ℕ} {ts : List ℕ}

/-- **The walkers agree** on every line of a tokeniser, wherever it is stored. They pass the addresses
of its tokens, none of which is inside a string, and come to its terminator; the scanner does so
unless it ends its search at a token, and the string constant of `EvaluateLevel` skips to the next
token. `Detokenise` has its buffer behind the line, and room for the text in it. The rounds in which
the addresses are passed are those of the loops, as the equation of each loop says. -/
theorem walkers_agree (hts : Tokenised ts) (hw : m.bank.WordsAt p (ts ++ [0]))
    (hend : p + 2 * ts.length < 0x10000) (n : ℕ) :
    ∃ is ks, (∀ i ∈ is, i.Valid) ∧ ts = wordsOf is ∧ TokensAt n p ts ks ∧
      m.bank.word (p + 2 * ts.length) = 0 ∧
      (∀ k ∈ ks, ∀ j ∈ ks, ¬(k.address < j.address ∧ j.address < k.address + tokenSize k.word)) ∧
      ((∀ fuel m y, liFindLength (fuel + 1) m y = (liStep m y).elim (.ok y) (liFindLength fuel m)) ∧
        StopsBehind (fun y y' => liStep { m with dTemp1 := p } y = some y') (fun y => p + y) 0
          (ks.map Located.address) (p + 2 * ts.length) ∧
        Settles (fun fuel => liFindLength fuel { m with dTemp1 := p } 0) (.ok (2 * ts.length))) ∧
      ((∀ fuel m, fifEndOfLine (fuel + 1) m = (fifStep m).elim (.ok m) (fifEndOfLine fuel)) ∧
        StopsBehind (fun m m' => fifStep m = some m') Machine.dCodePtr { m with dCodePtr := p }
          (ks.map Located.address) (p + 2 * ts.length) ∧
        Settles (fun fuel => fifEndOfLine fuel { m with dCodePtr := p })
          (.ok { m with dCodePtr := p + 2 * ts.length })) ∧
      ((∀ fuel m y, siLoop (fuel + 1) m y =
          (siStep m y).elim (.ok m) fun s => siLoop fuel s.1 s.2) ∧
        StopsBehind (fun s s' => siStep s.1 s.2 = some s') Prod.snd (m, p)
          (ks.map Located.address) (p + 2 * ts.length) ∧
        ∃ d, Settles (fun fuel => siLoop fuel m p) (.ok { m with dIndent := d })) ∧
      (∀ fuel m y, dtkMainLoop (fuel + 1) m y = dtkStep fuel (.main m y) >>= fun s => s.elim (.ok m)
        fun
        | .main m y => dtkMainLoop fuel m y
        | .identifier _ m y => dtkIdentifier fuel m y >>= fun r => dtkMainLoop fuel r.2 r.1) ∧
      (∀ s s' r, dtkNext s s' → s'.Ends r → s.Ends r) ∧
      (∀ b s, s ≠ [] → m.Writing b s → p + 2 * ts.length + 2 ≤ b →
        b + (listItems s is).length + 2 < 0x10000 →
        StopsBehind dtkNext DtkState.position (.main m p) (ks.map Located.address)
            (p + 2 * ts.length) ∧
          ∃ m', Settles (fun fuel => dtkMainLoop fuel m p) (.ok m')) ∧
      (∀ a b line fuel m x, sflLoop a b line (fuel + 1) m x = match sflStep a b line m x with
        | .inl r => r
        | .inr (m', x') => sflLoop a b line fuel m' x') ∧
      (∀ a b line x, ∃ us vs m' x', ks = us ++ vs ∧
        Visits (fun s s' => sflStep a b line s.1 s.2 = .inr s') (fun s => s.1.dCodePtr)
          ({ m with dCodePtr := p }, x) (us.map Located.address) (m', x') ∧
        m'.dCodePtr = (vs.map Located.address).headD (p + 2 * ts.length) ∧
        (vs = [] ∨ ∃ r, sflStep a b line m' x' = .inl r)) ∧
      ∀ us k vs, ks = us ++ k :: vs → k.word < 0x100 → ∀ x,
        ∃ m', elStringConstant { m with dCodePtr := k.address } x = .ok m' ∧
          m'.dCodePtr = (vs.map Located.address).headD (p + 2 * ts.length) := by
  obtain ⟨is, his, rfl⟩ := hts.items
  obtain ⟨ks, hk⟩ := (tokenLine_wordsOf his).located n p
  obtain ⟨hwords, hzero, -⟩ := Memory.wordsAt_append.mp hw
  refine ⟨is, ks, his, rfl, hk, hzero, hk.outside.2,
    ⟨fun _ _ _ => liFindLength_succ, liFindLength_walks hk hw hend⟩,
    ⟨fun _ _ => fifEndOfLine_succ, fifEndOfLine_walks hk hw hend⟩,
    ⟨fun _ _ _ => siLoop_succ, siLoop_walks hk hw hend⟩, fun _ _ _ => dtkMainLoop_succ,
    fun _ _ _ => dtkNext_ends, ?_, fun _ _ _ _ _ _ => sflLoop_succ, ?_, ?_⟩
  · intro b s hs hwriting hline hroom
    exact dtkMainLoop_walks his hk hw hwriting hs hline hroom
  · intro a b line x
    exact sflLoop_walks (m := { m with dCodePtr := p }) a b line hk hwords hend rfl x
  · intro us k vs hks hstring x
    exact elStringConstant_skips hk hwords hend hks hstring x

/-- `print`, a string of three zero bytes, `: endif`: the walks do not end at the zero word in the
body of the string. -/
theorem walkers_agree_zeros : ∃ m : Machine,
    m.bank.WordsAt 0x4100 [0x3E35, 6, 3, 0, 0x3226, 0x3A4C, 0] ∧
    Settles (fun fuel => liFindLength fuel { m with dTemp1 := 0x4100 } 0) (.ok 12) ∧
    Settles (fun fuel => fifEndOfLine fuel { m with dCodePtr := 0x4100 })
      (.ok { m with dCodePtr := 0x410C }) := by
  have hts : Tokenised [0x3E35, 6, 3, 0, 0x3226, 0x3A4C] :=
    .builder (s := ord "print" ++ [34, 0, 0, 0, 34] ++ ord ":endif") (by decide) (by rfl)
  have hw : (commandMachine [0x3E35, 6, 3, 0, 0x3226, 0x3A4C, 0]).bank.WordsAt 0x4100
      ([0x3E35, 6, 3, 0, 0x3226, 0x3A4C] ++ [0]) := by
    refine ⟨?_, ?_, ?_, ?_, ?_, ?_, ?_, trivial⟩
    all_goals rfl
  obtain ⟨is, ks, -, -, -, -, -, ⟨-, -, hlength⟩, ⟨-, -, hskip⟩, -⟩ := walkers_agree hts hw (by decide) 0
  exact ⟨_, hw, hlength, hskip⟩

end

end Basic65816
