import Basic65816.Semantics.ForLoop

/-!
# Structured programs are executed according to their meaning

The interpreter has no syntax tree: the structures live on its stack and in the tokens that it scans.
A text of a structured statement nevertheless leads from the variables in front of it to those that
the meaning of the statement says, with the stack as it was.

## Main definitions

* `Stmt.Site`: where a statement can stand
* `Stmt.Simulated`: the rounds over a text lead where the meaning of the statement leads

## Main results

* `Stmt.Laid.simulated`: every text of a statement is simulated
-/

namespace Basic65816

open Relation Structured

namespace Stmt

/-- The conditions on the place between `p` and `q` where a statement stands. -/
structure Site (s : Stmt) (h : Host) (fs : List StackFrame) (p q : ℕ) : Prop where
  lo : h.lo ≤ p
  hi : q + 2 ≤ h.hi
  follows : Follows s.endsLine (h.memory.word q)
  names : ∀ x ∈ s.targets, x ∈ h.names
  space : basStack + sizeOfFrames fs + s.depth < 0x200

/-- **Simulation**: from the front of the text the interpreter comes to its end, with the variables that
the meaning of the statement leads to. -/
def Simulated (s : Stmt) (cs : List (Option ℕ)) : Prop :=
  ∀ ⦃h : Host⦄ ⦃m : Machine⦄ ⦃σ σ' : Environment⦄ ⦃fs : List StackFrame⦄ ⦃p n q k : ℕ⦄,
    m.Executes h σ fs p n → h.Code p n cs q k → s.Site h fs p q → s.Exec σ σ' →
      ∃ m', Reaches m m' ∧ m'.Executes h σ' fs q k

section

variable {h : Host} {m : Machine} {σ σ' : Environment} {fs : List StackFrame} {s t : Stmt}
  {cs ds g g' : List (Option ℕ)} {p n q k r j a u : ℕ} {c : Expr} {line : Bool}

theorem Follows.keyword (h : 0x3000 ≤ u ∧ u < 0x4000 ∧ u ≠ thenTokenID ∧ u ≠ stepTokenID) :
    Follows false u := ⟨.inr h, fun h => by cases h⟩

theorem Follows.of_zero (h : u = 0) : Follows line u := ⟨.inl h, fun _ => h⟩

/-- The word in front of colons and line ends. -/
theorem Gap.follows_of_ne (hg : Gap line g) (hne : g ≠ []) (hcode : h.Code p n (g ++ ds) q k) :
    Follows line (h.memory.word p) := by
  cases g with
  | nil => exact absurd rfl hne
  | cons c g =>
    have hword : h.memory.word p = c.getD 0 := CodeAt.word hcode
    rcases hg.items c (by simp) with rfl | rfl
    · exact .of_zero hword
    · rw [hword]
      refine ⟨.inr ⟨by decide, by decide, by decide, by decide⟩, fun hline => ?_⟩
      cases hg.first hline

theorem Gap.follows (hg : Gap line g) (hcode : h.Code p n g q k)
    (hf : Follows false (h.memory.word q)) : Follows line (h.memory.word p) := by
  cases g with
  | nil =>
    cases hcode
    exact ⟨hf.word, fun hline => by cases hg.first hline⟩
  | cons c g =>
    rw [← List.append_nil (c :: g)] at hcode
    exact hg.follows_of_ne (List.cons_ne_nil c g) hcode

/-- A statement with its separators. -/
theorem Simulated.block (hs : s.Simulated cs) (hg : Gap false g) (hg' : Gap s.endsLine g')
    (e : m.Executes h σ fs p n) (hcode : h.Code p n (g ++ (cs ++ g')) q k) (hp : h.lo ≤ p)
    (hq : q + 2 ≤ h.hi) (hf : Follows false (h.memory.word q)) (hnames : ∀ x ∈ s.targets, x ∈ h.names)
    (hspace : basStack + sizeOfFrames fs + s.depth < 0x200) (hσ : s.Exec σ σ') :
    ∃ m', Reaches m m' ∧ m'.Executes h σ' fs q k := by
  obtain ⟨p₁, n₁, hcode₁, hcode⟩ := hcode.split
  obtain ⟨p₂, n₂, hcode₂, hcode₃⟩ := hcode.split
  have hle₁ := hcode₁.le.1
  have hle₃ := hcode₃.le.1
  obtain ⟨m₁, hreach₁, e₁⟩ := e.gap hcode₁ hg
  obtain ⟨m₂, hreach₂, e₂⟩ := hs e₁ hcode₂
    ⟨by omega, by omega, hg'.follows hcode₃ hf, hnames, hspace⟩ hσ
  obtain ⟨m₃, hreach₃, e₃⟩ := e₂.gap hcode₃ hg'
  exact ⟨m₃, (hreach₁.trans hreach₂).trans hreach₃, e₃⟩

/-- The text between two keywords of a structure. -/
theorem split_block (hcode : h.Code p n (g ++ (cs ++ (g' ++ ds))) q k) :
    ∃ r j, h.Code p n (g ++ (cs ++ g')) r j ∧ h.Code r j ds q k := by
  rw [← List.append_assoc cs, ← List.append_assoc g] at hcode
  exact hcode.split

theorem skims_block {a b : ℕ} (hs : s.Laid cs) (hn : s.Numeric) (hg : Gap false g)
    (hg' : Gap s.endsLine g') (ha : Sought a) (hb : Sought b)
    (hcode : h.Code p n (g ++ (cs ++ g')) q k) :
    Basic65816.skims a b 0 (g ++ (cs ++ g')) = some 0 := by
  rw [skims_then (hg.skims ha hb), skims_then (hs.skims hn ha hb fun t ht => ?_)]
  · exact hg'.skims ha hb
  · exact hcode.lt t (by simp [ht])

/-- The first token of a statement is no constant. -/
theorem Laid.head (h : s.Laid cs) (hs : s.Numeric) :
    ∃ t, cs.head? = some (some t) ∧ (t < 0x4000 ∨ 0xC000 ≤ t) := by
  induction h with
  | assign word hword =>
    obtain ⟨u, us, rfl, hu, -⟩ := hs.1.ident.head
    rcases hword with rfl | rfl
    · exact ⟨u, rfl, .inr (by omega)⟩
    · exact ⟨letTokenID, rfl, .inl (by decide)⟩
  | seq _ _ _ _ ih =>
    obtain ⟨t, ht, hlt⟩ := ih hs.1
    refine ⟨t, ?_, hlt⟩
    rw [List.head?_append, ht]
    rfl
  | ifThen => exact ⟨ifTokenID, rfl, .inl (by decide)⟩
  | ifElse => exact ⟨ifTokenID, rfl, .inl (by decide)⟩
  | ifLine => exact ⟨ifTokenID, rfl, .inl (by decide)⟩
  | whileLoop => exact ⟨whileTokenID, rfl, .inl (by decide)⟩
  | repeatLoop => exact ⟨repeatTokenID, rfl, .inl (by decide)⟩
  | forLoop => exact ⟨forTokenID, rfl, .inl (by decide)⟩

theorem sizeOfFrames_cons (fs : List StackFrame) (f : StackFrame) :
    sizeOfFrames (f :: fs) = f.size + sizeOfFrames fs := by
  unfold sizeOfFrames
  rw [List.map_cons, List.sum_cons]

/-! ## The statements -/

theorem simulated_assign {name : List ℕ} {word : List ℕ} (hname : Scalar name) (hc : Integer c)
    (hword : word = [] ∨ word = [letTokenID]) :
    (assign name c).Simulated ((word ++ (name ++ equalTokenID :: c.tokens)).map some) := by
  intro h m σ σ' fs p n q k e hcode hsite hσ
  obtain ⟨m', hstep, e'⟩ := e.assign hname hc hword hsite.lo hcode hsite.hi (hsite.follows.stops 0)
    (hsite.names name (List.mem_singleton_self name)) hσ (e.inSpace hsite.space).near
  exact ⟨m', .single hstep, e'⟩

theorem Simulated.seq (hs : s.Simulated cs) (hg : Gap s.endsLine g) (hne : g ≠ [])
    (ht : t.Simulated ds) : (seq s t).Simulated (cs ++ (g ++ ds)) := by
  rintro h m σ σ' fs p n q k e hcode ⟨hp, hq, hf, hnames, hspace⟩ ⟨σ₁, hσ₁, hσ₂⟩
  change _ + max s.depth t.depth < _ at hspace
  obtain ⟨p₁, n₁, hcode₁, hcode⟩ := hcode.split
  obtain ⟨p₂, n₂, hcode₂, hcode₃⟩ := hcode.split
  have hle₁ := hcode₁.le.1
  have hle₂ := hcode₂.le.1
  have hle₃ := hcode₃.le.1
  obtain ⟨m₁, hreach₁, e₁⟩ := hs e hcode₁ ⟨hp, by omega, hg.follows_of_ne hne hcode,
    fun x hx => hnames x (List.mem_append_left _ hx), by omega⟩ hσ₁
  obtain ⟨m₂, hreach₂, e₂⟩ := e₁.gap hcode₂ hg
  obtain ⟨m₃, hreach₃, e₃⟩ := ht e₂ hcode₃ ⟨by omega, hq, hf,
    fun x hx => hnames x (List.mem_append_right _ hx), by omega⟩ hσ₂
  exact ⟨m₃, (hreach₁.trans hreach₂).trans hreach₃, e₃⟩

theorem Simulated.ifThen (hs : s.Simulated cs) (hlaid : s.Laid cs) (hn : s.Numeric) (hc : Integer c)
    (hg : Gap false g) (hne : g ≠ []) (hg' : Gap s.endsLine g') :
    (ifThen c s).Simulated ((ifTokenID :: c.tokens).map some ++
      (g ++ (cs ++ (g' ++ [some endifTokenID])))) := by
  rintro h m σ σ' fs p n q k e hcode ⟨hp, hq, hf, hnames, hspace⟩ ⟨b, hb, hσ⟩
  change _ + (2 + s.depth) < _ at hspace
  have hcond : basStack + sizeOfFrames (.cond :: fs) + s.depth < 0x200 := by
    rw [sizeOfFrames_cons]
    change basStack + (2 + _) + _ < _
    omega
  obtain ⟨p₁, n₁, hcode₁, hcode⟩ := hcode.split
  have hf₁ := hg.follows_of_ne hne hcode
  obtain ⟨p₂, n₂, hcode₂, hcode₃⟩ := split_block hcode
  have hle₁ := hcode₁.le.1
  have hle₂ := hcode₂.le.1
  cases hcode₃ with
  | token hlo hhi hword _ hnil =>
  cases hnil
  cases b with
  | true =>
    obtain ⟨m₁, hstep₁, e₁⟩ := e.ifOpen hc hcode₁ (by omega) hf₁ hb (by omega)
    obtain ⟨m₂, hreach₂, e₂⟩ := hs.block hg hg' e₁ hcode₂ (by omega) hhi
      (hword ▸ .keyword (by decide)) hnames hcond hσ
    obtain ⟨m₃, hstep₃, e₃⟩ := e₂.endif hlo hhi hword (by omega)
    exact ⟨m₃, .head hstep₁ (hreach₂.tail hstep₃), e₃⟩
  | false =>
    obtain rfl := hσ
    obtain ⟨m₁, hstep₁, e₁⟩ := e.ifSkip hc hcode₁ (by omega) hf₁ hb (by omega) hcode₂
      (skims_block hlaid hn hg hg' (by decide) (by decide) hcode₂) hhi hword (.inr rfl)
    exact ⟨m₁, .single hstep₁, e₁⟩

theorem Simulated.ifElse {g₁ g₁' : List (Option ℕ)} (hs : s.Simulated cs) (ht : t.Simulated ds)
    (hs' : s.Laid cs) (ht' : t.Laid ds) (hns : s.Numeric) (hnt : t.Numeric) (hc : Integer c)
    (hg : Gap false g) (hne : g ≠ []) (hg' : Gap s.endsLine g') (hg₁ : Gap false g₁)
    (hg₁' : Gap t.endsLine g₁') :
    (ifElse c s t).Simulated ((ifTokenID :: c.tokens).map some ++
      (g ++ (cs ++ (g' ++ (some elseTokenID :: (g₁ ++ (ds ++ (g₁' ++ [some endifTokenID])))))))) := by
  rintro h m σ σ' fs p n q k e hcode ⟨hp, hq, hf, hnames, hspace⟩ ⟨b, hb, hσ⟩
  change _ + (2 + max s.depth t.depth) < _ at hspace
  have hsize := sizeOfFrames_cons fs .cond
  change _ = 2 + _ at hsize
  obtain ⟨p₁, n₁, hcode₁, hcode⟩ := hcode.split
  have hf₁ := hg.follows_of_ne hne hcode
  obtain ⟨p₂, n₂, hcode₂, hcode₃⟩ := split_block hcode
  have hle₁ := hcode₁.le.1
  have hle₂ := hcode₂.le.1
  cases hcode₃ with
  | token hlo hhi hword _ hcode₃ =>
  obtain ⟨p₃, n₃, hcode₃, hcode₄⟩ := split_block hcode₃
  have hle₃ := hcode₃.le.1
  cases hcode₄ with
  | token hlo' hhi' hword' _ hnil =>
  cases hnil
  cases b with
  | true =>
    -- the scanner passes over the other branch
    obtain ⟨m₁, hstep₁, e₁⟩ := e.ifOpen hc hcode₁ (by omega) hf₁ hb (by omega)
    obtain ⟨m₂, hreach₂, e₂⟩ := hs.block hg hg' e₁ hcode₂ (by omega) hhi
      (hword ▸ .keyword (by decide)) (fun x hx => hnames x (List.mem_append_left _ hx)) (by omega) hσ
    obtain ⟨m₃, hstep₃, e₃⟩ := e₂.else hlo hword hcode₃
      (skims_block ht' hnt hg₁ hg₁' (by decide) (by decide) hcode₃) hhi' hword' (by omega)
    exact ⟨m₃, .head hstep₁ (hreach₂.tail hstep₃), e₃⟩
  | false =>
    obtain ⟨m₁, hstep₁, e₁⟩ := e.ifSkip hc hcode₁ (by omega) hf₁ hb (by omega) hcode₂
      (skims_block hs' hns hg hg' (by decide) (by decide) hcode₂) hhi hword (.inl rfl)
    rw [if_neg (by decide)] at e₁
    obtain ⟨m₂, hreach₂, e₂⟩ := ht.block hg₁ hg₁' e₁ hcode₃ (by omega) hhi'
      (hword' ▸ .keyword (by decide)) (fun x hx => hnames x (List.mem_append_right _ hx)) (by omega) hσ
    obtain ⟨m₃, hstep₃, e₃⟩ := e₂.endif hlo' hhi' hword' (by omega)
    exact ⟨m₃, .head hstep₁ (hreach₂.tail hstep₃), e₃⟩

theorem Simulated.ifLine (hs : s.Simulated cs) (hlaid : s.Laid cs) (hn : s.Numeric) (hc : Integer c)
    (hg : ∀ i ∈ g, i = some colonTokenID) (hcs : none ∉ cs) :
    (ifLine c s).Simulated ((ifTokenID :: (c.tokens ++ [thenTokenID])).map some ++ (g ++ cs)) := by
  rintro h m σ σ' fs p n q k e hcode ⟨hp, hq, hf, hnames, hspace⟩ ⟨b, hb, hσ⟩
  change _ + s.depth < _ at hspace
  have hzero := hf.zero rfl
  obtain ⟨p₁, n₁, hcode₁, hcode⟩ := hcode.split
  obtain ⟨p₂, n₂, hcode₂, hcode₃⟩ := hcode.split
  have hle₁ := hcode₁.le.1
  have hle₂ := hcode₂.le.1
  have hle₃ := hcode₃.le.1
  cases b with
  | true =>
    have hgoto : h.memory.word p₁ < 0x4000 ∨ 0xC000 ≤ h.memory.word p₁ := by
      cases g with
      | nil =>
        obtain ⟨u, hu, hlt⟩ := hlaid.head hn
        obtain ⟨ds, rfl⟩ := List.head?_eq_some_iff.mp hu
        have hword : h.memory.word p₁ = u := CodeAt.word hcode
        rwa [hword]
      | cons i g =>
        have hword : h.memory.word p₁ = i.getD 0 := CodeAt.word hcode
        rw [hword, hg i (by simp)]
        exact .inl (by decide)
    obtain ⟨m₁, hstep₁, e₁⟩ := e.ifThen hc hcode₁ (by omega) hgoto hb (by omega)
    obtain ⟨m₂, hreach₂, e₂⟩ := e₁.gap hcode₂ (.colons hg)
    obtain ⟨m₃, hreach₃, e₃⟩ := hs e₂ hcode₃ ⟨by omega, hq, .of_zero hzero, hnames, hspace⟩ hσ
    exact ⟨m₃, .head hstep₁ (hreach₂.trans hreach₃), e₃⟩
  | false =>
    obtain rfl := hσ
    obtain ⟨ts, hts⟩ : g ++ cs ∈ Set.range (List.map (some : ℕ → Option ℕ)) := by
      rw [Set.range_list_map]
      intro x hx
      cases x with
      | some t => exact ⟨t, rfl⟩
      | none =>
        rcases List.mem_append.mp hx with hx | hx
        · cases hg none hx
        · exact absurd hx hcs
    rw [← hts] at hcode
    obtain ⟨m₁, hstep₁, e₁⟩ := e.ifElseLine hc hcode₁ hcode hq hzero hb (by omega)
    exact ⟨m₁, .single hstep₁, e₁⟩

/-- **`while`.** By induction on the rounds: each one leads back to the `while`. -/
theorem Simulated.while (hs : s.Simulated cs) (hlaid : s.Laid cs) (hn : s.Numeric) (hc : Integer c)
    (hg : Gap false g) (hne : g ≠ []) (hg' : Gap s.endsLine g') :
    (whileLoop c s).Simulated ((whileTokenID :: c.tokens).map some ++
      (g ++ (cs ++ (g' ++ [some wendTokenID])))) := by
  rintro h m σ σ' fs p n q k e hcode ⟨hp, hq, hf, hnames, hspace⟩ hσ
  change _ + (6 + s.depth) < _ at hspace
  have hsize := sizeOfFrames_cons fs (.block .while p n)
  change _ = 6 + _ at hsize
  obtain ⟨p₁, n₁, hcode₁, hcode⟩ := hcode.split
  have hf₁ := hg.follows_of_ne hne hcode
  obtain ⟨p₂, n₂, hcode₂, hcode₃⟩ := split_block hcode
  have hle₁ := hcode₁.le.1
  have hle₂ := hcode₂.le.1
  cases hcode₃ with
  | token hlo hhi hword _ hnil =>
  cases hnil
  have hnumber := e.number
  change While (test c) s.Exec σ σ' at hσ
  induction hσ generalizing m with
  | done ht =>
    obtain ⟨m₁, hstep₁, e₁⟩ := e.whileSkip hc hcode₁ (by omega) hf₁ ht (by omega) hcode₂
      (skims_block hlaid hn hg hg' (by decide) (by decide) hcode₂) hhi hword
    exact ⟨m₁, .single hstep₁, e₁⟩
  | again ht hb _ ih =>
    obtain ⟨m₁, hstep₁, e₁⟩ := e.whileOpen hc hcode₁ (by omega) hf₁ ht (by omega)
    obtain ⟨m₂, hreach₂, e₂⟩ := hs.block hg hg' e₁ hcode₂ (by omega) hhi
      (hword ▸ .keyword (by decide)) hnames (by omega) hb
    obtain ⟨m₃, hstep₃, e₃⟩ := e₂.wend hlo hhi hword hnumber (by omega)
    obtain ⟨m', hreach, e'⟩ := ih e₃
    exact ⟨m', .head hstep₁ ((hreach₂.tail hstep₃).trans hreach), e'⟩

/-- **`repeat`.** By induction on the rounds: each one leads back behind the `repeat`. -/
theorem Simulated.repeat (hs : s.Simulated cs) (hc : Integer c) (hg : Gap false g)
    (hg' : Gap s.endsLine g') :
    (repeatLoop s c).Simulated (some repeatTokenID ::
      (g ++ (cs ++ (g' ++ (untilTokenID :: c.tokens).map some)))) := by
  rintro h m σ σ' fs p n q k e hcode ⟨hp, hq, hf, hnames, hspace⟩ hσ
  change _ + (6 + s.depth) < _ at hspace
  have hsize := sizeOfFrames_cons fs (.block .repeat (p + 2) n)
  change _ = 6 + _ at hsize
  cases hcode with
  | token hlo hhi hword _ hcode =>
  obtain ⟨p₂, n₂, hcode₂, hcode₃⟩ := split_block hcode
  have hle₂ := hcode₂.le.1
  have hbounds := hcode₃.bounds (List.cons_ne_nil _ _)
  have huntil : h.memory.word p₂ = untilTokenID := CodeAt.word hcode₃
  have hnumber := e.number
  obtain ⟨m₁, hstep₁, e₁⟩ := e.repeat hlo hhi hword (by omega)
  change Loop s.Exec (fun σ r => ∃ b, test c σ b ∧ r = (!b, σ)) σ σ' at hσ
  suffices hrounds : ∀ m : Machine, m.Executes h σ (.block .repeat (p + 2) n :: fs) (p + 2) n →
      ∃ m', Reaches m m' ∧ m'.Executes h σ' fs q k by
    obtain ⟨m', hreach, e'⟩ := hrounds m₁ e₁
    exact ⟨m', .head hstep₁ hreach, e'⟩
  clear hstep₁ e₁ e
  induction hσ with
  | done hb hnext =>
    intro m e
    obtain ⟨b, ht, hr⟩ := hnext
    obtain ⟨hb', rfl⟩ := Prod.mk.inj hr
    obtain ⟨m₂, hreach₂, e₂⟩ := hs.block hg hg' e hcode₂ (by omega) hbounds.2
      (huntil ▸ .keyword (by decide)) hnames (by omega) hb
    obtain ⟨m₃, hstep₃, e₃⟩ := e₂.until hc hcode₃ hq (hf.stops 0) ht hnumber (by omega)
    rw [if_pos (by simpa using hb'.symm)] at e₃
    exact ⟨m₃, hreach₂.tail hstep₃, e₃⟩
  | again hb hnext _ ih =>
    intro m e
    obtain ⟨b, ht, hr⟩ := hnext
    obtain ⟨hb', rfl⟩ := Prod.mk.inj hr
    obtain ⟨m₂, hreach₂, e₂⟩ := hs.block hg hg' e hcode₂ (by omega) hbounds.2
      (huntil ▸ .keyword (by decide)) hnames (by omega) hb
    obtain ⟨m₃, hstep₃, e₃⟩ := e₂.until hc hcode₃ hq (hf.stops 0) ht hnumber (by omega)
    rw [if_neg (by simpa using hb'.symm)] at e₃
    obtain ⟨m', hreach, e'⟩ := ih m₃ e₃
    exact ⟨m', (hreach₂.tail hstep₃).trans hreach, e'⟩

/-- **`for`.** By induction on the rounds: each one leads back behind the `for` statement, with the data
of the index at the same address. -/
theorem Simulated.for {name var : List ℕ} {start limit : Expr} {step : Option Expr}
    (hs : s.Simulated cs) (hname : Scalar name) (hstart : Integer start) (hlimit : Integer limit)
    (hstep : ∀ e ∈ step, Integer e) (hvar : var = [] ∨ var = name) (hg : Gap false g) (hne : g ≠ [])
    (hg' : Gap s.endsLine g') :
    (forLoop name start limit step s).Simulated
      ((forTokenID :: (name ++ equalTokenID :: (start.tokens ++ toTokenID ::
        (limit.tokens ++ stepTokens step)))).map some ++
        (g ++ (cs ++ (g' ++ (nextTokenID :: var).map some)))) := by
  rintro h m σ σ' fs p n q k e hcode ⟨hp, hq, hf, hnames, hspace⟩ ⟨σ₁, ⟨hσ₁, hl, hd⟩, hσ⟩
  change _ + (8 + s.depth) < _ at hspace
  have hmem := hnames name (List.mem_cons_self ..)
  obtain ⟨p₁, n₁, hcode₁, hcode⟩ := hcode.split
  have hf₁ := hg.follows_of_ne hne hcode
  obtain ⟨p₂, n₂, hcode₂, hcode₃⟩ := split_block hcode
  have hle₁ := hcode₁.le.1
  have hle₂ := hcode₂.le.1
  have hle₃ := hcode₃.le.1
  have hbounds := hcode₃.bounds (List.cons_ne_nil _ _)
  have hnext : h.memory.word p₂ = nextTokenID := CodeAt.word hcode₃
  have hnumber := e.number
  have hn₁ := hcode₁.tokens.2.2
  subst hn₁
  obtain ⟨m₁, hstep₁, a, r, e₁, hr, hback⟩ := e.forOpen hname hstart hlimit hstep hcode₁ (by omega) hf₁
    hmem hσ₁ hl hd (by omega)
  have hsize := sizeOfFrames_cons fs (.loop r n₁ a)
  change _ = 8 + _ at hsize
  suffices hrounds : ∀ m : Machine, m.Executes (h.enter name a) σ₁ (.loop r n₁ a :: fs) p₁ n₁ →
      ∃ m', Reaches m m' ∧ m'.Executes h σ' fs q k by
    obtain ⟨m', hreach, e'⟩ := hrounds m₁ e₁
    exact ⟨m', .head hstep₁ hreach, e'⟩
  clear hstep₁ e₁ e hσ₁ hl hd
  have hround : ∀ {m : Machine} {σ σ₁ σ₂ : Environment} {b : Bool},
      m.Executes (h.enter name a) σ (.loop r n₁ a :: fs) p₁ n₁ → s.Exec σ σ₁ →
        next name limit step σ₁ (b, σ₂) → ∃ m', Reaches m m' ∧
          if b then m'.Executes (h.enter name a) σ₂ (.loop r n₁ a :: fs) p₁ n₁
          else m'.Executes (h.enter name a) σ₂ fs q k := by
    intro m σ σ₁ σ₂ b e hb hn
    obtain ⟨m₂, hreach₂, e₂⟩ := hs.block hg hg' e hcode₂ (by change h.lo ≤ _; omega) hbounds.2
      (hnext ▸ .keyword (by decide)) (fun x hx => hnames x (List.mem_cons_of_mem _ hx)) (by omega) hb
    obtain ⟨m₃, hstep₃, e₃⟩ := e₂.next hname (List.mem_cons_self ..) hvar hlimit hstep hcode₃ hq
      hf hr hback (by change _ ≤ h.hi; omega) hf₁ hnumber hn (by omega)
    exact ⟨m₃, hreach₂.tail hstep₃, e₃⟩
  induction hσ with
  | done hb hn =>
    intro m e
    obtain ⟨m', hreach, e'⟩ := hround e hb hn
    exact ⟨m', hreach, e'.leave⟩
  | again hb hn _ ih =>
    intro m e
    obtain ⟨m₂, hreach₂, e₂⟩ := hround e hb hn
    obtain ⟨m', hreach, e'⟩ := ih m₂ e₂
    exact ⟨m', hreach₂.trans hreach, e'⟩

end

/-- **Every text of a statement is simulated.** By induction on the text. -/
theorem Laid.simulated {s : Stmt} {cs : List (Option ℕ)} (h : s.Laid cs) (hs : s.Numeric) :
    s.Simulated cs := by
  induction h with
  | assign word hword => exact simulated_assign hs.1 hs.2 hword
  | seq _ hg hne _ ihs iht => exact (ihs hs.1).seq hg hne (iht hs.2)
  | ifThen hg hne hlaid hg' ih => exact (ih hs.2).ifThen hlaid hs.2 hs.1 hg hne hg'
  | ifElse hg hne hlaid hg' hh hlaid' hh' ihs iht =>
    exact (ihs hs.2.1).ifElse (iht hs.2.2) hlaid hlaid' hs.2.1 hs.2.2 hs.1 hg hne hg' hh hh'
  | ifLine hg hlaid hcs ih => exact (ih hs.2).ifLine hlaid hs.2 hs.1 hg hcs
  | whileLoop hg hne hlaid hg' ih => exact (ih hs.2).while hlaid hs.2 hs.1 hg hne hg'
  | repeatLoop hg hlaid hg' ih => exact (ih hs.1).repeat hs.2 hg hg'
  | forLoop var hvar hg hne _ hg' ih =>
    obtain ⟨hname, hstart, hlimit, hstep, hs⟩ := hs
    exact (ih hs).for hname hstart hlimit hstep hvar hg hne hg'

end Stmt

end Basic65816
