import Basic65816.Lib.Structured
import Basic65816.Semantics.Code
import Basic65816.Semantics.Environment

/-!
# Structured programs

Assignments, conditions and loops over integer variables: what they mean as relations between
environments, and how they are written.

## Main definitions

* `Stmt`: the statements
* `Stmt.Exec`: their meaning
* `Stmt.Laid`: their texts

## Main results

* `Stmt.exec_functional`: a program has at most one result
* `Stmt.Laid.skims`: the forward scanner passes over a statement
-/

namespace Basic65816

open Structured

def letTokenID : ℕ := 0x3e2d
def untilTokenID : ℕ := 0x3a4a

/-- Statements over integer variables. -/
inductive Stmt
  | assign (name : List ℕ) (e : Expr)
  | seq (s t : Stmt)
  | ifThen (c : Expr) (s : Stmt)
  | ifElse (c : Expr) (s t : Stmt)
  /-- `if` with `then`, which ends with its line. -/
  | ifLine (c : Expr) (s : Stmt)
  | whileLoop (c : Expr) (s : Stmt)
  | repeatLoop (s : Stmt) (c : Expr)
  | forLoop (name : List ℕ) (start limit : Expr) (step : Option Expr) (s : Stmt)

namespace Stmt

/-! ## Meaning -/

/-- A condition holds when its value is not zero. -/
def test (c : Expr) (σ : Environment) (b : Bool) : Prop :=
  ∃ v, c.value σ = some v ∧ b = decide (v ≠ (0, 0))

/-- The step of a loop, 1 unless it is given. -/
def stepOf (step : Option Expr) (σ : Environment) : Option Long :=
  step.elim (some (1, 0)) fun e => e.value σ

/-- The loop goes on with the index `i`. -/
def goesOn (limit step i : Long) : Bool :=
  let d := subLong limit i
  decide (signedLong d = 0 ∨ (signedLong d < 0 ↔ signedLong step < 0))

/-- `next` evaluates the limit and the step again. -/
def next (name : List ℕ) (limit : Expr) (step : Option Expr) (σ : Environment)
    (r : Bool × Environment) : Prop :=
  ∃ i l d, σ name = some i ∧ limit.value σ = some l ∧ stepOf step σ = some d ∧
    r = (goesOn l d (addLong i d), Function.update σ name (some (addLong i d)))

/-- The variable is created before the expression is evaluated. -/
def assigned (name : List ℕ) (e : Expr) (σ σ' : Environment) : Prop :=
  ∃ v, e.value (σ.define name) = some v ∧ σ' = Function.update (σ.define name) name (some v)

/-- What a program does to the variables. A program that fails or does not end has no result. -/
def Exec : Stmt → Environment → Environment → Prop
  | .assign name e => assigned name e
  | .seq s t => Comp s.Exec t.Exec
  | .ifThen c s => fun σ σ' => ∃ b, test c σ b ∧ if b then s.Exec σ σ' else σ' = σ
  | .ifElse c s t => fun σ σ' => ∃ b, test c σ b ∧ if b then s.Exec σ σ' else t.Exec σ σ'
  | .ifLine c s => fun σ σ' => ∃ b, test c σ b ∧ if b then s.Exec σ σ' else σ' = σ
  | .whileLoop c s => While (test c) s.Exec
  | .repeatLoop s c => Loop s.Exec fun σ r => ∃ b, test c σ b ∧ r = (!b, σ)
  | .forLoop name start limit step s => Comp
      (fun σ σ' => assigned name start σ σ' ∧ (limit.value σ').isSome ∧ (stepOf step σ').isSome)
      (Loop s.Exec (next name limit step))

theorem test_functional (c : Expr) : Functional (test c) := by
  rintro σ b b' ⟨v, hv, rfl⟩ ⟨w, hw, rfl⟩
  obtain rfl := Option.some.inj (hv.symm.trans hw)
  rfl

theorem next_functional (name : List ℕ) (limit : Expr) (step : Option Expr) :
    Functional (next name limit step) := by
  rintro σ r r' ⟨i, l, d, hi, hl, hd, rfl⟩ ⟨i', l', d', hi', hl', hd', rfl⟩
  obtain rfl := Option.some.inj (hi.symm.trans hi')
  obtain rfl := Option.some.inj (hl.symm.trans hl')
  obtain rfl := Option.some.inj (hd.symm.trans hd')
  rfl

theorem assigned_functional (name : List ℕ) (e : Expr) : Functional (assigned name e) := by
  rintro σ σ₁ σ₂ ⟨v, hv, rfl⟩ ⟨w, hw, rfl⟩
  obtain rfl := Option.some.inj (hv.symm.trans hw)
  rfl

theorem functional_cond {c : Expr} {r r' : Environment → Environment → Prop} (h : Functional r)
    (h' : Functional r') :
    Functional fun σ σ' => ∃ b, test c σ b ∧ if b then r σ σ' else r' σ σ' := by
  rintro σ σ₁ σ₂ ⟨b, hb, h₁⟩ ⟨b', hb', h₂⟩
  obtain rfl := test_functional c _ _ _ hb hb'
  cases b with
  | true => exact h _ _ _ h₁ h₂
  | false => exact h' _ _ _ h₁ h₂

/-- **A program has at most one result.** By induction on the program. -/
theorem exec_functional (s : Stmt) : Functional s.Exec := by
  induction s with
  | assign name e => exact assigned_functional name e
  | seq s t ihs iht => exact ihs.comp iht
  | ifThen c s ih => exact functional_cond ih fun _ _ _ h h' => h.trans h'.symm
  | ifElse c s t ihs iht => exact functional_cond ihs iht
  | ifLine c s ih => exact functional_cond ih fun _ _ _ h h' => h.trans h'.symm
  | whileLoop c s ih => exact While.functional (test_functional c) ih
  | repeatLoop s c ih =>
    refine Loop.functional ?_ ih
    rintro σ r r' ⟨b, hb, rfl⟩ ⟨b', hb', rfl⟩
    obtain rfl := test_functional c _ _ _ hb hb'
    rfl
  | forLoop name start limit step s ih =>
    refine Functional.comp ?_ (Loop.functional (next_functional name limit step) ih)
    rintro σ σ₁ σ₂ ⟨h₁, -⟩ ⟨h₂, -⟩
    exact assigned_functional name start _ _ _ h₁ h₂

/-! ## Conditions on the program -/

/-- The name of an integer variable that is no array. -/
structure Scalar (name : List ℕ) : Prop where
  ident : Identifier name
  type : name.headI &&& idTypeMask = 0
  array : name.headI &&& idArrayMask = 0

/-- An integer expression, with parentheses where they are needed. -/
def Integer (e : Expr) : Prop := e.Numeric ∧ e.Written 0

/-- All variables and expressions are integers. -/
def Numeric : Stmt → Prop
  | .assign name e => Scalar name ∧ Integer e
  | .seq s t => s.Numeric ∧ t.Numeric
  | .ifThen c s => Integer c ∧ s.Numeric
  | .ifElse c s t => Integer c ∧ s.Numeric ∧ t.Numeric
  | .ifLine c s => Integer c ∧ s.Numeric
  | .whileLoop c s => Integer c ∧ s.Numeric
  | .repeatLoop s c => s.Numeric ∧ Integer c
  | .forLoop name start limit step s =>
    Scalar name ∧ Integer start ∧ Integer limit ∧ (∀ e ∈ step, Integer e) ∧ s.Numeric

/-- The variables that are assigned. -/
def targets : Stmt → List (List ℕ)
  | .assign name _ => [name]
  | .seq s t => s.targets ++ t.targets
  | .ifThen _ s => s.targets
  | .ifElse _ s t => s.targets ++ t.targets
  | .ifLine _ s => s.targets
  | .whileLoop _ s => s.targets
  | .repeatLoop s _ => s.targets
  | .forLoop name _ _ _ s => name :: s.targets

/-- The bytes of the BASIC stack that are used. -/
def depth : Stmt → ℕ
  | .assign _ _ => 0
  | .seq s t => max s.depth t.depth
  | .ifThen _ s => 2 + s.depth
  | .ifElse _ s t => 2 + max s.depth t.depth
  | .ifLine _ s => s.depth
  | .whileLoop _ s => 6 + s.depth
  | .repeatLoop s _ => 6 + s.depth
  | .forLoop _ _ _ _ s => 8 + s.depth

/-- The statement ends with its line. -/
def endsLine : Stmt → Bool
  | .seq _ t => t.endsLine
  | .ifLine _ _ => true
  | _ => false

/-! ## Texts -/

/-- Colons and line ends; a line end comes first if there has to be one. -/
structure Gap (line : Bool) (g : List (Option ℕ)) : Prop where
  items : ∀ c ∈ g, c = none ∨ c = some colonTokenID
  first : line = true → g.head? = some none

theorem Gap.nil : Gap false [] := ⟨fun _ h => absurd h List.not_mem_nil, fun h => by cases h⟩

/-- The end of a line. -/
theorem Gap.lineEnd (line : Bool) : Gap line [none] :=
  ⟨fun _ h => .inl (List.mem_singleton.mp h), fun _ => rfl⟩

theorem Gap.colons {g : List (Option ℕ)} (h : ∀ i ∈ g, i = some colonTokenID) : Gap false g :=
  ⟨fun i hi => .inr (h i hi), fun h => by cases h⟩

/-- The tokens of the step. -/
def stepTokens (step : Option Expr) : List ℕ := step.elim [] fun e => stepTokenID :: e.tokens

/-- The texts of a statement. Statements are separated by colons and line ends. -/
inductive Laid : Stmt → List (Option ℕ) → Prop
  | assign {name : List ℕ} {e : Expr} (word : List ℕ) (hword : word = [] ∨ word = [letTokenID]) :
      Laid (.assign name e) ((word ++ (name ++ equalTokenID :: e.tokens)).map some)
  | seq {s t : Stmt} {cs ds g : List (Option ℕ)} (hs : Laid s cs) (hg : Gap s.endsLine g)
      (hne : g ≠ []) (ht : Laid t ds) : Laid (.seq s t) (cs ++ (g ++ ds))
  | ifThen {c : Expr} {s : Stmt} {cs g g' : List (Option ℕ)} (hg : Gap false g) (hne : g ≠ [])
      (hs : Laid s cs) (hg' : Gap s.endsLine g') :
      Laid (.ifThen c s) ((ifTokenID :: c.tokens).map some ++
        (g ++ (cs ++ (g' ++ [some endifTokenID]))))
  | ifElse {c : Expr} {s t : Stmt} {cs ds g g' h h' : List (Option ℕ)} (hg : Gap false g)
      (hne : g ≠ []) (hs : Laid s cs) (hg' : Gap s.endsLine g') (hh : Gap false h) (ht : Laid t ds)
      (hh' : Gap t.endsLine h') :
      Laid (.ifElse c s t) ((ifTokenID :: c.tokens).map some ++
        (g ++ (cs ++ (g' ++ (some elseTokenID :: (h ++ (ds ++ (h' ++ [some endifTokenID]))))))))
  | ifLine {c : Expr} {s : Stmt} {cs g : List (Option ℕ)} (hg : ∀ i ∈ g, i = some colonTokenID)
      (hs : Laid s cs) (hcs : none ∉ cs) :
      Laid (.ifLine c s) ((ifTokenID :: (c.tokens ++ [thenTokenID])).map some ++ (g ++ cs))
  | whileLoop {c : Expr} {s : Stmt} {cs g g' : List (Option ℕ)} (hg : Gap false g) (hne : g ≠ [])
      (hs : Laid s cs) (hg' : Gap s.endsLine g') :
      Laid (.whileLoop c s) ((whileTokenID :: c.tokens).map some ++
        (g ++ (cs ++ (g' ++ [some wendTokenID]))))
  | repeatLoop {c : Expr} {s : Stmt} {cs g g' : List (Option ℕ)} (hg : Gap false g)
      (hs : Laid s cs) (hg' : Gap s.endsLine g') :
      Laid (.repeatLoop s c) (some repeatTokenID ::
        (g ++ (cs ++ (g' ++ (untilTokenID :: c.tokens).map some))))
  | forLoop {name : List ℕ} {start limit : Expr} {step : Option Expr} {s : Stmt}
      {cs g g' : List (Option ℕ)} (var : List ℕ) (hvar : var = [] ∨ var = name) (hg : Gap false g)
      (hne : g ≠ []) (hs : Laid s cs) (hg' : Gap s.endsLine g') :
      Laid (.forLoop name start limit step s)
        ((forTokenID :: (name ++ equalTokenID :: (start.tokens ++ toTokenID ::
          (limit.tokens ++ stepTokens step)))).map some ++
        (g ++ (cs ++ (g' ++ (nextTokenID :: var).map some))))

/-! ## Scanning over a statement -/

section

variable {a b t x : ℕ} {cs g : List (Option ℕ)} {line : Bool}

/-- The tokens that the scanner is sent for, and the one that no token is equal to. -/
def Sought (t : ℕ) : Prop := t = wendTokenID ∨ t = elseTokenID ∨ t = endifTokenID ∨ t = 0

instance : DecidablePred Sought := fun _ => inferInstanceAs (Decidable (_ ∨ _))

/-- The token neither opens nor closes a structure. -/
structure Plain (t : ℕ) : Prop where
  level : keywordLevel t = 0
  ne : ¬ Sought t

/-- Some bits in the middle of a word. -/
theorem and_shifted (t n k : ℕ) : t &&& (2 ^ k - 1) <<< n = t / 2 ^ n % 2 ^ k * 2 ^ n := by
  rw [← Nat.and_two_pow_sub_one_eq_mod, ← Nat.shiftRight_eq_div_pow, ← Nat.shiftLeft_eq]
  refine Nat.eq_of_testBit_eq fun i => ?_
  simp only [Nat.testBit_and, Nat.testBit_shiftLeft, Nat.testBit_shiftRight]
  rcases Nat.lt_or_ge i n with hi | hi
  · simp [Nat.not_le.mpr hi]
  · simp [hi]

theorem plain_of_range (h : t < 0x2000 ∧ t ≠ 0 ∨ 0x4000 ≤ t ∧ t < 0x10000) : Plain t := by
  refine ⟨if_neg ?_, ?_⟩
  · rw [show (0xE000 : ℕ) = (2 ^ 3 - 1) <<< 13 from rfl, and_shifted]
    omega
  · unfold Sought wendTokenID elseTokenID endifTokenID
    omega

theorem plain_operator (op : BinaryOperator) : Plain op.token := by
  cases op <;> exact ⟨by decide, by decide⟩

theorem name_ge {ws : List ℕ} (h : IsName ws) : ∀ w ∈ ws, 0xC000 ≤ w := by
  induction ws with
  | nil => exact h.elim
  | cons w ws ih =>
    intro v hv
    cases ws with
    | nil =>
      obtain rfl := List.mem_singleton.mp hv
      exact h.1
    | cons u us =>
      rcases List.mem_cons.mp hv with rfl | hv
      · exact h.1
      · exact ih h.2.2 v hv

/-- The tokens of an integer expression. -/
theorem plain_tokens {e : Expr} {p : ℕ} (he : e.Numeric) (hw : e.Written p)
    (hlt : ∀ t ∈ e.tokens, t < 0x10000) : ∀ t ∈ e.tokens, Plain t := by
  induction e generalizing p with
  | constant shift t =>
    obtain ⟨hs, ht₀, ht₁⟩ := hw
    intro u hu
    rcases List.mem_append.mp hu with hu | hu
    · have hrange := hs u (by simpa using hu)
      exact plain_of_range (.inl (by omega))
    · obtain rfl := List.mem_singleton.mp hu
      exact plain_of_range (.inr (by omega))
  | «variable» name =>
    intro u hu
    have hge := name_ge hw.1 u hu
    exact plain_of_range (.inr ⟨by omega, hlt u hu⟩)
  | paren e ih =>
    intro u hu
    rcases List.mem_append.mp hu with hu | hu
    · rcases List.mem_cons.mp hu with rfl | hu
      · exact ⟨by decide, by decide⟩
      · exact ih he hw (fun t ht => hlt t (by simp [Expr.tokens, ht])) u hu
    · obtain rfl := List.mem_singleton.mp hu
      exact ⟨by decide, by decide⟩
  | neg e ih =>
    intro u hu
    rcases List.mem_cons.mp hu with rfl | hu
    · exact ⟨by decide, by decide⟩
    · exact ih he hw (fun t ht => hlt t (by simp [Expr.tokens, ht])) u hu
  | binary op l r ihl ihr =>
    intro u hu
    rcases List.mem_append.mp hu with hu | hu
    · rcases List.mem_append.mp hu with hu | hu
      · exact ihl he.1 hw.2.1 (fun t ht => hlt t (by simp [Expr.tokens, ht])) u hu
      · obtain rfl := List.mem_singleton.mp hu
        exact plain_operator op
    · exact ihr he.2 hw.2.2 (fun t ht => hlt t (by simp [Expr.tokens, ht])) u hu
  | _ => exact absurd he id

/-- The word behind a statement: the end of a line, a separator or a keyword. -/
structure Follows (line : Bool) (w : ℕ) : Prop where
  word : w = 0 ∨ 0x3000 ≤ w ∧ w < 0x4000 ∧ w ≠ thenTokenID ∧ w ≠ stepTokenID
  zero : line = true → w = 0

theorem Follows.stops {line : Bool} {w : ℕ} (h : Follows line w) (p : ℕ) : Stops p w := by
  intro hw
  rw [show (0xF000 : ℕ) = (2 ^ 4 - 1) <<< 12 from rfl, and_shifted] at hw
  have := h.word
  omega

theorem identifier_ge {ws : List ℕ} (h : Identifier ws) : ∀ w ∈ ws, 0xC000 < w := by
  induction h with
  | last hw => simpa using hw
  | more hw _ _ ih =>
    intro v hv
    rcases List.mem_cons.mp hv with rfl | hv
    · exact hw
    · exact ih v hv

theorem plain_name {name : List ℕ} (h : Scalar name) (hlt : ∀ t ∈ name, t < 0x10000) :
    ∀ t ∈ name, Plain t := by
  intro t ht
  have := identifier_ge h.ident t ht
  exact plain_of_range (.inr ⟨by omega, hlt t ht⟩)

theorem skims_plain {ts : List ℕ} (ha : Sought a) (hb : Sought b) (h : ∀ t ∈ ts, Plain t) :
    skims a b x (ts.map some) = some x := by
  refine skims_tokens fun t ht => ⟨(h t ht).level, ?_, ?_⟩
  · rintro rfl
    exact (h _ ht).ne ha
  · rintro rfl
    exact (h _ ht).ne hb

theorem Gap.skims (hg : Gap line g) (ha : Sought a) (hb : Sought b) :
    Basic65816.skims a b x g = some x := by
  have hcolon : Plain colonTokenID := ⟨by decide, by decide⟩
  have hitems := hg.items
  clear hg
  induction g with
  | nil => rfl
  | cons c g ih =>
    have hrest := ih fun c hc => hitems c (List.mem_cons_of_mem _ hc)
    rcases hitems c (by simp) with rfl | rfl
    · exact hrest
    · have h : Basic65816.skims a b x ([colonTokenID].map some) = some x :=
        skims_plain ha hb (by simpa using hcolon)
      rw [show some colonTokenID :: g = [colonTokenID].map some ++ g from rfl, skims_append, h]
      exact hrest

/-- A token that opens a structure. -/
theorem skims_open (ht : keywordLevel t = 1) (hne : t ≠ a ∧ t ≠ b) :
    skims a b x (some t :: cs) = skims a b (x + 1) cs := by
  rw [skims, if_neg (by omega), ht, if_neg (by omega)]
  rfl

/-- A token that closes a structure. -/
theorem skims_close (ht : keywordLevel t = -1) :
    skims a b (x + 1) (some t :: cs) = skims a b x cs := by
  rw [skims, if_neg (by omega), ht, if_neg (by omega)]
  congr 1
  omega

/-- A token in a structure, whether it is sought or not. -/
theorem skims_inside (ht : keywordLevel t = 0) :
    skims a b (x + 1) (some t :: cs) = skims a b (x + 1) cs := by
  rw [skims, if_neg (by omega), ht, if_neg (by omega)]
  congr 1

theorem skims_then {ds : List (Option ℕ)} (h : skims a b x cs = some x) :
    skims a b x (cs ++ ds) = skims a b x ds := by
  rw [skims_append, h]
  rfl

end

/-- **The forward scanner passes over a statement**, on any level. By induction on its text. -/
theorem Laid.skims {a b x : ℕ} {s : Stmt} {cs : List (Option ℕ)} (h : s.Laid cs) (hs : s.Numeric)
    (ha : Sought a) (hb : Sought b) (hlt : ∀ t, some t ∈ cs → t < 0x10000) :
    Basic65816.skims a b x cs = some x := by
  have hexpr : ∀ {e : Expr} {ds : List (Option ℕ)} (y : ℕ), Integer e →
      (∀ t ∈ e.tokens, t < 0x10000) →
      Basic65816.skims a b y (e.tokens.map some ++ ds) = Basic65816.skims a b y ds :=
    fun y he hlt => skims_then (skims_plain ha hb (plain_tokens he.1 he.2 hlt))
  have hgap : ∀ {line : Bool} {g ds : List (Option ℕ)} (y : ℕ), Gap line g →
      Basic65816.skims a b y (g ++ ds) = Basic65816.skims a b y ds :=
    fun y hg => skims_then (hg.skims ha hb)
  have hopen : ∀ {t : ℕ} {ds : List (Option ℕ)} (y : ℕ), keywordLevel t = 1 → ¬ Sought t →
      Basic65816.skims a b y (some t :: ds) = Basic65816.skims a b (y + 1) ds := by
    intro t ds y ht hne
    refine skims_open ht ⟨?_, ?_⟩
    · rintro rfl
      exact hne ha
    · rintro rfl
      exact hne hb
  induction h generalizing x with
  | assign word hword =>
    obtain ⟨hname, he⟩ := hs
    refine skims_plain ha hb fun t ht => ?_
    have hlt' : ∀ t ∈ _, t < 0x10000 := fun t ht => hlt t (List.mem_map_of_mem ht)
    rcases List.mem_append.mp ht with ht | ht
    · rcases hword with rfl | rfl
      · cases ht
      · obtain rfl := List.mem_singleton.mp ht
        exact ⟨by decide, by decide⟩
    · rcases List.mem_append.mp ht with ht | ht
      · exact plain_name hname (fun t ht => hlt' t (by simp [ht])) t ht
      · rcases List.mem_cons.mp ht with rfl | ht
        · exact ⟨by decide, by decide⟩
        · exact plain_tokens he.1 he.2 (fun t ht => hlt' t (by simp [ht])) t ht
  | seq _ hg hne _ ihs iht =>
    rw [skims_then (ihs hs.1 fun t ht => hlt t (by simp [ht])), hgap _ hg]
    exact iht hs.2 fun t ht => hlt t (by simp [ht])
  | ifThen hg hne _ hg' ih =>
    rw [List.map_cons, List.cons_append, hopen x (by decide) (by decide),
      hexpr _ hs.1 (fun t ht => hlt t (by simp [ht])), hgap _ hg,
      skims_then (ih hs.2 fun t ht => hlt t (by simp [ht])), hgap _ hg', skims_close (by decide)]
    rfl
  | ifElse hg hne _ hg' hh _ hh' ihs iht =>
    rw [List.map_cons, List.cons_append, hopen x (by decide) (by decide),
      hexpr _ hs.1 (fun t ht => hlt t (by simp [ht])), hgap _ hg,
      skims_then (ihs hs.2.1 fun t ht => hlt t (by simp [ht])), hgap _ hg',
      skims_inside (by decide), hgap _ hh, skims_then (iht hs.2.2 fun t ht => hlt t (by simp [ht])),
      hgap _ hh', skims_close (by decide)]
    rfl
  | ifLine hg _ hcs ih =>
    have hg' := Gap.colons hg
    rw [List.map_cons, List.cons_append, hopen x (by decide) (by decide), List.map_append,
      List.append_assoc, hexpr _ hs.1 (fun t ht => hlt t (by simp [ht])), List.map_singleton,
      List.singleton_append, skims_close (by decide), hgap _ hg']
    exact ih hs.2 fun t ht => hlt t (by simp [ht])
  | whileLoop hg hne _ hg' ih =>
    rw [List.map_cons, List.cons_append, hopen x (by decide) (by decide),
      hexpr _ hs.1 (fun t ht => hlt t (by simp [ht])), hgap _ hg,
      skims_then (ih hs.2 fun t ht => hlt t (by simp [ht])), hgap _ hg', skims_close (by decide)]
    rfl
  | repeatLoop hg _ hg' ih =>
    rw [hopen x (by decide) (by decide), hgap _ hg,
      skims_then (ih hs.1 fun t ht => hlt t (by simp [ht])), hgap _ hg', List.map_cons,
      skims_close (by decide)]
    exact skims_plain ha hb (plain_tokens hs.2.1 hs.2.2 fun t ht => hlt t (by simp [ht]))
  | @forLoop name start limit step s cs g g' var hvar hg hne _ hg' ih =>
    obtain ⟨hname, hstart, hlimit, hstep, hs⟩ := hs
    have hhead : ∀ t ∈ name ++ equalTokenID :: (start.tokens ++ toTokenID ::
        (limit.tokens ++ stepTokens step)), Plain t := by
      have hlt' : ∀ t ∈ name ++ equalTokenID :: (start.tokens ++ toTokenID ::
          (limit.tokens ++ stepTokens step)), t < 0x10000 := fun t ht => hlt t (by
        rw [List.map_cons]
        exact List.mem_append_left _ (List.mem_cons_of_mem _ (List.mem_map_of_mem ht)))
      intro t ht
      rcases List.mem_append.mp ht with ht | ht
      · exact plain_name hname (fun t ht => hlt' t (by simp [ht])) t ht
      rcases List.mem_cons.mp ht with rfl | ht
      · exact ⟨by decide, by decide⟩
      rcases List.mem_append.mp ht with ht | ht
      · exact plain_tokens hstart.1 hstart.2 (fun t ht => hlt' t (by simp [ht])) t ht
      rcases List.mem_cons.mp ht with rfl | ht
      · exact ⟨by decide, by decide⟩
      rcases List.mem_append.mp ht with ht | ht
      · exact plain_tokens hlimit.1 hlimit.2 (fun t ht => hlt' t (by simp [ht])) t ht
      cases step with
      | none => cases ht
      | some e =>
        have he := hstep e rfl
        rcases List.mem_cons.mp ht with rfl | ht
        · exact ⟨by decide, by decide⟩
        · exact plain_tokens he.1 he.2 (fun t ht => hlt' t (by simp [stepTokens, ht])) t ht
    rw [List.map_cons, List.cons_append, hopen x (by decide) (by decide),
      skims_then (skims_plain ha hb hhead), hgap _ hg,
      skims_then (ih hs fun t ht => hlt t (by simp [ht])), hgap _ hg', List.map_cons,
      skims_close (by decide)]
    rcases hvar with rfl | rfl
    · rfl
    · exact skims_plain ha hb (plain_name hname fun t ht => hlt t (by simp [ht]))

end Stmt

end Basic65816
