import Basic65816.Expression.Surroundings
import Basic65816.Screen.Cursor
import Basic65816.Storage.StringAssign
import Basic65816.Strings.Numeral

/-!
# What `print` prints

`print` goes through a list of expressions and separators. Numbers are printed in decimal and strings
character by character. Each character is loaded with the byte behind it, and the word `$FFFF` is the
marker that only moves the cursor. The new line at the end is left out behind a separator, which is
recognised by the word in front of the terminator.

## Main definitions

* `Output`, `Screen.emit`: what is printed, on the screen
* `PrintItem`, `PrintList`: the items of a `print` statement, in the states that it goes through
* `PrintItem.Clear`: no character of a string is taken for the marker

## Main results

* `PrintList.prints`: the calls that print the items
* `print_emits_iff`: when exactly the list is printed
-/

namespace Basic65816

/-- A step of the output. `skip` leaves a cell as it is. -/
inductive Output
  | cell (c : ℕ)
  | skip
  | tab
  | newLine
  deriving DecidableEq, Repr

/-- What a call of the hardware interface prints. -/
def HwCall.output : HwCall → Output
  | .printChar a => if a = 0xFFFF then .skip else .cell (a % 256)
  | .tab => .tab
  | .newLine => .newLine

/-- The screen behind a step of the output. -/
def Screen.emit (s : Screen) : Output → Screen
  | .cell c => s.put c
  | .skip => s.advance
  | .tab => s.nextStop 8
  | .newLine => s.nextStop sWidth

/-- An item of a `print` statement: a number, a string with the byte that stands behind it in memory,
or one of the separators `;` `,` `'`. -/
inductive PrintItem
  | integer (v : ℤ)
  | string (s : List ℕ) (next : ℕ)
  | semicolon
  | comma
  | quote
  deriving DecidableEq, Repr

namespace PrintItem

/-- What is to be printed for an item. -/
def output : PrintItem → List Output
  | .integer v => (Numeral.canonicalSigned 45 digitChar 10 v).map .cell
  | .string s _ => s.map .cell
  | .semicolon => []
  | .comma => [.tab]
  | .quote => [.newLine]

/-- The separators that suppress the new line. -/
def Separates (i : PrintItem) : Prop := i = .semicolon ∨ i = .comma

instance : DecidablePred Separates := fun i => inferInstanceAs (Decidable (i = _ ∨ i = _))

/-- The token of a separator. -/
def separator : PrintItem → ℕ
  | .semicolon => semicolonTokenID
  | .comma => commaTokenID
  | .quote => squoteTokenID
  | _ => 0

/-- The item is an expression. -/
def Evaluates : PrintItem → Prop
  | .integer _ => True
  | .string _ _ => True
  | _ => False

/-- No character 255 has the byte 255 behind it. -/
def Clear : PrintItem → Prop
  | .string s next => ¬[255, 255] <:+: s ++ [next]
  | _ => True

end PrintItem

/-- What is to be printed for a list. -/
def listOutput (is : List PrintItem) : List Output :=
  is.flatMap PrintItem.output ++ if ∃ i, is.getLast? = some i ∧ i.Separates then [] else [.newLine]

/-- The token is none that `print` looks for, so that an expression is expected. -/
def Machine.AtExpression (m : Machine) : Prop :=
  m.token ∉ [0, colonTokenID, semicolonTokenID, squoteTokenID, commaTokenID]

instance (m : Machine) : Decidable m.AtExpression := inferInstanceAs (Decidable (_ ∉ _))

/-- From the state `m` on, `print` finds the items `is` up to the terminator, in front of which it is
in the state `m'`. The temporary strings have room for the numerals. -/
inductive PrintList : Machine → List PrintItem → Machine → Prop
  | nil {m : Machine} (ht : m.token = 0 ∨ m.token = colonTokenID) : PrintList m [] m
  | semicolon {m m' : Machine} {is : List PrintItem} (ht : m.token = semicolonTokenID)
      (hp : m.dCodePtr < 0x10000) (hs : PrintList m.skipToken is m') :
      PrintList m (.semicolon :: is) m'
  | comma {m m' : Machine} {is : List PrintItem} {far : Memory} (ht : m.token = commaTokenID)
      (hp : m.dCodePtr < 0x10000) (hf : Settles (fun fuel => hwTab fuel m.far) (.ok far))
      (hs : PrintList { m with far := far }.skipToken is m') : PrintList m (.comma :: is) m'
  | quote {m m' : Machine} {is : List PrintItem} {far : Memory} (ht : m.token = squoteTokenID)
      (hp : m.dCodePtr < 0x10000) (hf : Settles (fun fuel => hwNewLine fuel m.far) (.ok far))
      (hs : PrintList { m with far := far }.skipToken is m') : PrintList m (.quote :: is) m'
  | integer {m m₁ m₂ m' : Machine} {v : Value} {is : List PrintItem} (ht : m.AtExpression)
      (he : Settles (fun fuel => evaluate fuel m) (.ok (v, m₁))) (hc : v.c = false)
      (hroom : 35 ≤ m₁.tempTop) (htop : m₁.tempTop < 0x10000)
      (hm : Settles (fun fuel => convertToString fuel m₁ (v.a, v.y) 10) (.ok m₂))
      (hs : PrintList (printBasicString m₂ m₂.dStartTempString).2 is m') :
      PrintList m (.integer (signedLong (v.a, v.y)) :: is) m'
  | string {m m₁ m' : Machine} {v : Value} {s : List ℕ} {is : List PrintItem} (ht : m.AtExpression)
      (he : Settles (fun fuel => evaluate fuel m) (.ok (v, m₁))) (hc : v.c = true)
      (hstr : m₁.bank.StringAt v.a s) (hhi : v.a + s.length < 0x10000)
      (hs : PrintList (printBasicString m₁ v.a).2 is m') :
      PrintList m (.string s (m₁.bank.byte (v.a + s.length + 1)) :: is) m'

section

variable {m m' m₁ : Machine} {s : Screen} {cs : List ℕ} {y n next fuel : ℕ} {is : List PrintItem}

/-! ## Strings -/

/-- The calls for the characters `cs`, each with the byte behind it. -/
def stringCalls : List ℕ → ℕ → List HwCall
  | [], _ => []
  | c :: cs, next => .printChar (c + 256 * cs.headD next) :: stringCalls cs next

theorem pbsLoop_calls (hw : m.bank.BytesAt (y + 1) cs) (hy : y + cs.length < 0x10000) :
    (pbsLoop cs.length m y).1 = stringCalls cs (m.bank.byte (y + cs.length + 1)) := by
  induction cs generalizing m y with
  | nil => rfl
  | cons c cs ih =>
    rw [List.length_cons] at hy ⊢
    obtain ⟨hbyte, hw⟩ := Memory.bytesAt_cons.mp hw
    have hone : add16 y 1 = y + 1 := add16_eq (by omega)
    have hword : m.bank.word (y + 1) = c + 256 * cs.headD (m.bank.byte (y + (cs.length + 1) + 1)) := by
      unfold Memory.word
      rw [hbyte]
      cases cs with
      | nil => rfl
      | cons d cs => rw [(Memory.bytesAt_cons.mp hw).1, List.headD_cons]
    have hrest := ih (m := { m with far := hwPrintChar m.far (m.bank.word (y + 1)) }) hw (by omega)
    rw [pbsLoop, stringCalls]
    dsimp only
    rw [hone, hrest, hword, show y + 1 + cs.length + 1 = y + (cs.length + 1) + 1 by omega]

/-- Printing changes the screen only. -/
theorem pbsLoop_keeps (n : ℕ) (m : Machine) (y : ℕ) :
    (pbsLoop n m y).2 = { m with far := (pbsLoop n m y).2.far } := by
  induction n generalizing m y with
  | zero => rfl
  | succ n ih =>
    rw [pbsLoop]
    dsimp only
    rw [ih]

/-- The screen is as the calls say. -/
theorem pbsLoop_on (h : s.On m.far) (n y : ℕ) :
    (((pbsLoop n m y).1.map HwCall.output).foldl Screen.emit s).On (pbsLoop n m y).2.far := by
  induction n generalizing m s y with
  | zero => exact h
  | succ n ih =>
    rw [pbsLoop]
    dsimp only
    rw [List.map_cons, List.foldl_cons]
    refine ih ?_ _
    rw [HwCall.output]
    split_ifs with ha
    · rw [ha]
      exact hwPrintChar_marker h
    · exact hwPrintChar_shows h ha

@[simp] theorem length_stringCalls (cs : List ℕ) (next : ℕ) :
    (stringCalls cs next).length = cs.length := by
  induction cs with
  | nil => rfl
  | cons c cs ih => rw [stringCalls, List.length_cons, List.length_cons, ih]

/-- **The characters are printed** when none of them is taken for the marker. -/
theorem stringCalls_output (hcs : ∀ c ∈ cs, c < 256) (hnext : next < 256) :
    (stringCalls cs next).map HwCall.output = cs.map .cell ↔ ¬[255, 255] <:+: cs ++ [next] := by
  induction cs with
  | nil =>
    refine iff_of_true rfl fun h => ?_
    have hlen := h.length_le
    simp at hlen
  | cons c cs ih =>
    have hc := hcs c (by simp)
    have hcs' : ∀ d ∈ cs, d < 256 := fun d hd => hcs d (by simp [hd])
    -- the byte behind the character
    obtain ⟨d, t, hd, hdt⟩ : ∃ d t, cs.headD next = d ∧ cs ++ [next] = d :: t := by
      cases cs with
      | nil => exact ⟨next, [], rfl, rfl⟩
      | cons d cs => exact ⟨d, cs ++ [next], rfl, rfl⟩
    have hdlt : d < 256 := by
      rw [← hd]
      cases cs with
      | nil => exact hnext
      | cons e cs => exact hcs' e (by simp)
    have hmarker : c + 256 * d = 0xFFFF ↔ c = 255 ∧ d = 255 := by omega
    have hprefix : [255, 255] <+: c :: (d :: t) ↔ c = 255 ∧ d = 255 := by
      rw [List.cons_prefix_cons, List.cons_prefix_cons]
      simp [eq_comm]
    rw [stringCalls, List.map_cons, List.map_cons, List.cons_eq_cons, ih hcs', hd, List.cons_append,
      List.infix_cons_iff, hdt, hprefix, ← hmarker, HwCall.output, not_or]
    refine and_congr_left fun _ => ?_
    split_ifs with hskip
    · simp [hskip]
    · refine iff_of_true ?_ hskip
      rw [show (c + 256 * d) % 256 = c by omega]

theorem printBasicString_calls (h : m.bank.StringAt y cs) (hy : y + cs.length < 0x10000) :
    (printBasicString m y).1 = stringCalls cs (m.bank.byte (y + cs.length + 1)) := by
  obtain ⟨hlength, hw⟩ := Memory.bytesAt_cons.mp h
  rw [printBasicString, hlength]
  exact pbsLoop_calls hw hy

theorem bytes_lt_of_stringAt (h : m.bank.StringAt y cs) : ∀ c ∈ cs, c < 256 := by
  intro c hc
  obtain ⟨i, hi, rfl⟩ := List.getElem_of_mem hc
  rw [← (Memory.bytesAt_cons.mp h).2.get hi]
  exact m.bank.byte_lt _

/-! ## Expressions -/

/-- The characters of a numeral are no markers. -/
theorem digitChar_lt_255 (d : ℕ) (hd : d < 10) : digitChar d < 255 := by
  unfold digitChar
  split_ifs
  omega

theorem canonicalSigned_lt_255 (v : ℤ) :
    ∀ c ∈ Numeral.canonicalSigned 45 digitChar 10 v, c < 255 := by
  have hcanonical : ∀ n, ∀ c ∈ Numeral.canonical digitChar 10 n, c < 255 := by
    intro n c hc
    unfold Numeral.canonical at hc
    split_ifs at hc
    · rw [List.mem_singleton.mp hc]
      exact digitChar_lt_255 0 (by decide)
    · obtain ⟨d, hd, rfl⟩ := List.mem_map.mp hc
      exact digitChar_lt_255 d (Nat.digits_lt_base (by decide) (List.mem_reverse.mp hd))
  intro c hc
  unfold Numeral.canonicalSigned at hc
  split_ifs at hc
  · rcases List.mem_cons.mp hc with rfl | hc
    · decide
    · exact hcanonical _ c hc
  · exact hcanonical _ c hc

theorem mem_of_marker (h : [255, 255] <:+: cs ++ [next]) : 255 ∈ cs := by
  induction cs with
  | nil =>
    have hlen := h.length_le
    simp at hlen
  | cons c cs ih =>
    rcases List.infix_cons_iff.mp h with h | h
    · obtain ⟨rfl, -⟩ := List.cons_prefix_cons.mp h
      exact List.mem_cons_self ..
    · exact List.mem_cons_of_mem c (ih h)

/-- The number is converted to its numeral. -/
theorem convertToString_numeral {v : Long} (hv : v.Valid) (hroom : 35 ≤ m.tempTop)
    (htop : m.tempTop < 0x10000)
    (hm : Settles (fun fuel => convertToString fuel m v 10) (.ok m₁)) :
    m₁.bank.StringAt m₁.dStartTempString (Numeral.canonicalSigned 45 digitChar 10 (signedLong v)) ∧
      m₁.dStartTempString + (Numeral.canonicalSigned 45 digitChar 10 (signedLong v)).length <
        0x10000 := by
  obtain ⟨n, hn⟩ := hm.exists_le
  obtain ⟨k, m', hrun, hwritten, hk, hle, -, hlt⟩ := convertToString_places (b := 10) hv (by decide)
    (by decide) hroom htop (le_max_right n 33)
  obtain rfl : m₁ = m' := Except.ok.inj ((hn _ (le_max_left n 33)).symm.trans hrun)
  rw [← canonicalSigned_eq_places (by decide) hle (hlt.resolve_right (by omega))] at hwritten
  have hstart : m₁.dStartTempString = m.tempTop - 35 := hwritten.start
  have hlen : (Numeral.canonicalSigned 45 digitChar 10 (signedLong v)).length ≤ 33 := by
    rw [canonicalSigned_eq_places (by decide) hle (hlt.resolve_right (by omega)), List.length_append,
      List.length_map, Numeral.length_places]
    split_ifs <;> simp <;> omega
  rw [hstart]
  exact ⟨hwritten.stringAt (by omega), by omega⟩

/-! ## The list -/

/-- From `m` on `print` makes the calls and comes to `m'`, with the screen as the calls say. -/
structure Machine.Prints (m : Machine) (calls : List HwCall) (m' : Machine) : Prop where
  run : ∀ tail r, Settles (fun fuel => commandPrint fuel m') (.ok (tail, r)) →
    Settles (fun fuel => commandPrint fuel m) (.ok (calls ++ tail, r))
  screen : ∀ s : Screen, s.On m.far → ((calls.map HwCall.output).foldl Screen.emit s).On m'.far

theorem Machine.Prints.trans {calls calls' : List HwCall} {m₂ : Machine} (h : m.Prints calls m₁)
    (h' : m₁.Prints calls' m₂) : m.Prints (calls ++ calls') m₂ := by
  constructor
  · intro tail r hr
    rw [List.append_assoc]
    exact h.run _ r (h'.run tail r hr)
  · intro s hs
    rw [List.map_append, List.foldl_append]
    exact h'.screen _ (h.screen s hs)

theorem prints_semicolon (ht : m.token = semicolonTokenID) : m.Prints [] m.skipToken := by
  refine ⟨fun tail r hr => hr.unfold fun fuel => ?_, fun s hs => hs⟩
  rw [commandPrint]
  dsimp only
  rw [ht, if_neg (by decide), if_pos rfl]

/-- A separator that moves the cursor. -/
theorem prints_call {call : HwCall} {f : ℕ → Memory → Result Memory} {far : Memory}
    (hrun : ∀ fuel, commandPrint (fuel + 1) m = f fuel m.far >>= fun far =>
      commandPrint fuel { m with far := far }.skipToken >>= fun c => .ok (call :: c.1, c.2))
    (hf : Settles (fun fuel => f fuel m.far) (.ok far))
    (hshows : ∀ s : Screen, s.On m.far → ∃ far', Settles (fun fuel => f fuel m.far) (.ok far') ∧
      (s.emit call.output).On far') :
    m.Prints [call] { m with far := far }.skipToken := by
  constructor
  · intro tail r hr
    have hrest : Settles (fun fuel => commandPrint fuel { m with far := far }.skipToken >>=
        fun c => (.ok (call :: c.1, c.2) : Result (List HwCall × Machine))) (.ok (call :: tail, r)) :=
      hr.bind (.of_forall fun _ => rfl)
    have hboth := hf.bind (g := fun fuel far => commandPrint fuel { m with far := far }.skipToken >>=
      fun c => .ok (call :: c.1, c.2)) hrest
    exact hboth.unfold hrun
  · intro s hs
    obtain ⟨far', hset, hon⟩ := hshows s hs
    obtain rfl := Except.ok.inj (hf.unique hset)
    exact hon

theorem prints_comma {far : Memory} (ht : m.token = commaTokenID)
    (hf : Settles (fun fuel => hwTab fuel m.far) (.ok far)) :
    m.Prints [.tab] { m with far := far }.skipToken := by
  refine prints_call (fun fuel => ?_) hf fun s hs => hwTab_shows hs
  rw [commandPrint]
  dsimp only
  rw [ht, if_neg (by decide), if_neg (by decide), if_neg (by decide), if_pos rfl]

theorem prints_quote {far : Memory} (ht : m.token = squoteTokenID)
    (hf : Settles (fun fuel => hwNewLine fuel m.far) (.ok far)) :
    m.Prints [.newLine] { m with far := far }.skipToken := by
  refine prints_call (fun fuel => ?_) hf fun s hs => hwNewLine_shows hs
  rw [commandPrint]
  dsimp only
  rw [ht, if_neg (by decide), if_neg (by decide), if_pos rfl]

theorem prints_expression (ht : m.AtExpression)
    (hf : Settles (fun fuel => fprExpression fuel m) (.ok (y, m₁))) (hfar : m₁.far = m.far) :
    m.Prints (printBasicString m₁ y).1 (printBasicString m₁ y).2 := by
  unfold Machine.AtExpression at ht
  simp only [List.mem_cons, List.not_mem_nil, or_false, not_or] at ht
  obtain ⟨hzero, hcolon, hsemicolon, hquote, hcomma⟩ := ht
  constructor
  · intro tail r hr
    have hrest : Settles (fun fuel => commandPrint fuel (printBasicString m₁ y).2 >>=
        fun c => (.ok ((printBasicString m₁ y).1 ++ c.1, c.2) : Result (List HwCall × Machine)))
        (.ok ((printBasicString m₁ y).1 ++ tail, r)) := hr.bind (.of_forall fun _ => rfl)
    refine (hf.bind (g := fun fuel q => commandPrint fuel (printBasicString q.2 q.1).2 >>=
      fun c => .ok ((printBasicString q.2 q.1).1 ++ c.1, c.2)) hrest).unfold fun fuel => ?_
    rw [commandPrint]
    dsimp only
    rw [if_neg (by tauto), if_neg hsemicolon, if_neg hquote, if_neg hcomma]
  · intro s hs
    rw [← hfar] at hs
    exact pbsLoop_on hs _ _

theorem append_eq_append_of_length {α : Type} {xs ys us vs : List α} (h : xs.length = us.length) :
    xs ++ ys = us ++ vs ↔ xs = us ∧ ys = vs := by
  constructor
  · exact fun heq => List.append_inj heq h
  · rintro ⟨rfl, rfl⟩
    rfl

theorem far_of_evaluate {v : Value} (he : Settles (fun fuel => evaluate fuel m) (.ok (v, m₁))) :
    m₁.far = m.far := by
  obtain ⟨fuel, h⟩ := he.exists_fuel
  have haround := evaluate_around (m := m) fuel
  rw [h] at haround
  exact haround.post.far

/-- **The items are printed** by the calls that `print` makes for them, unless a character is taken for
the marker. By induction on the list. -/
theorem PrintList.prints (h : PrintList m is m') :
    ∃ calls, m.Prints calls m' ∧ calls.length = (is.flatMap PrintItem.output).length ∧
      (calls.map HwCall.output = is.flatMap PrintItem.output ↔ ∀ i ∈ is, i.Clear) := by
  -- an item in front of the list
  have hcons : ∀ {m m₁ m' : Machine} {calls : List HwCall} {i : PrintItem} {is : List PrintItem},
      m.Prints calls m₁ → calls.length = i.output.length →
      (calls.map HwCall.output = i.output ↔ i.Clear) →
      (∃ calls, m₁.Prints calls m' ∧ calls.length = (is.flatMap PrintItem.output).length ∧
        (calls.map HwCall.output = is.flatMap PrintItem.output ↔ ∀ i ∈ is, i.Clear)) →
      ∃ calls, m.Prints calls m' ∧
        calls.length = ((i :: is).flatMap PrintItem.output).length ∧
        (calls.map HwCall.output = (i :: is).flatMap PrintItem.output ↔
          ∀ j ∈ i :: is, j.Clear) := by
    rintro m m₁ m' calls i is hitem hlen hclear ⟨rest, hrest, hlen', hclear'⟩
    refine ⟨calls ++ rest, hitem.trans hrest, ?_, ?_⟩
    · rw [List.flatMap_cons, List.length_append, List.length_append, hlen, hlen']
    · rw [List.flatMap_cons, List.map_append,
        append_eq_append_of_length (by rw [List.length_map, hlen]), hclear, hclear',
        List.forall_mem_cons]
  -- the string that an expression leaves to be printed
  have hstring : ∀ {m : Machine} {cs : List ℕ} {y : ℕ}, m.bank.StringAt y cs →
      y + cs.length < 0x10000 →
      (printBasicString m y).1.length = (cs.map Output.cell).length ∧
      ((printBasicString m y).1.map HwCall.output = cs.map Output.cell ↔
        ¬[255, 255] <:+: cs ++ [m.bank.byte (y + cs.length + 1)]) := by
    intro m cs y h hy
    rw [printBasicString_calls h hy]
    exact ⟨by simp, stringCalls_output (bytes_lt_of_stringAt h) (m.bank.byte_lt _)⟩
  induction h with
  | nil =>
    refine ⟨[], ⟨fun tail r hr => hr, fun s hs => hs⟩, rfl, iff_of_true rfl ?_⟩
    simp
  | semicolon ht _ _ ih =>
    exact hcons (prints_semicolon ht) rfl (iff_of_true rfl trivial) ih
  | comma ht _ hf _ ih => exact hcons (prints_comma ht hf) rfl (iff_of_true rfl trivial) ih
  | quote ht _ hf _ ih => exact hcons (prints_quote ht hf) rfl (iff_of_true rfl trivial) ih
  | @integer m m₁ m₂ m' v is ht he hc hroom htop hm _ ih =>
    obtain ⟨fuel, hrun⟩ := he.exists_fuel
    obtain ⟨hnumeral, hhi⟩ := convertToString_numeral (evaluate_valid hrun) hroom htop hm
    have hfar : m₂.far = m.far := by
      obtain ⟨k, hk⟩ := hm.exists_fuel
      have hworkspace := convertToString_workspace k (.refl (m := m₁)) (v.a, v.y) 10
      rw [hk] at hworkspace
      exact hworkspace.post.far.trans (far_of_evaluate he)
    have hexpression : Settles (fun fuel => fprExpression fuel m) (.ok (m₂.dStartTempString, m₂)) := by
      refine he.bind ?_
      have hnumber := hm.bind (g := fun _ m => (.ok (m.dStartTempString, m) : Result (ℕ × Machine)))
        (.of_forall fun _ => rfl)
      refine hnumber.congr fun k => ?_
      dsimp only
      rw [hc]
      rfl
    obtain ⟨hlen, hclear⟩ := hstring hnumeral hhi
    refine hcons (prints_expression ht hexpression hfar) hlen (hclear.trans (iff_of_true ?_ trivial)) ih
    intro hmarker
    have hlt := canonicalSigned_lt_255 _ _ (mem_of_marker hmarker)
    omega
  | @string m m₁ m' v cs is ht he hc hstr hhi _ ih =>
    have hexpression : Settles (fun fuel => fprExpression fuel m) (.ok (v.a, m₁)) := by
      refine he.bind (.of_forall fun k => ?_)
      dsimp only
      rw [hc]
      rfl
    obtain ⟨hlen, hclear⟩ := hstring hstr hhi
    exact hcons (prints_expression ht hexpression (far_of_evaluate he)) hlen hclear ih

/-- At the end of the list the code pointer is behind the last separator. -/
theorem PrintList.last (h : PrintList m is m') : (is = [] → m' = m) ∧
    ∀ i, is.getLast? = some i → ¬i.Evaluates →
      m'.bank.word (sub16 m'.dCodePtr 2) = i.separator := by
  -- the separator, when it is the last item
  have hback : ∀ {m m' : Machine} {t : ℕ}, m.token = t → m.dCodePtr < 0x10000 →
      m'.bank = m.bank → m'.dCodePtr = m.skipToken.dCodePtr →
      m'.bank.word (sub16 m'.dCodePtr 2) = t := by
    rintro m m' t rfl hp hbank hcode
    have hsub : sub16 (add16 m.dCodePtr 2) 2 = m.dCodePtr := by
      unfold sub16 add16
      omega
    rw [hbank, hcode]
    exact congrArg m.bank.word hsub
  have hcons : ∀ {m₁ m' : Machine} {i : PrintItem} {is : List PrintItem},
      (¬i.Evaluates → m' = m₁ → m'.bank.word (sub16 m'.dCodePtr 2) = i.separator) →
      ((is = [] → m' = m₁) ∧ ∀ i, is.getLast? = some i → ¬i.Evaluates →
        m'.bank.word (sub16 m'.dCodePtr 2) = i.separator) →
      ∀ j, (i :: is).getLast? = some j → ¬j.Evaluates →
        m'.bank.word (sub16 m'.dCodePtr 2) = j.separator := by
    rintro m₁ m' i is hitem ⟨hnil, hlast⟩ j hj hne
    cases is with
    | nil =>
      obtain rfl := Option.some.inj hj
      exact hitem hne (hnil rfl)
    | cons k is =>
      rw [List.getLast?_cons_cons] at hj
      exact hlast j hj hne
  induction h with
  | nil => exact ⟨fun _ => rfl, fun i hi => by cases hi⟩
  | semicolon ht hp _ ih =>
    refine ⟨fun h => absurd h (List.cons_ne_nil _ _), hcons (fun _ hm => ?_) ih⟩
    exact hback ht hp (by rw [hm]; rfl) (by rw [hm])
  | @comma m _ _ far ht hp _ _ ih =>
    refine ⟨fun h => absurd h (List.cons_ne_nil _ _), hcons (fun _ hm => ?_) ih⟩
    exact hback ht hp (by rw [hm]; rfl) (by rw [hm]; rfl)
  | @quote m _ _ far ht hp _ _ ih =>
    refine ⟨fun h => absurd h (List.cons_ne_nil _ _), hcons (fun _ hm => ?_) ih⟩
    exact hback ht hp (by rw [hm]; rfl) (by rw [hm]; rfl)
  | integer _ _ _ _ _ _ _ ih =>
    exact ⟨fun h => absurd h (List.cons_ne_nil _ _), hcons (fun hne => (hne trivial).elim) ih⟩
  | string _ _ _ _ _ _ ih =>
    exact ⟨fun h => absurd h (List.cons_ne_nil _ _), hcons (fun hne => (hne trivial).elim) ih⟩

/-- The list ends in front of a terminator. -/
theorem PrintList.terminated (h : PrintList m is m') : m'.token = 0 ∨ m'.token = colonTokenID := by
  induction h with
  | nil ht => exact ht
  | semicolon _ _ _ ih => exact ih
  | comma _ _ _ _ ih => exact ih
  | quote _ _ _ _ ih => exact ih
  | integer _ _ _ _ _ _ _ ih => exact ih
  | string _ _ _ _ _ _ ih => exact ih

/-- The last calls: the new line is left out behind the word of a separator. -/
def exitCalls (m : Machine) : List HwCall :=
  let a := m.bank.word (sub16 m.dCodePtr 2)
  if a = commaTokenID ∨ a = semicolonTokenID then [] else [.newLine]

theorem fprExitCR_prints (ht : m.token = 0 ∨ m.token = colonTokenID) (hs : s.On m.far) :
    ∃ m', Settles (fun fuel => commandPrint fuel m) (.ok (exitCalls m, m')) ∧
      (((exitCalls m).map HwCall.output).foldl Screen.emit s).On m'.far := by
  have hstep : ∀ fuel, commandPrint (fuel + 1) m = fprExitCR fuel m := by
    intro fuel
    rw [commandPrint]
    exact if_pos ht
  unfold exitCalls
  dsimp only
  split_ifs with hseparator
  · refine ⟨m, Settles.unfold (.of_forall fun fuel => ?_) hstep, hs⟩
    exact if_pos hseparator
  · obtain ⟨far, hset, hon⟩ := hwNewLine_shows hs
    refine ⟨{ m with far := far }, Settles.unfold ?_ hstep, hon⟩
    have hline := hset.bind (g := fun _ far =>
      (.ok ([.newLine], { m with far := far }) : Result (List HwCall × Machine)))
      (.of_forall fun _ => rfl)
    exact hline.congr fun fuel => if_neg hseparator

/-- An expression at the end of the list is not taken for a separator. -/
def Machine.TailClear (m' : Machine) (is : List PrintItem) : Prop :=
  ∀ i, is.getLast? = some i → i.Evaluates →
    m'.bank.word (sub16 m'.dCodePtr 2) ≠ commaTokenID ∧
      m'.bank.word (sub16 m'.dCodePtr 2) ≠ semicolonTokenID

/-- The new line at the end. -/
theorem exitCalls_output (hprint : m.bank.word (sub16 m.dCodePtr 2) = printTokenID)
    (h : PrintList m is m') : (exitCalls m').map HwCall.output =
      (if ∃ i, is.getLast? = some i ∧ i.Separates then [] else [.newLine] : List Output) ↔
    m'.TailClear is := by
  obtain ⟨hnil, hlast⟩ := h.last
  have hexit : (exitCalls m').map HwCall.output =
      if m'.bank.word (sub16 m'.dCodePtr 2) = commaTokenID ∨
        m'.bank.word (sub16 m'.dCodePtr 2) = semicolonTokenID then [] else [Output.newLine] := by
    unfold exitCalls
    dsimp only
    split_ifs <;> rfl
  rw [hexit]
  unfold Machine.TailClear
  cases hi : is.getLast? with
  | none =>
    have hword : m'.bank.word (sub16 m'.dCodePtr 2) = printTokenID := by
      rw [hnil (List.getLast?_eq_none_iff.mp hi), hprint]
    rw [hword, if_neg (by decide), if_neg (by rintro ⟨i, hi, -⟩; cases hi)]
    exact iff_of_true rfl fun i hi => by cases hi
  | some i =>
    have hseparates : (∃ j, some i = some j ∧ j.Separates) ↔ i.Separates := by simp
    have htail : (∀ j, some i = some j → j.Evaluates →
        m'.bank.word (sub16 m'.dCodePtr 2) ≠ commaTokenID ∧
          m'.bank.word (sub16 m'.dCodePtr 2) ≠ semicolonTokenID) ↔
        (i.Evaluates → m'.bank.word (sub16 m'.dCodePtr 2) ≠ commaTokenID ∧
          m'.bank.word (sub16 m'.dCodePtr 2) ≠ semicolonTokenID) := by simp
    rw [if_congr hseparates rfl rfl, htail]
    -- a separator at the end is the word in front of the terminator
    have hsep : ¬i.Evaluates → m'.bank.word (sub16 m'.dCodePtr 2) = i.separator :=
      hlast i hi
    have hexpression : i.Evaluates → ¬i.Separates →
        ((if m'.bank.word (sub16 m'.dCodePtr 2) = commaTokenID ∨
            m'.bank.word (sub16 m'.dCodePtr 2) = semicolonTokenID then [] else [Output.newLine]) =
          (if i.Separates then [] else [Output.newLine]) ↔
        (i.Evaluates → m'.bank.word (sub16 m'.dCodePtr 2) ≠ commaTokenID ∧
          m'.bank.word (sub16 m'.dCodePtr 2) ≠ semicolonTokenID)) := by
      intro he hs
      rw [if_neg hs]
      split_ifs with hword
      · refine iff_of_false (by simp) fun h => ?_
        obtain ⟨hcomma, hsemicolon⟩ := h he
        exact hword.elim hcomma hsemicolon
      · exact iff_of_true rfl fun _ => not_or.mp hword
    cases i with
    | integer v => exact hexpression trivial (by rintro (h | h) <;> cases h)
    | string cs next => exact hexpression trivial (by rintro (h | h) <;> cases h)
    | semicolon =>
      rw [hsep id, if_pos (.inr rfl), if_pos (.inl rfl)]
      exact iff_of_true rfl fun he => he.elim
    | comma =>
      rw [hsep id, if_pos (.inl rfl), if_pos (.inr rfl)]
      exact iff_of_true rfl fun he => he.elim
    | quote =>
      rw [hsep id, if_neg (by decide), if_neg (by decide)]
      exact iff_of_true rfl fun he => he.elim

/-- A string constant that no operator follows. -/
theorem evaluate_stringConstant (hheader : 2 ≤ m.token ∧ m.token < 0x100)
    (hhi : m.dCodePtr + m.token < 0x10000)
    (hnext : m.bank.word (m.dCodePtr + m.token) &&& 0xF000 ≠ 0x2000) :
    ∃ m₁, Settles (fun fuel => evaluate fuel m) (.ok (⟨m.dCodePtr + 2, 0, true⟩, m₁)) ∧
      m₁.bank = m.bank ∧ m₁.dCodePtr = m.dCodePtr + m.token := by
  obtain ⟨hpos, hlt⟩ := hheader
  obtain ⟨x, hx⟩ : ∃ x, x = add16 m.dStack 16 := ⟨_, rfl⟩
  obtain ⟨m₀, hm₀⟩ : ∃ m₀, m₀ = m.setDp (x + exsPrecType) (0 <<< tokenShift % 0x8000) := ⟨_, rfl⟩
  obtain ⟨m₁, hm₁⟩ : ∃ m₁ : Machine, m₁ = resetTypeString
    { m₀.setValue x (m.dCodePtr + 2, 0) with dCodePtr := m.dCodePtr + m.token } x := ⟨_, rfl⟩
  have hatom : ∀ fuel, elAtom Handler.routine fuel (evaluateLevel Handler.routine fuel) m₀ x =
      .ok m₁ := by
    intro fuel
    have htoken : m₀.token = m.token := by
      rw [hm₀]
      rfl
    have hcode : m₀.dCodePtr = m.dCodePtr := by
      rw [hm₀]
      rfl
    have hbehind : add16 (m₀.setValue x (m.dCodePtr + 2, 0)).token
        (m₀.setValue x (m.dCodePtr + 2, 0)).dCodePtr = m.dCodePtr + m.token := by
      change add16 m₀.token m₀.dCodePtr = _
      rw [htoken, hcode, add16_eq (by omega), Nat.add_comm]
    rw [elAtom, htoken, if_neg (by omega), if_neg (by omega), if_pos (by omega), elStringConstant,
      htoken, if_neg (by omega), hcode, add16_eq (by omega), hm₁]
    dsimp only
    rw [hbehind]
  have hstop : m₁.token &&& 0xF000 ≠ 0x2000 := by
    have hword : m₁.token = m.bank.word (m.dCodePtr + m.token) := by
      rw [hm₁, hm₀]
      rfl
    rwa [hword]
  have hexit : elExit m₁ x = (⟨m.dCodePtr + 2, 0, true⟩, m₁) := by
    have hvalue : m₁.value x = (m.dCodePtr + 2, 0) := by
      rw [hm₁, resetTypeString, Machine.value_setDp_precType]
      exact Machine.value_setValue ⟨by dsimp only; omega, Nat.zero_lt_succ _⟩
    have hstring : m₁.isString x = true := by
      unfold Machine.isString
      rw [hm₁, resetTypeString, Machine.dp_setDp (by omega)]
      exact decide_eq_true (by omega)
    rw [elExit, hvalue, hstring]
  refine ⟨m₁, Settles.succ (Settles.succ (.of_forall fun fuel => ?_)), by rw [hm₁, hm₀]; rfl,
    by rw [hm₁]; rfl⟩
  unfold evaluate
  rw [evaluateLevel_succ, ← hx, ← hm₀, hatom, ok_bind, elGotAtom_of_ne hstop, hexit]

/-- The command line `print` with the tokens `ts`, behind the first token. -/
def printMachine (ts : List ℕ) : Machine :=
  { commandMachine (printTokenID :: ts) with dCodePtr := 0x4102 }

/-- The list of a command line that is one string constant of at most three characters. -/
theorem printList_constant {w w' : ℕ} (hstr : (printMachine [6, w, w', 0]).bank.StringAt 0x4104 cs)
    (hword : (printMachine [6, w, w', 0]).bank.WordsAt 0x4102 [6, w, w', 0]) (hlen : cs.length ≤ 3) :
    ∃ m', PrintList (printMachine [6, w, w', 0])
        [.string cs ((printMachine [6, w, w', 0]).bank.byte (0x4104 + cs.length + 1))] m' ∧
      m'.bank.word (sub16 m'.dCodePtr 2) = w' := by
  obtain ⟨m, hm⟩ : ∃ m, m = printMachine [6, w, w', 0] := ⟨_, rfl⟩
  rw [← hm] at hstr hword ⊢
  have hcode : m.dCodePtr = 0x4102 := by rw [hm]; rfl
  obtain ⟨hheader, -, htail, hzero, -⟩ := hword
  have htoken : m.token = 6 := by
    unfold Machine.token
    rw [hcode]
    exact hheader
  obtain ⟨m₁, he, hbank, hcode₁⟩ := evaluate_stringConstant (m := m) (by omega) (by omega) (by
    rw [hcode, htoken, hzero]
    decide)
  rw [hcode] at he hcode₁
  rw [htoken] at hcode₁
  have hkeeps := pbsLoop_keeps (m₁.bank.byte 0x4104) m₁ 0x4104
  have hend : (printBasicString m₁ 0x4104).2.bank = m.bank ∧
      (printBasicString m₁ 0x4104).2.dCodePtr = 0x4108 := by
    rw [printBasicString, hkeeps]
    exact ⟨hbank, hcode₁⟩
  refine ⟨(printBasicString m₁ 0x4104).2, ?_, ?_⟩
  · rw [← hbank] at hstr ⊢
    refine .string (v := ⟨0x4104, 0, true⟩) ?_ he rfl hstr (by dsimp only; omega) (.nil (.inl ?_))
    · unfold Machine.AtExpression
      rw [htoken]
      decide
    · unfold Machine.token
      rw [hend.1, hend.2]
      exact hzero
  · rw [hend.1, hend.2]
    exact htail

/-- **`print` prints its list**, on every screen and for every list, exactly when no character 255 has
the byte 255 behind it, and when the word in front of the terminator is not that of a separator behind
an expression. -/
theorem print_emits_iff (hprint : m.bank.word (sub16 m.dCodePtr 2) = printTokenID)
    (h : PrintList m is m') (hs : s.On m.far) :
    ∃ calls m'', Settles (fun fuel => commandPrint fuel m) (.ok (calls, m'')) ∧
      ((calls.map HwCall.output).foldl Screen.emit s).On m''.far ∧
      (calls.map HwCall.output = listOutput is ↔ (∀ i ∈ is, i.Clear) ∧ m'.TailClear is) := by
  obtain ⟨calls, hprints, hlen, hclear⟩ := h.prints
  obtain ⟨m'', hexit, hon⟩ := fprExitCR_prints h.terminated (hprints.screen s hs)
  refine ⟨calls ++ exitCalls m', m'', hprints.run _ _ hexit, ?_, ?_⟩
  · rw [List.map_append, List.foldl_append]
    exact hon
  · rw [List.map_append, listOutput,
      append_eq_append_of_length (by rw [List.length_map, hlen]), hclear, exitCalls_output hprint h]

/-- `print "ab!"` prints three characters and a new line. -/
theorem print_emits_iff_three : ∃ calls m'',
    Settles (fun fuel => commandPrint fuel (printMachine [6, 0x6103, 0x2162, 0]))
      (.ok (calls, m'')) ∧
    calls.map HwCall.output = [.cell 97, .cell 98, .cell 33, .newLine] := by
  obtain ⟨m', h, hword⟩ := @printList_constant (ord "ab!") 0x6103 0x2162
    ⟨by rfl, by rfl, by rfl, by rfl, trivial⟩
    ⟨by rfl, by rfl, by rfl, by rfl, trivial⟩ (by decide)
  have hs : Screen.On ⟨fun _ => 0, 0, by decide⟩ (printMachine [6, 0x6103, 0x2162, 0]).far :=
    ⟨rfl, fun i hi => rfl⟩
  obtain ⟨calls, m'', hset, -, hiff⟩ := print_emits_iff (by rfl) h hs
  refine ⟨calls, m'', hset, hiff.mpr ⟨?_, ?_⟩⟩
  · intro i hi
    obtain rfl := List.mem_singleton.mp hi
    exact fun hmarker => absurd (mem_of_marker hmarker) (by decide)
  · intro i hi _
    rw [hword]
    exact ⟨by decide, by decide⟩

/-- `print "x$2"` ends in the word of the comma, and leaves out the new line; of a string of two
characters 255 only the second one is printed. -/
theorem print_swallows :
    (∃ m', (printMachine [6, 0x7803, 0x3224, 0]).bank.word 0x4100 = printTokenID ∧
      PrintList (printMachine [6, 0x7803, 0x3224, 0]) [.string (ord "x$2") 0] m' ∧
      ∃ calls m'', commandPrint 9 (printMachine [6, 0x7803, 0x3224, 0]) = .ok (calls, m'') ∧
        calls.map HwCall.output ≠ listOutput [.string (ord "x$2") 0]) ∧
    ∃ m', (printMachine [6, 0xFF02, 0x00FF, 0]).bank.word 0x4100 = printTokenID ∧
      PrintList (printMachine [6, 0xFF02, 0x00FF, 0]) [.string [255, 255] 0] m' ∧
      ∃ calls m'', commandPrint 99 (printMachine [6, 0xFF02, 0x00FF, 0]) = .ok (calls, m'') ∧
        calls.map HwCall.output ≠ listOutput [.string [255, 255] 0] := by
  constructor
  · obtain ⟨m', h, -⟩ := @printList_constant (ord "x$2") 0x7803 0x3224
      ⟨by decide +kernel, by decide +kernel, by decide +kernel, by decide +kernel, trivial⟩
      ⟨by decide +kernel, by decide +kernel, by decide +kernel, by decide +kernel, trivial⟩
      (by decide)
    rw [show (printMachine [6, 0x7803, 0x3224, 0]).bank.byte (0x4104 + (ord "x$2").length + 1) = 0 by
      decide +kernel] at h
    obtain ⟨⟨calls, m''⟩, hrun, hne⟩ := Except.exists_of_check
      (r := commandPrint 9 (printMachine [6, 0x7803, 0x3224, 0]))
      (P := fun r => r.1.map HwCall.output ≠ listOutput [.string (ord "x$2") 0]) (by decide +kernel)
    exact ⟨m', by decide +kernel, h, calls, m'', hrun, hne⟩
  · obtain ⟨m', h, -⟩ := @printList_constant [255, 255] 0xFF02 0x00FF
      ⟨by decide +kernel, by decide +kernel, by decide +kernel, trivial⟩
      ⟨by decide +kernel, by decide +kernel, by decide +kernel, by decide +kernel, trivial⟩
      (by decide)
    rw [show (printMachine [6, 0xFF02, 0x00FF, 0]).bank.byte (0x4104 + [255, 255].length + 1) = 0 by
      decide +kernel] at h
    obtain ⟨⟨calls, m''⟩, hrun, hne⟩ := Except.exists_of_check
      (r := commandPrint 99 (printMachine [6, 0xFF02, 0x00FF, 0]))
      (P := fun r => r.1.map HwCall.output ≠ listOutput [.string [255, 255] 0]) (by decide +kernel)
    exact ⟨m', by decide +kernel, h, calls, m'', hrun, hne⟩

end

end Basic65816
