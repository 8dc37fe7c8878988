import Basic65816.Storage.StringAssign
import Basic65816.Strings.Open

/-!
# The characters of an open string

## Main definitions

* `Machine.Written`: a string is open and has certain characters

## Main results

* `written_stringTempAllocate`, `written_stringWriteCharacter`, `written_ctsOutputA`: opening and
  appending
* `Machine.Written.stringAt`: what is left in memory
-/

/-- The bytes before the place of the next character stay. -/
theorem Memory.BytesAt.append_byte {bank bank' : Memory} {a c : ℕ} {s : List ℕ}
    (h : bank.BytesAt a s)
    (hsame : ∀ i < s.length, bank' (a + i) = bank (a + i))
    (hbyte : bank'.byte (a + s.length) = c) : bank'.BytesAt a (s ++ [c]) := by
  refine Memory.bytesAt_append.mpr ⟨h.congr ?_, hbyte, trivial⟩
  intro b hlo hhi
  have := hsame (b - a) (by omega)
  rwa [show a + (b - a) = b by omega] at this

namespace Basic65816

/-- The string at `p` is open and has the characters `s`; since the state `m`, only the `t` bytes
behind its length byte have been written. -/
structure Machine.Written (m : Machine) (p : ℕ) (s : List ℕ) (t : ℕ) (m' : Machine) : Prop
    extends m.Open p s.length t m' where
  chars : m'.bank.BytesAt (p + 1) s

variable {m m₁ m₂ : Machine} {p t : ℕ} {s : List ℕ}

theorem Machine.Written.scratch (h : m.Written p s t m₁) (h' : m₁.Scratch m₂) :
    m.Written p s t m₂ :=
  ⟨h.toOpen.scratch h', h'.bank ▸ h.chars⟩

/-- A short string with room for it is a string in memory. -/
theorem Machine.Written.stringAt (h : m.Written p s t m₁) (hs : s.length < 256) :
    m₁.bank.StringAt p s :=
  ⟨h.length.trans (Nat.mod_eq_of_lt hs), h.chars⟩

theorem written_stringTempAllocate (m : Machine) (a t : ℕ) :
    m.Written (add16 m.tempTop (0xFFFF - a % 256)) [] t (stringTempAllocate m a) :=
  ⟨open_stringTempAllocate m a t, trivial⟩

theorem written_stringWriteCharacter (h : m.Written p s t m₁) (hn : s.length < t)
    (ht : p + t < 0x10000) (c : ℕ) :
    m.Written p (s ++ [c % 256]) t (stringWriteCharacter m₁ c) := by
  have hcur : m₁.dCurrentTempString = p + 1 + s.length := by
    rw [h.current, Nat.mod_eq_of_lt (by omega)]
  have hopen := open_stringWriteCharacter h.toOpen hn ht c
  refine ⟨by simpa using hopen, h.chars.append_byte (fun i hi => ?_) ?_⟩
  · change ((m₁.bank.setByte m₁.dCurrentTempString c).setByte m₁.dStartTempString _) _ = _
    rw [h.start, Memory.setByte_of_ne (by omega), Memory.setByte_of_ne (by omega)]
  · change ((m₁.bank.setByte m₁.dCurrentTempString c).setByte m₁.dStartTempString _).byte _ = _
    rw [h.start, Memory.byte_setByte_of_ne (by omega), hcur, Memory.byte_setByte]

theorem written_ctsOutputA (h : m.Written p s t m₁) (hn : s.length + 1 < t)
    (ht : p + t < 0x10000) {c : ℕ} (hc : c < 256) : m.Written p (s ++ [c]) t (ctsOutputA m₁ c) := by
  have hcur : m₁.dCurrentTempString = p + 1 + s.length := by
    rw [h.current, Nat.mod_eq_of_lt (by omega)]
  have hopen := open_ctsOutputA h.toOpen hn ht c
  refine ⟨by simpa using hopen, h.chars.append_byte (fun i hi => ?_) ?_⟩
  · change ((m₁.bank.setWord m₁.dCurrentTempString c).setByte m₁.dStartTempString _) _ = _
    rw [h.start, Memory.setByte_of_ne (by omega), Memory.setWord_of_ne (by omega) (by omega)]
  · change ((m₁.bank.setWord m₁.dCurrentTempString c).setByte m₁.dStartTempString _).byte _ = _
    rw [h.start, Memory.byte_setByte_of_ne (by omega), hcur, Memory.byte_setWord_low]
    exact Nat.mod_eq_of_lt hc

end Basic65816
