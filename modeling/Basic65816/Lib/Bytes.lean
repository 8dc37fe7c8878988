import Mathlib

/-!
# Byte-addressed memory

A memory gives every natural address a byte. Sixteen-bit words are stored low byte first, and a
word at `a` occupies `a` and `a + 1`. Words and bytes are read as natural numbers, so that address
arithmetic stays in the fragment `omega` decides.

## Main definitions

* `Memory.byte`, `Memory.word`, `Memory.setByte`, `Memory.setWord`: single accesses
* `Memory.WordsAt`, `Memory.BytesAt`: a list stored at consecutive addresses
* `Memory.EqOn`, `Memory.EqOff`: agreement inside, or outside, an address range

## Main results

* `Memory.word_setWord`, `Memory.word_setWord_of_disjoint`: read over write
* `Memory.WordsAt.congr`, `Memory.BytesAt.congr`: stored lists depend on their own range only
-/

/-- A memory: one byte at every address. -/
abbrev Memory := ℕ → UInt8

namespace Memory

/-- The byte at `a`. -/
def byte (m : Memory) (a : ℕ) : ℕ := (m a).toNat

/-- The little-endian word at `a`. -/
def word (m : Memory) (a : ℕ) : ℕ := m.byte a + 256 * m.byte (a + 1)

/-- Store the low eight bits of `v` at `a`. -/
def setByte (m : Memory) (a v : ℕ) : Memory := Function.update m a (UInt8.ofNat v)

/-- Store the low sixteen bits of `v` at `a` and `a + 1`. -/
def setWord (m : Memory) (a v : ℕ) : Memory := (m.setByte a v).setByte (a + 1) (v / 256)

variable {m m' m'' : Memory} {a b v lo hi : ℕ}

theorem byte_lt (m : Memory) (a : ℕ) : m.byte a < 256 := (m a).toNat_lt

theorem word_lt (m : Memory) (a : ℕ) : m.word a < 65536 := by
  have h₀ := m.byte_lt a
  have h₁ := m.byte_lt (a + 1)
  unfold word
  omega

theorem byte_congr (h : m' a = m a) : m'.byte a = m.byte a := by
  simp only [byte, h]

theorem word_congr (h₀ : m' a = m a) (h₁ : m' (a + 1) = m (a + 1)) : m'.word a = m.word a := by
  simp only [word, byte, h₀, h₁]

/-- The low byte of a word. -/
theorem word_mod (m : Memory) (a : ℕ) : m.word a % 256 = m.byte a := by
  have h := m.byte_lt a
  unfold word
  omega

/-- The high byte of a word. -/
theorem word_div (m : Memory) (a : ℕ) : m.word a / 256 = m.byte (a + 1) := by
  have h := m.byte_lt a
  unfold word
  omega

@[simp] theorem setByte_self (m : Memory) (a v : ℕ) : m.setByte a v a = UInt8.ofNat v :=
  Function.update_self ..

theorem setByte_of_ne (h : b ≠ a) : m.setByte a v b = m b :=
  Function.update_of_ne h ..

@[simp] theorem byte_setByte (m : Memory) (a v : ℕ) : (m.setByte a v).byte a = v % 256 := by
  simp [byte]

theorem byte_setByte_of_ne (h : b ≠ a) : (m.setByte a v).byte b = m.byte b :=
  byte_congr (setByte_of_ne h)

theorem setWord_of_ne (h₀ : b ≠ a) (h₁ : b ≠ a + 1) : m.setWord a v b = m b := by
  rw [setWord, setByte_of_ne h₁, setByte_of_ne h₀]

theorem byte_setWord_low (m : Memory) (a v : ℕ) : (m.setWord a v).byte a = v % 256 := by
  rw [setWord, byte_setByte_of_ne (by omega), byte_setByte]

theorem byte_setWord_high (m : Memory) (a v : ℕ) :
    (m.setWord a v).byte (a + 1) = v / 256 % 256 := by
  rw [setWord, byte_setByte]

theorem byte_setWord_of_ne (h₀ : b ≠ a) (h₁ : b ≠ a + 1) :
    (m.setWord a v).byte b = m.byte b :=
  byte_congr (setWord_of_ne h₀ h₁)

/-- **Read over write**, at the address written. -/
theorem word_setWord_mod (m : Memory) (a v : ℕ) : (m.setWord a v).word a = v % 65536 := by
  rw [word, byte_setWord_low, byte_setWord_high]
  omega

@[simp] theorem word_setWord (h : v < 65536) : (m.setWord a v).word a = v := by
  rw [word_setWord_mod, Nat.mod_eq_of_lt h]

/-- **Read over write**, at a word that does not overlap the one written. -/
theorem word_setWord_of_disjoint (h : b + 2 ≤ a ∨ a + 2 ≤ b) :
    (m.setWord a v).word b = m.word b :=
  word_congr (setWord_of_ne (by omega) (by omega)) (setWord_of_ne (by omega) (by omega))

theorem word_setByte_of_disjoint (h : b + 2 ≤ a ∨ a + 1 ≤ b) :
    (m.setByte a v).word b = m.word b :=
  word_congr (setByte_of_ne (by omega)) (setByte_of_ne (by omega))

/-! ## Agreement on a range -/

/-- Two memories agree on `[lo, hi)`. -/
def EqOn (lo hi : ℕ) (m m' : Memory) : Prop := ∀ a, lo ≤ a → a < hi → m' a = m a

/-- Two memories agree outside `[lo, hi)`: only that range was written. -/
def EqOff (lo hi : ℕ) (m m' : Memory) : Prop := ∀ a, a < lo ∨ hi ≤ a → m' a = m a

theorem EqOff.refl (lo hi : ℕ) (m : Memory) : EqOff lo hi m m := fun _ _ => rfl

theorem EqOff.trans (h : EqOff lo hi m m') (h' : EqOff lo hi m' m'') : EqOff lo hi m m'' :=
  fun a ha => (h' a ha).trans (h a ha)

theorem EqOff.mono {lo' hi' : ℕ} (h : EqOff lo hi m m') (hlo : lo' ≤ lo) (hhi : hi ≤ hi') :
    EqOff lo' hi' m m' :=
  fun a ha => h a (by omega)

/-- Outside the written range everything is as before. -/
theorem EqOff.eqOn {lo' hi' : ℕ} (h : EqOff lo hi m m') (hd : hi' ≤ lo ∨ hi ≤ lo') :
    EqOn lo' hi' m m' :=
  fun a _ _ => h a (by omega)

theorem EqOff.setByte (h : EqOff lo hi m m') (hlo : lo ≤ a) (hhi : a < hi) :
    EqOff lo hi m (m'.setByte a v) :=
  fun b hb => (setByte_of_ne (by omega)).trans (h b hb)

theorem EqOff.setWord (h : EqOff lo hi m m') (hlo : lo ≤ a) (hhi : a + 2 ≤ hi) :
    EqOff lo hi m (m'.setWord a v) :=
  fun b hb => (setWord_of_ne (by omega) (by omega)).trans (h b hb)

theorem EqOff.byte (h : EqOff lo hi m m') (ha : a < lo ∨ hi ≤ a) : m'.byte a = m.byte a :=
  byte_congr (h a ha)

theorem EqOff.word (h : EqOff lo hi m m') (ha : a + 2 ≤ lo ∨ hi ≤ a) : m'.word a = m.word a :=
  word_congr (h a (by omega)) (h (a + 1) (by omega))

theorem EqOn.refl (lo hi : ℕ) (m : Memory) : EqOn lo hi m m := fun _ _ _ => rfl

theorem EqOn.symm (h : EqOn lo hi m m') : EqOn lo hi m' m := fun a h₀ h₁ => (h a h₀ h₁).symm

theorem EqOn.trans (h : EqOn lo hi m m') (h' : EqOn lo hi m' m'') : EqOn lo hi m m'' :=
  fun a h₀ h₁ => (h' a h₀ h₁).trans (h a h₀ h₁)

theorem EqOn.mono {lo' hi' : ℕ} (h : EqOn lo hi m m') (hlo : lo ≤ lo') (hhi : hi' ≤ hi) :
    EqOn lo' hi' m m' :=
  fun a h₀ h₁ => h a (by omega) (by omega)

theorem EqOn.byte (h : EqOn lo hi m m') (h₀ : lo ≤ a) (h₁ : a < hi) : m'.byte a = m.byte a :=
  byte_congr (h a h₀ h₁)

theorem EqOn.word (h : EqOn lo hi m m') (h₀ : lo ≤ a) (h₁ : a + 2 ≤ hi) : m'.word a = m.word a :=
  word_congr (h a h₀ (by omega)) (h (a + 1) (by omega) (by omega))

theorem EqOn.setByte (h : EqOn lo hi m m') (ha : a < lo ∨ hi ≤ a) :
    EqOn lo hi m (m'.setByte a v) :=
  fun b h₀ h₁ => (setByte_of_ne (by omega)).trans (h b h₀ h₁)

theorem EqOn.setWord (h : EqOn lo hi m m') (ha : a + 2 ≤ lo ∨ hi ≤ a) :
    EqOn lo hi m (m'.setWord a v) :=
  fun b h₀ h₁ => (setWord_of_ne (by omega) (by omega)).trans (h b h₀ h₁)

/-! ## Lists stored at consecutive addresses -/

/-- The words `ws` are stored from `a` upwards. -/
def WordsAt (m : Memory) : ℕ → List ℕ → Prop
  | _, [] => True
  | a, w :: ws => m.word a = w ∧ WordsAt m (a + 2) ws

/-- The bytes `bs` are stored from `a` upwards. -/
def BytesAt (m : Memory) : ℕ → List ℕ → Prop
  | _, [] => True
  | a, b :: bs => m.byte a = b ∧ BytesAt m (a + 1) bs

@[simp] theorem wordsAt_nil : WordsAt m a [] := trivial

@[simp] theorem wordsAt_cons {w : ℕ} {ws : List ℕ} :
    WordsAt m a (w :: ws) ↔ m.word a = w ∧ WordsAt m (a + 2) ws := Iff.rfl

@[simp] theorem bytesAt_nil : BytesAt m a [] := trivial

@[simp] theorem bytesAt_cons {bs : List ℕ} :
    BytesAt m a (b :: bs) ↔ m.byte a = b ∧ BytesAt m (a + 1) bs := Iff.rfl

theorem wordsAt_append {us ws : List ℕ} :
    ∀ {a : ℕ}, WordsAt m a (us ++ ws) ↔ WordsAt m a us ∧ WordsAt m (a + 2 * us.length) ws := by
  induction us with
  | nil => simp
  | cons u us ih =>
    intro a
    rw [List.cons_append, wordsAt_cons, wordsAt_cons, ih, List.length_cons, and_assoc,
      show a + 2 + 2 * us.length = a + 2 * (us.length + 1) by omega]

theorem bytesAt_append {us ws : List ℕ} :
    ∀ {a : ℕ}, BytesAt m a (us ++ ws) ↔ BytesAt m a us ∧ BytesAt m (a + us.length) ws := by
  induction us with
  | nil => simp
  | cons u us ih =>
    intro a
    rw [List.cons_append, bytesAt_cons, bytesAt_cons, ih, List.length_cons, and_assoc,
      show a + 1 + us.length = a + (us.length + 1) by omega]

/-- A stored word list depends on its own addresses only. -/
theorem WordsAt.congr {ws : List ℕ} :
    ∀ {a : ℕ}, WordsAt m a ws → EqOn a (a + 2 * ws.length) m m' → WordsAt m' a ws := by
  induction ws with
  | nil => intro _ _ _; trivial
  | cons w ws ih =>
    intro a h he
    simp only [List.length_cons] at he
    exact ⟨(he.word (Nat.le_refl _) (by omega)).trans h.1, ih h.2 (he.mono (by omega) (by omega))⟩

/-- A stored byte list depends on its own addresses only. -/
theorem BytesAt.congr {bs : List ℕ} :
    ∀ {a : ℕ}, BytesAt m a bs → EqOn a (a + bs.length) m m' → BytesAt m' a bs := by
  induction bs with
  | nil => intro _ _ _; trivial
  | cons b bs ih =>
    intro a h he
    simp only [List.length_cons] at he
    exact ⟨(he.byte (Nat.le_refl _) (by omega)).trans h.1, ih h.2 (he.mono (by omega) (by omega))⟩

theorem WordsAt.get {ws : List ℕ} :
    ∀ {a : ℕ}, WordsAt m a ws → ∀ {i : ℕ} (h : i < ws.length), m.word (a + 2 * i) = ws[i] := by
  induction ws with
  | nil => intro _ _ i h; simp at h
  | cons w ws ih =>
    intro a hw i h
    cases i with
    | zero => simpa using hw.1
    | succ i =>
      have := ih hw.2 (i := i) (by simpa using h)
      rw [List.getElem_cons_succ, ← this, show a + 2 * (i + 1) = a + 2 + 2 * i by omega]

theorem eq_of_word_eq {m' : Memory} {a' : ℕ} (h : m.word a = m'.word a') :
    m a = m' a' ∧ m (a + 1) = m' (a' + 1) := by
  have hlow := congrArg (· % 256) h
  have hhigh := congrArg (· / 256) h
  simp only [word_mod, word_div] at hlow hhigh
  exact ⟨UInt8.toNat_inj.mp hlow, UInt8.toNat_inj.mp hhigh⟩

/-- The same words are the same bytes. -/
theorem WordsAt.bytes_eq {m' : Memory} {ws : List ℕ} :
    ∀ {a a' : ℕ}, WordsAt m a ws → WordsAt m' a' ws →
      ∀ i, i < 2 * ws.length → m (a + i) = m' (a' + i) := by
  induction ws with
  | nil => intro _ _ _ _ i hi; simp at hi
  | cons w ws ih =>
    intro a a' h h' i hi
    simp only [List.length_cons] at hi
    obtain ⟨h₀, h₁⟩ := eq_of_word_eq (h.1.trans h'.1.symm)
    match i with
    | 0 => exact h₀
    | 1 => exact h₁
    | i + 2 =>
      have := ih h.2 h'.2 i (by omega)
      rwa [show a + (i + 2) = a + 2 + i by omega, show a' + (i + 2) = a' + 2 + i by omega]

theorem WordsAt.lt {ws : List ℕ} : ∀ {a : ℕ}, WordsAt m a ws → ∀ w ∈ ws, w < 65536 := by
  induction ws with
  | nil => simp
  | cons v ws ih =>
    intro a h w hw
    rcases List.mem_cons.mp hw with rfl | hw
    · exact h.1 ▸ word_lt _ _
    · exact ih h.2 w hw

theorem BytesAt.get {bs : List ℕ} :
    ∀ {a : ℕ}, BytesAt m a bs → ∀ {i : ℕ} (h : i < bs.length), m.byte (a + i) = bs[i] := by
  induction bs with
  | nil => intro _ _ i h; simp at h
  | cons b bs ih =>
    intro a hb i h
    cases i with
    | zero => simpa using hb.1
    | succ i =>
      have := ih hb.2 (i := i) (by simpa using h)
      rw [List.getElem_cons_succ, ← this, show a + (i + 1) = a + 1 + i by omega]

/-- The bytes found at `a`. -/
def bytes (m : Memory) (a n : ℕ) : List ℕ := (List.range n).map fun i => m.byte (a + i)

@[simp] theorem length_bytes (m : Memory) (a n : ℕ) : (m.bytes a n).length = n := by
  simp [bytes]

@[simp] theorem bytes_zero (m : Memory) (a : ℕ) : m.bytes a 0 = [] := rfl

theorem bytes_succ (m : Memory) (a n : ℕ) :
    m.bytes a (n + 1) = m.byte a :: m.bytes (a + 1) n := by
  simp only [bytes, List.range_succ_eq_map, List.map_cons, List.map_map, Nat.add_zero]
  congr 1
  refine List.map_congr_left fun i _ => ?_
  simp only [Function.comp_apply]
  rw [show a + i.succ = a + 1 + i by omega]

theorem BytesAt.eq_bytes {bs : List ℕ} :
    ∀ {a : ℕ}, BytesAt m a bs → m.bytes a bs.length = bs := by
  induction bs with
  | nil => intro _ _; rfl
  | cons b bs ih => intro a h; rw [List.length_cons, bytes_succ, h.1, ih h.2]

theorem bytesAt_bytes (m : Memory) : ∀ (n a : ℕ), BytesAt m a (m.bytes a n) := by
  intro n
  induction n with
  | zero => intro a; trivial
  | succ n ih => intro a; rw [bytes_succ]; exact ⟨rfl, ih _⟩

/-- The memory that holds `bs` from `a` upwards and zeros elsewhere. -/
def ofBytes (a : ℕ) (bs : List ℕ) : Memory := fun i => UInt8.ofNat (bs.getD (i - a) 0)

/-- Words can be stored. -/
theorem exists_wordsAt (m : Memory) (a : ℕ) (ws : List ℕ) (hws : ∀ w ∈ ws, w < 65536) :
    ∃ m' : Memory, m'.WordsAt a ws ∧ EqOff a (a + 2 * ws.length) m m' := by
  induction ws generalizing a m with
  | nil => exact ⟨m, trivial, .refl _ _ _⟩
  | cons w ws ih =>
    obtain ⟨m', hm', hoff⟩ := ih (m.setWord a w) (a + 2) fun v hv => hws v (by simp [hv])
    refine ⟨m', ⟨?_, hm'⟩, ?_⟩
    · rw [hoff.word (.inl (Nat.le_refl _)), word_setWord (hws w (by simp))]
    · rw [List.length_cons]
      exact ((EqOff.refl _ _ _).setWord (Nat.le_refl a) (by omega)).trans
        (hoff.mono (by omega) (by omega))

end Memory
