import Basic65816.Machine.Run
import Basic65816.Expression.Surroundings

/-!
# Frames on the BASIC stack

The stack pointer points at the last word of the top frame, which tells the kind of the frame; the
words below are its data. A frame is read from the top downwards, and below the last frame is the
zero word of the empty stack.

## Main definitions

* `StackFrame`: the kinds of frames with their data
* `Memory.Frames`: the frames from the stack pointer down to the sentinel

## Main results

* `Memory.Frames.unique`: the stack can be read in one way only
* `Memory.Frames.congr`: what is above the stack pointer does not matter
-/

namespace Basic65816

/-- The statements that leave a frame with a code pointer and a line number. -/
inductive BlockKind
  | repeat | while | gosub | proc
  deriving DecidableEq, Repr

/-- The kinds of frames. -/
inductive FrameKind
  | loop | block (kind : BlockKind) | cond | integer | string
  deriving DecidableEq, Repr

/-- The frames of the BASIC stack. -/
inductive StackFrame
  /-- `for`: the code pointer behind `to`, the line number and the data address of the variable. -/
  | loop (code line var : ℕ)
  /-- `repeat`, `while`, `gosub` and `proc`: a code pointer and a line number. -/
  | block (kind : BlockKind) (code line : ℕ)
  /-- `if`. -/
  | cond
  /-- A local integer: its value and its data address. -/
  | integer (low high var : ℕ)
  /-- A local string: its characters and its data address. -/
  | string (chars : List ℕ) (var : ℕ)
  deriving DecidableEq, Repr

/-- The token of the statement. -/
def BlockKind.token : BlockKind → ℕ
  | .repeat => repeatTokenID
  | .while => whileTokenID
  | .gosub => gosubTokenID
  | .proc => procTokenID

/-- The word on top of a frame. -/
def FrameKind.marker : FrameKind → ℕ
  | .loop => forTokenID
  | .block kind => kind.token
  | .cond => ifTokenID
  | .integer => 0xC000
  | .string => 0xE000

/-- The word on top tells the kind. -/
theorem FrameKind.marker_inj {k k' : FrameKind} (h : k.marker = k'.marker) : k = k' := by
  cases k with
  | block b =>
    cases k' with
    | block b' =>
      cases b <;> cases b' <;> first | rfl | exact absurd h (by decide)
    | _ => cases b <;> exact absurd h (by decide)
  | _ =>
    cases k' with
    | block b' => cases b' <;> exact absurd h (by decide)
    | _ => first | rfl | exact absurd h (by decide)

theorem FrameKind.marker_ne_zero (k : FrameKind) : k.marker ≠ 0 := by
  cases k with
  | block b => cases b <;> decide
  | _ => decide

/-- A kind of local variables. -/
def FrameKind.IsLocal (k : FrameKind) : Prop := k = .integer ∨ k = .string

instance : DecidablePred FrameKind.IsLocal := fun _ => inferInstanceAs (Decidable (_ ∨ _))

theorem FrameKind.isLocal_iff (k : FrameKind) : k.IsLocal ↔ 0xC000 ≤ k.marker := by
  cases k with
  | block b => cases b <;> decide
  | _ => decide

namespace StackFrame

def kind : StackFrame → FrameKind
  | .loop .. => .loop
  | .block kind .. => .block kind
  | .cond => .cond
  | .integer .. => .integer
  | .string .. => .string

/-- The number of bytes a frame takes. -/
def size : StackFrame → ℕ
  | .loop .. => 8
  | .block .. => 6
  | .cond => 2
  | .integer .. => 8
  | .string chars _ => chars.length + 5

end StackFrame

end Basic65816

namespace Memory

open Basic65816

/-- The bytes `bs` are stored from `a` downwards. -/
def BytesDown (m : Memory) : ℕ → List ℕ → Prop
  | _, [] => True
  | a, b :: bs => m.byte a = b ∧ BytesDown m (a - 1) bs

/-- The frame `f` ends with the word at `s`. -/
def FrameAt (m : Memory) (s : ℕ) (f : StackFrame) : Prop :=
  m.word s = f.kind.marker ∧
    match f with
    | .loop code line var => m.word (s - 2) = var ∧ m.word (s - 4) = line ∧ m.word (s - 6) = code
    | .block _ code line => m.word (s - 2) = line ∧ m.word (s - 4) = code
    | .cond => True
    | .integer low high var => m.word (s - 2) = var ∧ m.word (s - 4) = high ∧ m.word (s - 6) = low
    | .string chars var =>
      m.word (s - 2) = var ∧ m.byte (s - 3) = chars.length ∧ m.BytesDown (s - 4) chars

/-- The frames `fs`, the top one first, lie between the sentinel and the word at `s`. -/
def Frames (m : Memory) : ℕ → List StackFrame → Prop
  | s, [] => s = basStack ∧ m.word s = 0
  | s, f :: fs => basStack + f.size ≤ s ∧ m.FrameAt s f ∧ Frames m (s - f.size) fs

variable {m m' : Memory} {s a : ℕ} {f f' : StackFrame} {fs fs' : List StackFrame} {bs bs' : List ℕ}

theorem BytesDown.congr (h : m.BytesDown a bs) (ha : bs.length ≤ a + 1)
    (he : ∀ i ≤ a, m' i = m i) : m'.BytesDown a bs := by
  induction bs generalizing a with
  | nil => trivial
  | cons b bs ih =>
    refine ⟨(byte_congr (he a (Nat.le_refl a))).trans h.1, ?_⟩
    cases bs with
    | nil => trivial
    | cons c bs =>
      simp only [List.length_cons] at ha
      exact ih h.2 (by simp only [List.length_cons]; omega) fun i hi => he i (by omega)

theorem BytesDown.unique (h : m.BytesDown a bs) (h' : m.BytesDown a bs')
    (hl : bs.length = bs'.length) : bs = bs' := by
  induction bs generalizing a bs' with
  | nil => exact (List.length_eq_zero_iff.mp hl.symm).symm
  | cons b bs ih =>
    cases bs' with
    | nil => simp at hl
    | cons b' bs' =>
      rw [← h.1, ← h'.1, ih h.2 h'.2 (by simpa using hl)]

/-- A frame depends on the bytes up to its last word. -/
theorem FrameAt.congr (h : m.FrameAt s f) (hs : f.size ≤ s) (he : ∀ i < s + 2, m' i = m i) :
    m'.FrameAt s f := by
  have hword : ∀ a ≤ s, m'.word a = m.word a := fun a ha =>
    word_congr (he a (by omega)) (he (a + 1) (by omega))
  refine ⟨(hword s (Nat.le_refl s)).trans h.1, ?_⟩
  have hf := h.2
  cases f with
  | loop code line var =>
    exact ⟨(hword _ (Nat.sub_le _ _)).trans hf.1, (hword _ (Nat.sub_le _ _)).trans hf.2.1,
      (hword _ (Nat.sub_le _ _)).trans hf.2.2⟩
  | block kind code line =>
    exact ⟨(hword _ (Nat.sub_le _ _)).trans hf.1, (hword _ (Nat.sub_le _ _)).trans hf.2⟩
  | cond => trivial
  | integer low high var =>
    exact ⟨(hword _ (Nat.sub_le _ _)).trans hf.1, (hword _ (Nat.sub_le _ _)).trans hf.2.1,
      (hword _ (Nat.sub_le _ _)).trans hf.2.2⟩
  | string chars var =>
    have hsize : chars.length + 5 ≤ s := hs
    refine ⟨(hword _ (Nat.sub_le _ _)).trans hf.1, ?_, ?_⟩
    · exact (byte_congr (he _ (by omega))).trans hf.2.1
    · exact hf.2.2.congr (by omega) fun i hi => he i (by omega)

/-- **What is above the stack pointer does not matter.** -/
theorem Frames.congr (h : m.Frames s fs) (he : ∀ i < s + 2, m' i = m i) : m'.Frames s fs := by
  induction fs generalizing s with
  | nil =>
    exact ⟨h.1, (word_congr (he s (by omega)) (he (s + 1) (by omega))).trans h.2⟩
  | cons f fs ih =>
    obtain ⟨hs, hf, hfs⟩ := h
    exact ⟨hs, hf.congr (by omega) he, ih hfs fun i hi => he i (by omega)⟩

/-- The word on top tells the kind of the frame and, with the length of a string, its data. -/
theorem FrameAt.unique (h : m.FrameAt s f) (h' : m.FrameAt s f') : f = f' := by
  have hkind : f.kind = f'.kind := FrameKind.marker_inj (h.1.symm.trans h'.1)
  have hf := h.2
  have hf' := h'.2
  cases f with
  | loop code line var =>
    cases f' with
    | loop => rw [← hf.1, ← hf.2.1, ← hf.2.2, ← hf'.1, ← hf'.2.1, ← hf'.2.2]
    | _ => cases hkind
  | block kind code line =>
    cases f' with
    | block =>
      cases hkind
      rw [← hf.1, ← hf.2, ← hf'.1, ← hf'.2]
    | _ => cases hkind
  | cond =>
    cases f' with
    | cond => rfl
    | _ => cases hkind
  | integer low high var =>
    cases f' with
    | integer => rw [← hf.1, ← hf.2.1, ← hf.2.2, ← hf'.1, ← hf'.2.1, ← hf'.2.2]
    | _ => cases hkind
  | string chars var =>
    cases f' with
    | string chars' =>
      have hc := hf.2.2.unique hf'.2.2 (hf.2.1.symm.trans hf'.2.1)
      rw [hc, ← hf.1, ← hf'.1]
    | _ => cases hkind

theorem FrameAt.ne_zero (h : m.FrameAt s f) : m.word s ≠ 0 := h.1 ▸ f.kind.marker_ne_zero

/-- **The stack can be read in one way only.** -/
theorem Frames.unique (h : m.Frames s fs) (h' : m.Frames s fs') : fs = fs' := by
  induction fs generalizing s fs' with
  | nil =>
    cases fs' with
    | nil => rfl
    | cons f' fs' => exact absurd h.2 h'.2.1.ne_zero
  | cons f fs ih =>
    cases fs' with
    | nil => exact absurd h'.2 h.2.1.ne_zero
    | cons f' fs' =>
      obtain rfl := h.2.1.unique h'.2.1
      rw [ih h.2.2 h'.2.2]

/-- The stack pointer is never below the sentinel. -/
theorem Frames.le (h : m.Frames s fs) : basStack ≤ s := by
  cases fs with
  | nil => exact h.1.ge
  | cons f fs => exact (Nat.le_add_right _ _).trans h.1

end Memory
