import Mathlib.Data.List.TakeWhile

/-!
# C strings

Byte strings without a zero byte, which is put behind them where they are stored. Comparing a
stored string with another one stops at the first difference, so it stays in any memory longer
than the other string, and it finds them equal exactly when the other one is stored there.
-/

/-- A byte string without a zero byte. -/
structure CString where
  /-- The bytes, without the zero byte that ends them in memory. -/
  bytes : List UInt8
  /-- No byte is zero. -/
  proper : (0 : UInt8) ∉ bytes
  deriving DecidableEq

namespace CString

variable {s t : CString} {memory : List UInt8}

/-- The number of bytes, as `strlen` counts them. -/
def length (s : CString) : Nat := s.bytes.length

/-- The bytes that `strcpy` copies: the string and the zero byte behind it. -/
def stored (s : CString) : List UInt8 := s.bytes ++ [0]

/-- Whether `strcmp` finds the string at the front of a memory equal to the given bytes; nothing
when it reads past the end of the memory. -/
def compare : List UInt8 → List UInt8 → Option Bool
  | [], _ => none
  | byte :: _, [] => some (decide (byte = 0))
  | byte :: memory, char :: rest => if byte = char then compare memory rest else some false

/-- The string at the front of a memory. -/
def read (memory : List UInt8) : List UInt8 := memory.takeWhile (· ≠ 0)

/-- Reading ends at the first zero byte: the string read begins with what the memory begins
with, if that has no zero byte. -/
theorem prefix_read {bytes : List UInt8} :
    bytes <+: read memory ↔ (0 : UInt8) ∉ bytes ∧ bytes <+: memory := by
  constructor
  · intro front
    refine ⟨fun zero => ?_, front.trans (List.takeWhile_prefix _)⟩
    simpa using List.mem_takeWhile_imp (front.subset zero)
  · rintro ⟨proper, rest, rfl⟩
    have all : ∀ byte ∈ bytes, decide (byte ≠ 0) = true := by
      intro byte member
      simp only [decide_eq_true_eq]
      rintro rfl
      exact proper member
    rw [read, List.takeWhile_append_of_pos all]
    exact List.prefix_append bytes _

/-- A string read has no zero byte. -/
theorem zero_notMem_read : (0 : UInt8) ∉ read memory := (prefix_read.mp List.prefix_rfl).1

/-- Reading a string that was read returns it. -/
@[simp]
theorem read_read : read (read memory) = read memory := List.takeWhile_idem

/-- What is read of a memory with a zero byte behind it is followed by a zero byte. -/
theorem read_zero (memory : List UInt8) : ∃ rest, memory ++ [0] = read memory ++ 0 :: rest := by
  induction memory with
  | nil => exact ⟨[], rfl⟩
  | cons byte memory ih =>
    by_cases zero : byte = 0
    · exact ⟨memory ++ [0], by simp [read, zero]⟩
    · obtain ⟨rest, whole⟩ := ih
      refine ⟨rest, ?_⟩
      rw [List.cons_append, whole, read, read, List.takeWhile_cons_of_pos (by simpa using zero),
        List.cons_append]

/-- A stored string takes one byte more than its length. -/
@[simp]
theorem length_stored (s : CString) : s.stored.length = s.length + 1 := by simp [stored, length]

/-- In a memory longer than the given bytes the comparison decides whether they are stored
there. -/
theorem compare_bytes {bytes : List UInt8} (enough : bytes.length < memory.length) :
    compare memory bytes = some (decide (bytes ++ [0] <+: memory)) := by
  induction bytes generalizing memory with
  | nil =>
    cases memory with
    | nil => simp at enough
    | cons byte memory => simp [compare, List.cons_prefix_cons, eq_comm]
  | cons char rest ih =>
    cases memory with
    | nil => simp at enough
    | cons byte memory =>
      rw [compare, List.cons_append]
      by_cases same : byte = char
      · rw [if_pos same, ih (by simpa using enough)]
        simp [List.cons_prefix_cons, same]
      · simp [same, List.cons_prefix_cons, Ne.symm same]

/-- In a memory longer than the other string the comparison decides whether it is stored there. -/
theorem compare_eq (enough : s.length < memory.length) :
    compare memory s.bytes = some (decide (s.stored <+: memory)) := compare_bytes enough

/-- A comparison with bytes that are not zero is decided at the first zero byte of a memory at the
latest. -/
theorem compare_append {left rest bytes : List UInt8} (zero : (0 : UInt8) ∈ left)
    (proper : (0 : UInt8) ∉ bytes) :
    compare (left ++ rest) bytes = some (decide (bytes ++ [0] <+: left)) := by
  induction left generalizing bytes with
  | nil => cases zero
  | cons byte left ih =>
    cases bytes with
    | nil => simp [compare, List.cons_prefix_cons, eq_comm]
    | cons char bytes =>
      obtain ⟨nonzero, proper⟩ := not_or.mp (mt List.mem_cons.mpr proper)
      rw [List.cons_append, compare]
      by_cases same : byte = char
      · have later : (0 : UInt8) ∈ left :=
          (List.mem_cons.mp zero).resolve_left (same ▸ nonzero)
        rw [if_pos same, ih later proper]
        simp [List.cons_prefix_cons, same]
      · simp [same, List.cons_prefix_cons, Ne.symm same]

/-- Whether a string is stored at the front of a memory is decided at its first zero byte. -/
theorem stored_prefix_append {left : List UInt8} (rest : List UInt8) (zero : (0 : UInt8) ∈ left) :
    s.stored <+: left ++ rest ↔ s.stored <+: left := by
  have first := @compare_append left rest s.bytes zero s.proper
  have second := @compare_append (left ++ rest) [] s.bytes (List.mem_append_left rest zero) s.proper
  rw [List.append_nil, first, Option.some.injEq, decide_eq_decide] at second
  exact second.symm

/-- Reading where a string is stored returns its bytes. -/
theorem read_eq (there : s.stored <+: memory) : read memory = s.bytes := by
  obtain ⟨rest, rfl⟩ := there
  have all : ∀ byte ∈ s.bytes, decide (byte ≠ 0) = true := by
    intro byte member
    simp only [decide_eq_true_eq]
    rintro rfl
    exact s.proper member
  rw [read, stored, List.append_assoc, List.takeWhile_append_of_pos all]
  simp

/-- At most one string is stored at the front of a memory. -/
theorem stored_unique (first : s.stored <+: memory) (second : t.stored <+: memory) : s = t := by
  have same : s.bytes = t.bytes := (read_eq first).symm.trans (read_eq second)
  obtain ⟨bytes, proper⟩ := s
  obtain ⟨bytes', proper'⟩ := t
  subst same
  rfl

end CString
