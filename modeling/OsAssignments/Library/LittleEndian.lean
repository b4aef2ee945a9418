import Mathlib.Data.Nat.ModEq
import Mathlib.Data.List.Basic
import Mathlib.Tactic.Ring

/-!
# Little-endian words

The bytes of a natural number at a fixed width, least significant first, and the number read
back from bytes. Reading what was written returns the number reduced to the width, so a number
that fits its width survives the trip unchanged. Machine addition and subtraction of naturals
are kept beside the encoding, since a word read from bytes is always reduced.
-/

namespace LittleEndian

/-- The low `width` bytes of a number, least significant first. -/
def encode : Nat → Nat → List UInt8
  | 0, _ => []
  | width + 1, value => UInt8.ofNat value :: encode width (value / 256)

/-- The number with the given bytes, least significant first. -/
def decode : List UInt8 → Nat
  | [] => 0
  | byte :: rest => byte.toNat + 256 * decode rest

/-- An encoding has exactly its width. -/
@[simp]
theorem length_encode (width value : Nat) : (encode width value).length = width := by
  induction width generalizing value with
  | zero => rfl
  | succ width ih => simp [encode, ih]

/-- Reading an encoding returns the value reduced to the width. -/
theorem decode_encode (width value : Nat) : decode (encode width value) = value % 256 ^ width := by
  induction width generalizing value with
  | zero => simp [encode, decode, Nat.mod_one]
  | succ width ih =>
    have digit : (UInt8.ofNat value).toNat = value % 256 := by simp
    rw [encode, decode, ih, digit, pow_succ', Nat.mod_mul]

/-- A value that fits the width is read back exactly. -/
theorem decode_encode_of_lt {width value : Nat} (fits : value < 256 ^ width) :
    decode (encode width value) = value := by
  rw [decode_encode, Nat.mod_eq_of_lt fits]

/-- A number read from bytes fits their width. -/
theorem decode_lt (bytes : List UInt8) : decode bytes < 256 ^ bytes.length := by
  induction bytes with
  | nil => simp [decode]
  | cons byte rest ih =>
    have digit := byte.toNat_lt
    rw [decode, List.length_cons, pow_succ]
    omega

/-- A value that leaves a byte of its width unused is encoded with a zero byte. -/
theorem zero_mem_encode {width value : Nat} (fits : value < 256 ^ width) :
    (0 : UInt8) ∈ encode (width + 1) value := by
  induction width generalizing value with
  | zero =>
    obtain rfl : value = 0 := by simpa using fits
    exact List.mem_cons_self
  | succ width ih =>
    rw [pow_succ] at fits
    exact List.mem_cons_of_mem _ (ih (by omega))

/-- The number read from bytes is encoded as the bytes again. -/
theorem encode_decode (bytes : List UInt8) : encode bytes.length (decode bytes) = bytes := by
  induction bytes with
  | nil => rfl
  | cons byte rest ih =>
    have digit := byte.toNat_lt
    have low : UInt8.ofNat (byte.toNat + 256 * decode rest) = byte := by
      apply UInt8.toNat_inj.mp
      rw [UInt8.toNat_ofNat']
      omega
    have high : (byte.toNat + 256 * decode rest) / 256 = decode rest := by omega
    rw [List.length_cons, encode, decode, low, high, ih]

end LittleEndian

namespace MachineWord

/-- Unsigned 64-bit addition: the sum reduced to a word. -/
def add (left right : Nat) : Nat := (left + right) % 2 ^ 64

/-- Unsigned 64-bit subtraction of words: the difference reduced to a word. -/
def sub (left right : Nat) : Nat := (left + 2 ^ 64 - right) % 2 ^ 64

/-- The signed reading of a 64-bit word, in two's complement. -/
def toSigned (word : Nat) : Int := if word < 2 ^ 63 then word else (word : Int) - 2 ^ 64

/-- A sum that fits a word is the sum of the numbers. -/
theorem add_of_lt {left right : Nat} (fits : left + right < 2 ^ 64) :
    add left right = left + right := Nat.mod_eq_of_lt fits

/-- A difference of a word and a smaller one is the difference of the numbers. -/
theorem sub_of_le {left right : Nat} (word : left < 2 ^ 64) (ordered : right ≤ left) :
    sub left right = left - right := by
  unfold sub
  omega

/-- The lower half of the words reads as itself. -/
theorem toSigned_of_lt {word : Nat} (small : word < 2 ^ 63) : toSigned word = word :=
  if_pos small

end MachineWord
