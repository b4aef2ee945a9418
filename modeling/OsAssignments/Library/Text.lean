import Mathlib.Data.Nat.Digits.Defs

/-!
# Text in bytes

The bytes of ASCII text and of decimal numbers, what the functions of C read a number as, and what is
read from a byte string up to a byte that ends it. Numbers with a byte behind them that is no digit are told apart.
-/

namespace Text

/-- The bytes of ASCII text. -/
def ascii (text : String) : List UInt8 := text.toList.map fun char => char.toNat.toUInt8

/-- The bytes that `%d` prints of a number that is not negative. -/
def decimal (number : Nat) : List UInt8 :=
  if number = 0 then [48] else (Nat.digits 10 number).reverse.map fun digit => (48 + digit).toUInt8

/-- `isspace`. -/
def isspace (byte : UInt8) : Bool := byte = 32 || (9 ≤ byte && byte ≤ 13)

/-- The digits at the front of a text and the value they have in base ten. -/
def leadingDigits (text : List UInt8) : Nat :=
  (text.takeWhile fun byte => 48 ≤ byte && byte ≤ 57).foldl
    (fun value byte => 10 * value + (byte.toNat - 48)) 0

/-- `strtol(text, NULL, 10)`: white space, a sign and digits, within the bounds of a `long`. -/
def strtol (text : List UInt8) : Int :=
  let value : Int :=
    match text.dropWhile isspace with
    | 45 :: rest => -(leadingDigits rest : Int)
    | 43 :: rest => leadingDigits rest
    | rest => leadingDigits rest
  max (-2 ^ 63) (min value (2 ^ 63 - 1))

/-- `atoi`: what `strtol` reads, in an `int`. -/
def atoi (text : List UInt8) : Int := (strtol text).bmod (2 ^ 32)

variable {α : Type} {keep : α → Bool} {left right rest rest' : List α} {stop : α} {number other : Nat}

/-- What is kept of a text up to the byte that ends it. -/
theorem takeWhile_stop (kept : ∀ byte ∈ left, keep byte = true) (ends : keep stop = false) :
    (left ++ stop :: rest).takeWhile keep = left := by
  rw [List.takeWhile_append_of_pos kept, List.takeWhile_cons_of_neg (by simp [ends]),
    List.append_nil]

/-- A text is kept whole, or it is cut at the first byte that is not kept. -/
theorem cut_cases (keep : α → Bool) (text : List α) :
    ((∀ byte ∈ text, keep byte = true) ∧ text.takeWhile keep = text) ∨
      ∃ left stop rest, text = left ++ stop :: rest ∧ (∀ byte ∈ left, keep byte = true) ∧
        keep stop = false ∧ text.takeWhile keep = left := by
  induction text with
  | nil => exact .inl ⟨by simp, rfl⟩
  | cons byte text ih =>
    cases kept : keep byte with
    | false => exact .inr ⟨[], byte, text, rfl, by simp, kept, by simp [kept]⟩
    | true =>
      rcases ih with ⟨all, whole⟩ | ⟨left, stop, rest, rfl, inside, ends, taken⟩
      · exact .inl ⟨List.forall_mem_cons.mpr ⟨kept, all⟩, by simp [kept, whole]⟩
      · exact .inr ⟨byte :: left, stop, rest, rfl, List.forall_mem_cons.mpr ⟨kept, inside⟩, ends,
          by simp [kept, taken]⟩

/-- Two texts that end at the first such byte are equal when what they begin is. -/
theorem left_unique (kept : ∀ byte ∈ left, keep byte = true)
    (kept' : ∀ byte ∈ right, keep byte = true) (ends : keep stop = false)
    (same : left ++ stop :: rest = right ++ stop :: rest') : left = right := by
  calc
    left = (left ++ stop :: rest).takeWhile keep := (takeWhile_stop kept ends).symm
    _ = (right ++ stop :: rest').takeWhile keep := by rw [same]
    _ = right := takeWhile_stop kept' ends

/-- The byte of a digit. -/
theorem toNat_digit {digit : Nat} (small : digit < 10) : (48 + digit).toUInt8.toNat = 48 + digit := by
  rw [UInt8.toNat_ofNat']
  omega

/-- Numbers are printed in digits. -/
theorem decimal_digits : ∀ byte ∈ decimal number, 48 ≤ byte.toNat ∧ byte.toNat ≤ 57 := by
  intro byte member
  unfold decimal at member
  split at member
  · obtain rfl := List.mem_singleton.mp member
    decide
  · obtain ⟨digit, inside, rfl⟩ := List.mem_map.mp member
    have small := Nat.digits_lt_base (by decide) (List.mem_reverse.mp inside)
    rw [toNat_digit small]
    omega

/-- Different numbers are printed differently. -/
theorem decimal_injective : Function.Injective decimal := by
  have back : ∀ number, number ≠ 0 →
      ((decimal number).map fun byte => byte.toNat - 48).reverse = Nat.digits 10 number := by
    intro number positive
    unfold decimal
    rw [if_neg positive, List.map_map, ← List.map_reverse, List.reverse_reverse]
    conv_rhs => rw [← List.map_id (Nat.digits 10 number)]
    apply List.map_congr_left
    intro digit inside
    have small := Nat.digits_lt_base (by decide) inside
    simp only [Function.comp_apply, toNat_digit small]
    simp
  have zero : ∀ number, number ≠ 0 → decimal number ≠ decimal 0 := by
    intro number positive same
    have digits := back number positive
    rw [same] at digits
    have nothing : Nat.digits 10 number = [0] := digits.symm
    have value := Nat.ofDigits_digits 10 number
    rw [nothing] at value
    exact positive value.symm
  intro number other same
  by_cases positive : number = 0
  · by_cases positive' : other = 0
    · rw [positive, positive']
    · exact absurd (positive ▸ same).symm (zero other positive')
  · by_cases positive' : other = 0
    · exact absurd (positive' ▸ same) (zero number positive)
    · apply Nat.digits_inj_iff.mp
      rw [← back number positive, ← back other positive', same]

/-- Numbers with a space behind them are told apart. -/
theorem decimal_unique {rest rest' : List UInt8}
    (same : decimal number ++ 32 :: rest = decimal other ++ 32 :: rest') : number = other := by
  have digit : ∀ number, ∀ byte ∈ decimal number, decide (byte ≠ 32) = true := by
    intro number byte member
    have bounds := decimal_digits byte member
    simp only [decide_eq_true_eq]
    rintro rfl
    exact absurd bounds.1 (by decide)
  exact decimal_injective (left_unique (digit number) (digit other) (by decide) same)

/-- The number that decimal digits stand for. -/
def readDecimal (digits : List UInt8) : Nat :=
  digits.foldl (fun value byte => 10 * value + (byte.toNat - 48)) 0

/-- Numbers are read as they are printed. -/
theorem readDecimal_decimal : readDecimal (decimal number) = number := by
  have folds : ∀ digits : List Nat, (∀ digit ∈ digits, digit < 10) →
      readDecimal (digits.reverse.map fun digit => (48 + digit).toUInt8) = Nat.ofDigits 10 digits := by
    intro digits small
    induction digits with
    | nil => rfl
    | cons digit rest ih =>
      obtain ⟨first, others⟩ := List.forall_mem_cons.mp small
      rw [List.reverse_cons, List.map_append, readDecimal, List.foldl_append, ← readDecimal,
        ih others, List.map_singleton, List.foldl_cons, List.foldl_nil, toNat_digit first,
        Nat.ofDigits_cons]
      omega
  unfold decimal
  split
  · rename_i zero
    rw [zero]
    rfl
  · rw [folds _ fun digit member => Nat.digits_lt_base (by decide) member, Nat.ofDigits_digits]

end Text
