import OsAssignments.Library.ByteMemory

/-!
# Block headers in memory

The header of a block (`struct s_block`) lies in the same memory as the payloads, at the block's
own address. Its fields are little-endian words at fixed offsets, with four bytes of padding
after the `int` field. A field read sees the last write to that field and no write to another
field or to the header of a block apart from it.
-/

namespace OsAssignments.MmAlloc

open ByteMemory

/-- `BLOCK_SIZE`: the size of a header, and the offset of `data` behind it. -/
def blockSize : Nat := 40

/-- The null pointer. -/
def null : Nat := 0

/-- The fields of `struct s_block`, `data` apart. -/
inductive Field
  /-- `size_t size`: bytes of the payload. -/
  | size
  /-- `struct s_block *next`. -/
  | next
  /-- `struct s_block *prev`. -/
  | prev
  /-- `int free`. -/
  | free
  /-- `void *ptr`: the address of the block itself. -/
  | ptr
  deriving DecidableEq, Repr

/-- Where a field starts in its header. -/
def Field.offset : Field → Nat
  | .size => 0
  | .next => 8
  | .prev => 16
  | .free => 24
  | .ptr => 32

/-- The bytes a field takes. -/
def Field.width : Field → Nat
  | .free => 4
  | _ => 8

/-- The value of a field of the header at an address. -/
def readField (memory : ByteMemory) (block : Nat) (field : Field) : Nat :=
  memory.readWord (block + field.offset) field.width

/-- Assign a field of the header at an address. -/
def writeField (memory : ByteMemory) (block : Nat) (field : Field) (value : Nat) : ByteMemory :=
  memory.writeWord (block + field.offset) field.width value

/-- `data`: the address of a block's payload. -/
def dataOf (block : Nat) : Nat := block + blockSize

/-- A `struct s_block` variable on the stack; its padding holds whatever the stack held. -/
structure SBlock where
  /-- `size`. -/
  size : Nat
  /-- `next`. -/
  next : Nat
  /-- `prev`. -/
  prev : Nat
  /-- `free`. -/
  free : Nat
  /-- `ptr`. -/
  ptr : Nat
  /-- The four bytes between `free` and `ptr`. -/
  padding : UInt32

/-- `memcpy(p, &sb, BLOCK_SIZE)`: every field and the padding of the struct. -/
def storeHeader (memory : ByteMemory) (block : Nat) (sb : SBlock) : ByteMemory :=
  let memory := writeField memory block .size sb.size
  let memory := writeField memory block .next sb.next
  let memory := writeField memory block .prev sb.prev
  let memory := writeField memory block .free sb.free
  let memory := memory.writeWord (block + 28) 4 sb.padding.toNat
  writeField memory block .ptr sb.ptr

variable {memory other : ByteMemory} {block apart value start finish : Nat} {field written : Field}

/-- Every field lies inside the header. -/
theorem Field.offset_width_le (field : Field) : field.offset + field.width ≤ blockSize := by
  cases field <;> decide

/-- Distinct fields share no byte. -/
theorem Field.disjoint (different : field ≠ written) :
    field.offset + field.width ≤ written.offset ∨
      written.offset + written.width ≤ field.offset := by
  cases field <;> cases written <;> first | contradiction | decide

/-- A field read after a write to the same header. -/
theorem readField_writeField :
    readField (writeField memory block written value) block field =
      if field = written then value % 256 ^ written.width else readField memory block field := by
  split
  · subst field
    exact readWord_writeWord
  · rename_i different
    have := Field.disjoint different
    exact readWord_congr (writeWord_agree (by omega))

/-- A field read after a write to it that fits returns the value. -/
theorem readField_written (small : value < 256 ^ field.width) :
    readField (writeField memory block field value) block field = value := by
  rw [readField_writeField, if_pos rfl, Nat.mod_eq_of_lt small]

/-- A field read after a write to another field of the header is unchanged. -/
theorem readField_unwritten (different : field ≠ written) :
    readField (writeField memory block written value) block field = readField memory block field := by
  rw [readField_writeField, if_neg different]

/-- A write to a header leaves every range apart from that header alone. -/
theorem writeField_agree (away : finish ≤ block ∨ block + blockSize ≤ start) :
    AgreeOn (writeField memory block field value) memory start finish := by
  have := field.offset_width_le
  exact writeWord_agree (by omega)

/-- The padding of a header is no part of any field. -/
theorem readField_padding :
    readField (memory.writeWord (block + 28) 4 value) block field = readField memory block field := by
  apply readWord_congr
  apply writeWord_agree
  cases field <;> simp [Field.offset, Field.width]

/-- Fields depend only on the bytes of their header. -/
theorem readField_congr (agree : AgreeOn memory other block (block + blockSize)) :
    readField memory block field = readField other block field := by
  have := field.offset_width_le
  exact readWord_congr (agree.mono (by omega) (by omega))

/-- A copied header leaves every range apart from it alone. -/
theorem storeHeader_agree {sb : SBlock} (away : finish ≤ block ∨ block + blockSize ≤ start) :
    AgreeOn (storeHeader memory block sb) memory start finish := by
  have inside : finish ≤ block + 28 ∨ block + 28 + 4 ≤ start := by unfold blockSize at away; omega
  unfold storeHeader
  exact (writeField_agree away).trans <| (writeWord_agree inside).trans <|
    (writeField_agree away).trans <| (writeField_agree away).trans <|
    (writeField_agree away).trans (writeField_agree away)

/-- The fields of a copied header are those of the struct, each reduced to its width. -/
theorem readField_storeHeader {sb : SBlock} :
    readField (storeHeader memory block sb) block field =
      match field with
      | .size => sb.size % 2 ^ 64
      | .next => sb.next % 2 ^ 64
      | .prev => sb.prev % 2 ^ 64
      | .free => sb.free % 2 ^ 32
      | .ptr => sb.ptr % 2 ^ 64 := by
  cases field <;> simp [storeHeader, readField_padding, readField_writeField, Field.width]

end OsAssignments.MmAlloc
