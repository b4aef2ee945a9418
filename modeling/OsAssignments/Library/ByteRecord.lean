import OsAssignments.Library.ByteMemory

/-!
# Records of bytes

A record is a byte string of a fixed length with readers and writers of its parts, as a C struct
is to the code that copies it about. Its parts behave as the ranges of a memory do: what was
written is read back, and what lies apart stays. Records laid one after another are cut apart
again at multiples of their length.
-/

/-- A byte string of a fixed length. -/
structure ByteRecord (length : Nat) where
  /-- The bytes. -/
  bytes : List UInt8
  /-- There are as many as the length says. -/
  length_bytes : bytes.length = length
  deriving DecidableEq

namespace ByteRecord

variable {length offset start count index : Nat} {bytes : List UInt8}
  {record other : ByteRecord length} {records : List (ByteRecord length)}

/-- The record of zero bytes. -/
def zero (length : Nat) : ByteRecord length := ⟨List.replicate length 0, by simp⟩

/-- The bytes of a part. -/
def slice (record : ByteRecord length) (offset count : Nat) : List UInt8 :=
  (record.bytes.drop offset).take count

/-- Overwrite a part; bytes beyond the end of the record are left out. -/
def overwrite (record : ByteRecord length) (offset : Nat) (bytes : List UInt8) :
    ByteRecord length where
  bytes := record.bytes.take offset ++ bytes.take (length - offset) ++
    record.bytes.drop (offset + bytes.length)
  length_bytes := by
    simp only [List.length_append, List.length_take, List.length_drop, record.length_bytes]
    omega

/-- A record as a memory that is zero behind its end. -/
def memory (record : ByteRecord length) : ByteMemory := fun address => record.bytes.getD address 0

/-- Records are equal when their bytes are, one by one. -/
theorem ext_memory (same : ∀ index, index < length → record.memory index = other.memory index) :
    record = other := by
  obtain ⟨left, leftLength⟩ := record
  obtain ⟨right, rightLength⟩ := other
  have bytes : left = right := by
    apply List.ext_getElem (by omega)
    intro index inside inside'
    simpa [memory, inside, inside'] using same index (by omega)
  subst bytes
  rfl

/-- A part that lies in the record is a range of its memory. -/
theorem slice_eq_load (fits : offset + count ≤ length) :
    record.slice offset count = record.memory.load offset count := by
  have whole := record.length_bytes
  apply List.ext_getElem
  · simp only [slice, List.length_take, List.length_drop, ByteMemory.length_load]
    omega
  · intro index inside inside'
    have within : offset + index < record.bytes.length := by
      rw [ByteMemory.length_load] at inside'
      omega
    rw [ByteMemory.getElem_load]
    simp [slice, memory, within]

/-- Within the record, overwriting a part stores it in the memory. -/
theorem memory_overwrite (inside : index < length) :
    (record.overwrite offset bytes).memory index = record.memory.store offset bytes index := by
  have whole := record.length_bytes
  simp only [memory, overwrite, ByteMemory.store, List.getD_eq_getElem?_getD]
  by_cases below : index < offset
  · rw [if_neg (by omega), List.append_assoc, List.getElem?_append_left (by simp; omega),
      List.getElem?_take_of_lt below]
  · rw [if_pos (by omega)]
    by_cases within : index < offset + bytes.length
    · rw [List.getElem?_append_left (by simp; omega), List.getElem?_append_right (by simp; omega),
        List.length_take, whole, Nat.min_eq_left (by omega), List.getElem?_take_of_lt (by omega),
        List.getElem?_eq_getElem (by omega)]
      simp
    · have beyond : bytes[index - offset]? = none := List.getElem?_eq_none (by omega)
      rw [List.getElem?_append_right (by simp; omega), List.getElem?_drop, beyond]
      simp only [List.length_append, List.length_take, whole, Option.getD_none]
      congr 2
      omega

/-- Overwriting a part leaves the bytes apart from it alone. -/
theorem getElem?_overwrite_apart (apart : index < offset ∨ offset + bytes.length ≤ index) :
    (record.overwrite offset bytes).bytes[index]? = record.bytes[index]? := by
  have whole := record.length_bytes
  have whole' := (record.overwrite offset bytes).length_bytes
  by_cases inside : index < length
  · have kept := @memory_overwrite length offset index bytes record inside
    rw [ByteMemory.store_outside apart] at kept
    have there : index < (record.overwrite offset bytes).bytes.length := by omega
    have there' : index < record.bytes.length := by omega
    simpa [memory, there, there'] using kept
  · rw [List.getElem?_eq_none (by omega), List.getElem?_eq_none (by omega)]

/-- A part has the length asked for. -/
theorem length_slice (fits : offset + count ≤ length) :
    (record.slice offset count).length = count := by
  rw [slice_eq_load fits, ByteMemory.length_load]

/-- Reading the part just overwritten returns the bytes. -/
theorem slice_overwrite (fits : offset + bytes.length ≤ length) :
    (record.overwrite offset bytes).slice offset bytes.length = bytes := by
  rw [slice_eq_load fits]
  calc
    (record.overwrite offset bytes).memory.load offset bytes.length
      = (record.memory.store offset bytes).load offset bytes.length :=
        ByteMemory.load_congr fun _ _ below => memory_overwrite (by omega)
    _ = bytes := ByteMemory.load_store record.memory offset bytes

/-- Overwriting a part leaves every part apart from it alone. -/
theorem slice_overwrite_apart (fits : offset + count ≤ length)
    (apart : offset + count ≤ start ∨ start + bytes.length ≤ offset) :
    (record.overwrite start bytes).slice offset count = record.slice offset count := by
  rw [slice_eq_load fits, slice_eq_load fits]
  apply ByteMemory.load_congr
  intro index above below
  rw [memory_overwrite (by omega)]
  exact ByteMemory.store_agree apart index above below

/-- A part is cut in two at any place. -/
theorem slice_add (record : ByteRecord length) (offset first second : Nat) :
    record.slice offset (first + second) =
      record.slice offset first ++ record.slice (offset + first) second := by
  rw [slice, List.take_add, List.drop_drop, slice, slice]

/-- Overwriting within a part replaces so many bytes of it. -/
theorem slice_overwrite_within (inside : start + bytes.length ≤ count)
    (fits : offset + count ≤ length) :
    (record.overwrite (offset + start) bytes).slice offset count =
      (record.slice offset count).take start ++ bytes ++
        (record.slice offset count).drop (start + bytes.length) := by
  obtain ⟨rest, rfl⟩ := Nat.exists_eq_add_of_le inside
  have front := @length_slice length offset start record (by omega)
  have middle := @length_slice length (offset + start) bytes.length record (by omega)
  have cut : ∀ other : ByteRecord length, other.slice offset (start + bytes.length + rest) =
      other.slice offset start ++ other.slice (offset + start) bytes.length ++
        other.slice (offset + start + bytes.length) rest := by
    intro other
    rw [slice_add, slice_add, Nat.add_assoc offset start]
  have before : ((record.slice offset (start + bytes.length + rest)).take start) =
      record.slice offset start := by
    rw [cut, List.append_assoc, List.take_left' front]
  have behind : (record.slice offset (start + bytes.length + rest)).drop (start + bytes.length) =
      record.slice (offset + start + bytes.length) rest := by
    rw [cut, List.drop_left' (by rw [List.length_append, front, middle])]
  rw [before, behind, cut, slice_overwrite_apart (by omega) (.inl (by omega)),
    slice_overwrite (by omega), slice_overwrite_apart (by omega) (.inr (by omega))]

/-- The front of a list is kept when it is replaced exactly when what replaces it begins it. -/
theorem take_append_drop_eq_iff {front whole : List UInt8} :
    (front ++ whole.drop front.length).take count = whole.take count ↔
      front.take count <+: whole.take count := by
  rw [List.take_append]
  constructor
  · intro same
    rw [← same]
    exact List.prefix_append _ _
  · intro begins
    have length : (front.take count).length = min count front.length := List.length_take
    have taken : front.take count = (whole.take count).take (front.take count).length :=
      List.prefix_iff_eq_take.mp begins
    rw [length, List.take_take] at taken
    rcases Nat.le_total count front.length with less | more
    · rw [Nat.sub_eq_zero_of_le less, List.take_zero, List.append_nil, taken]
      congr 1
      omega
    · rw [taken, show min (min count front.length) count = front.length by omega, ← List.take_add]
      congr 1
      omega

/-- A part that begins within what is overwritten is kept exactly when the bytes written from there
on are what it holds. -/
theorem slice_overwrite_eq_iff (above : offset ≤ start) (within : start ≤ offset + bytes.length)
    (inside : offset + bytes.length ≤ length) :
    (record.overwrite offset bytes).slice start count = record.slice start count ↔
      (bytes.drop (start - offset)).take count <+: record.slice start count := by
  have whole := record.length_bytes
  have front : (record.bytes.take offset).length = offset := by
    rw [List.length_take]
    omega
  have all : (record.overwrite offset bytes).bytes =
      record.bytes.take offset ++ (bytes ++ record.bytes.drop (offset + bytes.length)) := by
    simp only [overwrite]
    rw [List.take_of_length_le (show bytes.length ≤ length - offset by omega), List.append_assoc]
  have behind : (record.overwrite offset bytes).bytes.drop start =
      bytes.drop (start - offset) ++ (record.bytes.drop start).drop (bytes.drop (start - offset)).length := by
    rw [all, List.drop_append, front, List.drop_of_length_le (by omega), List.nil_append,
      List.drop_append_of_le_length (by omega), List.drop_drop, List.length_drop]
    congr 2
    omega
  rw [slice, slice, behind]
  exact take_append_drop_eq_iff

/-- Two writes to a record are two stores to its memory. -/
theorem memory_overwrite_overwrite {bytes' : List UInt8} (inside : index < length) :
    ((record.overwrite offset bytes).overwrite start bytes').memory index =
      (record.memory.store offset bytes).store start bytes' index := by
  rw [memory_overwrite inside]
  exact ByteMemory.store_congr (memory_overwrite inside)

/-- Overwriting a part twice leaves what was written last. -/
theorem overwrite_overwrite {bytes' : List UInt8} (same : bytes'.length = bytes.length) :
    (record.overwrite offset bytes).overwrite offset bytes' = record.overwrite offset bytes' := by
  apply ext_memory
  intro index inside
  rw [memory_overwrite_overwrite inside, ByteMemory.store_store same, memory_overwrite inside]

/-- Overwriting two parts that lie apart is done in any order. -/
theorem overwrite_comm {bytes' : List UInt8}
    (apart : offset + bytes.length ≤ start ∨ start + bytes'.length ≤ offset) :
    (record.overwrite offset bytes).overwrite start bytes' =
      (record.overwrite start bytes').overwrite offset bytes := by
  apply ext_memory
  intro index inside
  rw [memory_overwrite_overwrite inside, memory_overwrite_overwrite inside,
    ByteMemory.store_comm apart]

/-- Overwriting a part with what it holds changes nothing. -/
theorem overwrite_slice (fits : offset + count ≤ length) :
    record.overwrite offset (record.slice offset count) = record := by
  apply ext_memory
  intro index inside
  rw [memory_overwrite inside]
  have size := @length_slice length offset count record fits
  by_cases outside : index < offset ∨ offset + count ≤ index
  · exact ByteMemory.store_outside (by omega)
  · obtain ⟨place, rfl⟩ := Nat.exists_eq_add_of_le (show offset ≤ index by omega)
    have within : place < (record.slice offset count).length := by omega
    rw [ByteMemory.store_inside place within]
    have bytes := @slice_eq_load length offset count record fits
    simp only [bytes, ByteMemory.getElem_load]

/-- A part that is read out, changed within and put back is changed in its place. -/
theorem overwrite_part {part : ByteRecord count} (partIs : part.bytes = record.slice offset count)
    (fits : offset + count ≤ length) (inside : start + bytes.length ≤ count) :
    record.overwrite offset (part.overwrite start bytes).bytes =
      record.overwrite (offset + start) bytes := by
  apply ext_memory
  intro index within
  have size := (part.overwrite start bytes).length_bytes
  rw [memory_overwrite within, memory_overwrite within]
  by_cases outside : index < offset ∨ offset + count ≤ index
  · rw [ByteMemory.store_outside (by omega), ByteMemory.store_outside (by omega)]
  · obtain ⟨place, rfl⟩ := Nat.exists_eq_add_of_le (show offset ≤ index by omega)
    have there : place < (part.overwrite start bytes).bytes.length := by omega
    have part' : part.memory place = record.memory (offset + place) := by
      have bytes := @slice_eq_load length offset count record fits
      rw [memory, partIs, bytes]
      simp [show place < count by omega]
    have byte : (part.overwrite start bytes).bytes[place] = (part.overwrite start bytes).memory place := by
      simp [memory, there]
    rw [ByteMemory.store_inside place there, byte, memory_overwrite (by omega)]
    by_cases apart : place < start ∨ start + bytes.length ≤ place
    · rw [ByteMemory.store_outside apart, ByteMemory.store_outside (by omega), part']
    · obtain ⟨steps, rfl⟩ := Nat.exists_eq_add_of_le (show start ≤ place by omega)
      have written : steps < bytes.length := by omega
      rw [ByteMemory.store_inside steps written, ← Nat.add_assoc,
        ByteMemory.store_inside steps written]

/-! ## Records laid one after another -/

/-- The bytes of records laid one after another. -/
def join (records : List (ByteRecord length)) : List UInt8 := records.flatMap ByteRecord.bytes

/-- Records take their length each. -/
theorem length_join : (join records).length = records.length * length := by
  induction records with
  | nil => simp [join]
  | cons record rest ih =>
    rw [join, List.flatMap_cons, List.length_append, record.length_bytes, ← join, ih,
      List.length_cons, Nat.succ_mul, Nat.add_comm]

/-- The first record laid out is found at the front. -/
theorem take_join (record : ByteRecord length) (records : List (ByteRecord length))
    (rest : List UInt8) : (join (record :: records) ++ rest).take length = record.bytes := by
  rw [join, List.flatMap_cons, List.append_assoc]
  exact List.take_left' record.length_bytes

/-- The other records laid out are found behind the first. -/
theorem drop_join (record : ByteRecord length) (records : List (ByteRecord length))
    (rest : List UInt8) : (join (record :: records) ++ rest).drop length = join records ++ rest := by
  rw [join, List.flatMap_cons, List.append_assoc]
  exact List.drop_left' record.length_bytes

/-- A byte string read as a record, when it is as long as one. -/
def ofBytes? (length : Nat) (bytes : List UInt8) : Option (ByteRecord length) :=
  if whole : bytes.length = length then some ⟨bytes, whole⟩ else none

/-- The bytes of a record are read as the record. -/
theorem ofBytes?_bytes (record : ByteRecord length) : ofBytes? length record.bytes = some record :=
  dif_pos record.length_bytes

end ByteRecord
