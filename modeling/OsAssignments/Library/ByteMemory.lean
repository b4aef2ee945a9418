import OsAssignments.Library.LittleEndian

/-!
# Byte-addressed memory

A memory is a total function from addresses to bytes. Reads and writes of a range come with
their frame laws: a write is seen by a read of the same range and is invisible to a read of a
range apart from it. Words are little-endian readings of ranges.
-/

/-- The bytes at all addresses. -/
abbrev ByteMemory : Type := Nat → UInt8

namespace ByteMemory

variable {memory other : ByteMemory} {start count address width value : Nat} {bytes : List UInt8}

/-- The bytes of a range, in address order. -/
def load (memory : ByteMemory) (start count : Nat) : List UInt8 :=
  (List.range' start count).map memory

/-- Write bytes to consecutive addresses. -/
def store (memory : ByteMemory) (start : Nat) (bytes : List UInt8) : ByteMemory := fun address =>
  if start ≤ address then (bytes[address - start]?).getD (memory address) else memory address

/-- Write one byte value to a whole range. -/
def fill (memory : ByteMemory) (start count : Nat) (byte : UInt8) : ByteMemory := fun address =>
  if start ≤ address ∧ address < start + count then byte else memory address

/-- The little-endian word at an address. -/
def readWord (memory : ByteMemory) (address width : Nat) : Nat :=
  LittleEndian.decode (memory.load address width)

/-- Write a little-endian word at an address. -/
def writeWord (memory : ByteMemory) (address width value : Nat) : ByteMemory :=
  memory.store address (LittleEndian.encode width value)

/-- Two memories hold the same bytes at every address of a range. -/
def AgreeOn (memory other : ByteMemory) (start finish : Nat) : Prop :=
  ∀ address, start ≤ address → address < finish → memory address = other address

/-- A range read has the length of the range. -/
@[simp]
theorem length_load : (memory.load start count).length = count := by simp [load]

/-- The bytes of a range, one by one. -/
@[simp]
theorem getElem_load (index : Nat) (inside : index < (memory.load start count).length) :
    (memory.load start count)[index] = memory (start + index) := by simp [load]

/-- A read depends only on the bytes of its range. -/
theorem load_congr (agree : AgreeOn memory other start (start + count)) :
    memory.load start count = other.load start count := by
  apply List.map_congr_left
  intro address member
  obtain ⟨lower, upper⟩ := List.mem_range'_1.mp member
  exact agree address lower upper

/-- A range reads as one repeated byte exactly when every address of it holds that byte. -/
theorem load_eq_replicate_iff (byte : UInt8) :
    memory.load start count = List.replicate count byte ↔
      ∀ index, index < count → memory (start + index) = byte := by
  constructor
  · intro same index inside
    have placed : index < (memory.load start count).length := by simpa using inside
    calc
      memory (start + index) = (memory.load start count)[index] := (getElem_load _ placed).symm
      _ = (List.replicate count byte).get ⟨index, by simpa using inside⟩ := List.getElem_of_eq same _
      _ = byte := List.getElem_replicate _
  · intro all
    apply List.ext_getElem (by simp)
    intro index inside _
    rw [getElem_load, List.getElem_replicate, all index (by simpa using inside)]

/-- A shorter read is a prefix of a longer one from the same address. -/
theorem take_load {shorter : Nat} (le : shorter ≤ count) :
    (memory.load start count).take shorter = memory.load start shorter := by
  apply List.ext_getElem (by simp [le])
  intro index _ _
  simp

/-- Outside the written range a store changes nothing. -/
theorem store_outside (outside : address < start ∨ start + bytes.length ≤ address) :
    memory.store start bytes address = memory address := by
  unfold store
  split
  · rw [List.getElem?_eq_none (by omega), Option.getD_none]
  · rfl

/-- Inside the written range a store shows the byte written there. -/
theorem store_inside (index : Nat) (inside : index < bytes.length) :
    memory.store start bytes (start + index) = bytes[index] := by
  simp [store, inside]

/-- Storing no byte changes nothing. -/
theorem store_nil (memory : ByteMemory) (start : Nat) : memory.store start [] = memory :=
  funext fun address => store_outside (by rw [List.length_nil]; omega)

/-- What a store leaves at an address depends on what memory held there only. -/
theorem store_congr {memory' : ByteMemory} (same : memory address = memory' address) :
    memory.store start bytes address = memory'.store start bytes address := by
  unfold store
  rw [same]

/-- A second store to the same range leaves its bytes. -/
theorem store_store {bytes' : List UInt8} (same : bytes'.length = bytes.length) :
    (memory.store start bytes).store start bytes' = memory.store start bytes' := by
  funext address
  by_cases outside : address < start ∨ start + bytes.length ≤ address
  · rw [store_outside (by omega), store_outside outside, store_outside (by omega)]
  · obtain ⟨place, rfl⟩ := Nat.exists_eq_add_of_le (show start ≤ address by omega)
    rw [store_inside place (by omega), store_inside place (by omega)]

/-- Stores to ranges that lie apart are done in any order. -/
theorem store_comm {start' : Nat} {bytes' : List UInt8}
    (apart : start + bytes.length ≤ start' ∨ start' + bytes'.length ≤ start) :
    (memory.store start bytes).store start' bytes' =
      (memory.store start' bytes').store start bytes := by
  funext address
  by_cases outside : address < start ∨ start + bytes.length ≤ address
  · rw [@store_outside (memory.store start' bytes') _ _ _ outside]
    exact store_congr (store_outside outside)
  · rw [store_outside (by omega)]
    exact store_congr (store_outside (by omega)).symm

/-- A store of two parts is a store of the one and of the other behind it. -/
theorem store_append (left right : List UInt8) :
    (memory.store start left).store (start + left.length) right =
      memory.store start (left ++ right) := by
  funext address
  unfold store
  by_cases lower : start + left.length ≤ address
  · have beyond : left.length ≤ address - start := by omega
    have rest : address - (start + left.length) = address - start - left.length := by omega
    rw [if_pos lower, if_pos (by omega), if_pos (by omega), List.getElem?_append_right beyond,
      List.getElem?_eq_none beyond, Option.getD_none, rest]
  · rw [if_neg lower]
    by_cases inside : start ≤ address
    · rw [if_pos inside, if_pos inside, List.getElem?_append_left (by omega)]
    · rw [if_neg inside, if_neg inside]

/-- Reading the range just written returns the bytes. -/
theorem load_store (memory : ByteMemory) (start : Nat) (bytes : List UInt8) :
    (memory.store start bytes).load start bytes.length = bytes := by
  apply List.ext_getElem (by simp)
  intro index _ inside
  rw [getElem_load, store_inside index inside]

/-- Writing one byte inside a range changes that byte of a read of the range. -/
theorem load_store_set {index : Nat} {byte : UInt8} :
    (memory.store (start + index) [byte]).load start count =
      (memory.load start count).set index byte := by
  apply List.ext_getElem (by simp)
  intro other below _
  rw [getElem_load, List.getElem_set, getElem_load]
  by_cases same : index = other
  · rw [if_pos same, ← same]
    exact store_inside 0 (by simp)
  · rw [if_neg same]
    exact store_outside (by simp only [List.length_singleton]; omega)

/-- A store leaves every range apart from it alone. -/
theorem store_agree {finish : Nat}
    (apart : finish ≤ address ∨ address + bytes.length ≤ start) :
    AgreeOn (memory.store address bytes) memory start finish :=
  fun _ _ _ => store_outside (by omega)

/-- A fill leaves every range apart from it alone. -/
theorem fill_agree {byte : UInt8} {finish : Nat}
    (apart : finish ≤ address ∨ address + count ≤ start) :
    AgreeOn (memory.fill address count byte) memory start finish := by
  intro at' _ _
  unfold fill
  split
  · omega
  · rfl

/-- Reading the range just filled returns the fill byte throughout. -/
theorem load_fill {byte : UInt8} :
    (memory.fill start count byte).load start count = List.replicate count byte := by
  rw [load_eq_replicate_iff]
  intro index inside
  exact if_pos ⟨by omega, by omega⟩

/-- Agreement on a range restricts to every part of it. -/
theorem AgreeOn.mono {finish from' to' : Nat} (agree : AgreeOn memory other start finish)
    (lower : start ≤ from') (upper : to' ≤ finish) : AgreeOn memory other from' to' :=
  fun address above below => agree address (by omega) (by omega)

/-- Agreement on a range is transitive. -/
theorem AgreeOn.trans {third : ByteMemory} {finish : Nat}
    (first : AgreeOn memory other start finish) (second : AgreeOn other third start finish) :
    AgreeOn memory third start finish :=
  fun address above below => (first address above below).trans (second address above below)

/-- A word depends only on its own bytes. -/
theorem readWord_congr (agree : AgreeOn memory other address (address + width)) :
    memory.readWord address width = other.readWord address width := by
  rw [readWord, readWord, load_congr agree]

/-- Reading the word just written returns the value reduced to the width. -/
theorem readWord_writeWord :
    (memory.writeWord address width value).readWord address width = value % 256 ^ width := by
  have written := load_store memory address (LittleEndian.encode width value)
  rw [LittleEndian.length_encode] at written
  rw [readWord, writeWord, written, LittleEndian.decode_encode]

/-- A word write leaves every range apart from it alone. -/
theorem writeWord_agree {finish : Nat} (apart : finish ≤ address ∨ address + width ≤ start) :
    AgreeOn (memory.writeWord address width value) memory start finish :=
  store_agree (by simpa using apart)

end ByteMemory
