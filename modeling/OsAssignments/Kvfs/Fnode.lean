import OsAssignments.Library.ByteRecord
import OsAssignments.Library.CString
import OsAssignments.Library.LittleEndian

/-!
# File records

A file of the KVFS is one `fnode_t`: a name field, a data field that starts with the file's
`struct stat` and goes on with its content, and a magic number, laid out one after another. The
record is kept as its bytes, so that a string copied to the name field that is too long for it
goes on in the data field.
-/

namespace OsAssignments.Kvfs

/-- `NAME_SIZE`: the bytes of the name field. -/
def nameSize : Nat := 1024

/-- `DATA_SIZE`: the bytes of the data field. -/
def dataSize : Nat := 1024

/-- `METADATASIZE`: the bytes of the `struct stat` at the front of the data field. -/
def metadataSize : Nat := 144

/-- `sizeof(fnode_t)`. -/
def fnodeSize : Nat := 2052

/-- A `struct stat`, padding included. -/
abbrev Stat := ByteRecord metadataSize

/-- An `fnode_t`. -/
abbrev Fnode := ByteRecord fnodeSize

/-! ## `struct stat` -/

/-- The fields of `struct stat` that the KVFS assigns. -/
inductive StatField
  /-- `st_dev`. -/
  | dev
  /-- `st_nlink`. -/
  | nlink
  /-- `st_mode`. -/
  | mode
  /-- `st_uid`. -/
  | uid
  /-- `st_gid`. -/
  | gid
  /-- `st_rdev`. -/
  | rdev
  /-- `st_size`. -/
  | size
  /-- `st_blksize`. -/
  | blksize
  /-- `st_blocks`. -/
  | blocks
  /-- `st_atime`, the seconds of the last access. -/
  | atime
  /-- `st_mtime`, the seconds of the last modification. -/
  | mtime
  /-- `st_ctime`, the seconds of the last status change. -/
  | ctime
  deriving DecidableEq, Repr

/-- Where a field starts. -/
def StatField.offset : StatField → Nat
  | .dev => 0
  | .nlink => 16
  | .mode => 24
  | .uid => 28
  | .gid => 32
  | .rdev => 40
  | .size => 48
  | .blksize => 56
  | .blocks => 64
  | .atime => 72
  | .mtime => 88
  | .ctime => 104

/-- The bytes a field takes. -/
def StatField.width : StatField → Nat
  | .mode | .uid | .gid => 4
  | _ => 8

/-- The value of a field. -/
def getStat (st : Stat) (field : StatField) : Nat :=
  LittleEndian.decode (st.slice field.offset field.width)

/-- Assign a field. -/
def setStat (st : Stat) (field : StatField) (value : Nat) : Stat :=
  st.overwrite field.offset (LittleEndian.encode field.width value)

/-! ## `fnode_t` -/

/-- The C string in the name field, as the string functions see it. -/
def nameOf (fnode : Fnode) : List UInt8 := CString.read fnode.bytes

/-- The first `METADATASIZE` bytes of the data field. -/
def statOf (fnode : Fnode) : Stat where
  bytes := fnode.slice nameSize metadataSize
  length_bytes := ByteRecord.length_slice (by decide)

/-- The rest of the data field. -/
def contentOf (fnode : Fnode) : List UInt8 :=
  fnode.slice (nameSize + metadataSize) (dataSize - metadataSize)

/-- The bytes of the magic number. -/
def magicOf (fnode : Fnode) : List UInt8 := fnode.slice (nameSize + dataSize) 4

/-- `memcpy(fnode.data, &st, METADATASIZE)`. -/
def withStat (fnode : Fnode) (st : Stat) : Fnode := fnode.overwrite nameSize st.bytes

/-- A path is stored at the front of a record: `strcmp` finds the name equal to it. -/
def Named (filename : CString) (fnode : Fnode) : Prop := filename.stored <+: fnode.bytes

instance (filename : CString) (fnode : Fnode) : Decidable (Named filename fnode) :=
  inferInstanceAs (Decidable (_ <+: _))

/-- A path fits the name field with the zero byte behind it. -/
abbrev Short (filename : CString) : Prop := filename.length < nameSize

variable {filename other : CString} {fnode : Fnode} {st : Stat} {offset : Nat}
  {bytes : List UInt8} {field field' : StatField} {value : Nat}

/-- A record has one name. -/
theorem Named.unique (named : Named filename fnode) (named' : Named other fnode) :
    filename = other := CString.stored_unique named named'

/-- The name of a record is the path stored there. -/
theorem Named.nameOf (named : Named filename fnode) : nameOf fnode = filename.bytes :=
  CString.read_eq named

/-- A path is stored at the front of a record exactly when the record begins with it. -/
theorem named_iff_slice :
    Named filename fnode ↔ fnode.slice 0 (filename.length + 1) = filename.stored := by
  rw [Named, List.prefix_iff_eq_take, CString.length_stored, ByteRecord.slice, List.drop_zero,
    eq_comm]

/-- Overwriting behind the name field changes no short name. -/
theorem named_overwrite (short : Short filename) (behind : nameSize ≤ offset) :
    Named filename (fnode.overwrite offset bytes) ↔ Named filename fnode := by
  have room : 0 + (filename.length + 1) ≤ fnodeSize := by
    unfold Short nameSize at short
    unfold fnodeSize
    omega
  rw [named_iff_slice, named_iff_slice,
    ByteRecord.slice_overwrite_apart room (.inl (by unfold Short at short; omega))]

/-- A record whose front is overwritten with a stored short path has that name. -/
theorem named_overwrite_stored (short : Short filename) :
    Named filename (fnode.overwrite 0 filename.stored) := by
  have room : 0 + filename.stored.length ≤ fnodeSize := by
    unfold Short nameSize at short
    rw [CString.length_stored]
    unfold fnodeSize
    omega
  rw [named_iff_slice, ← CString.length_stored]
  exact ByteRecord.slice_overwrite room

/-- A field just assigned holds the value, reduced to its width. -/
theorem getStat_setStat : getStat (setStat st field value) field = value % 256 ^ field.width := by
  have room : field.offset + (LittleEndian.encode field.width value).length ≤ metadataSize := by
    rw [LittleEndian.length_encode]
    cases field <;> decide
  have written := @ByteRecord.slice_overwrite _ _ _ st room
  rw [LittleEndian.length_encode] at written
  rw [getStat, setStat, written, LittleEndian.decode_encode]

/-- Assigning a field leaves the others alone. -/
theorem getStat_setStat_other (distinct : field' ≠ field) :
    getStat (setStat st field value) field' = getStat st field' := by
  have room : field'.offset + field'.width ≤ metadataSize := by cases field' <;> decide
  have apart : field'.offset + field'.width ≤ field.offset ∨
      field.offset + (LittleEndian.encode field.width value).length ≤ field'.offset := by
    rw [LittleEndian.length_encode]
    cases field <;> cases field' <;> first | contradiction | decide
  rw [getStat, setStat, ByteRecord.slice_overwrite_apart room apart, getStat]

/-- Assigning a field the value it has changes nothing. -/
theorem setStat_getStat : setStat st field (getStat st field) = st := by
  have room : field.offset + field.width ≤ metadataSize := by cases field <;> decide
  have bytes := LittleEndian.encode_decode (st.slice field.offset field.width)
  rw [ByteRecord.length_slice room] at bytes
  rw [setStat, getStat, bytes, ByteRecord.overwrite_slice room]

/-- The stat just copied into a record is found there. -/
theorem statOf_withStat : statOf (withStat fnode st) = st := by
  have fits : nameSize + st.bytes.length ≤ fnodeSize := by
    rw [st.length_bytes]
    decide
  have bytes := @ByteRecord.slice_overwrite _ _ _ fnode fits
  rw [st.length_bytes] at bytes
  simp only [statOf, withStat, bytes]

/-- Copying its own stat into a record changes nothing. -/
theorem withStat_statOf : withStat fnode (statOf fnode) = fnode :=
  ByteRecord.overwrite_slice (by decide)

end OsAssignments.Kvfs
