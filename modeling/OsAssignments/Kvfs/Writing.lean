import OsAssignments.Kvfs.Reading

/-!
# What a write leaves

A write should change a file as it changes an array of bytes: the bytes written are put in place,
the file grows when they reach beyond its end, and a gap left before them is filled with zeros.
`kvfs_write` puts the bytes in place, but always ends the file behind them, and fills no gap.
-/

namespace OsAssignments.Kvfs

open ByteRecord

/-- `st_size`, which is signed. -/
def stSize (st : Stat) : Int := Int.bmod (getStat st .size) (2 ^ 64)

/-- A file after a write at an offset, as an array of bytes. -/
structure Written (data : List UInt8) (off : Nat) (fnode written : Fnode) : Prop where
  /-- The file ends where it did or where the bytes written end, whichever comes later. -/
  size : stSize (statOf written) = max (stSize (statOf fnode)) ((off + data.length : Nat) : Int)
  /-- The bytes are in place. -/
  placed : readContent written off data.length = data
  /-- The other bytes of the file are as they were. -/
  kept : ∀ index : Nat, (index : Int) < stSize (statOf fnode) →
    index < off ∨ off + data.length ≤ index → (contentOf written)[index]? = (contentOf fnode)[index]?
  /-- The bytes between the end of the file and the offset are zero. -/
  gap : ∀ index : Nat, stSize (statOf fnode) ≤ index → index < off →
    (contentOf written)[index]? = some 0

/-- `kvfs_write` returns the size and leaves the file as an array of bytes would be. -/
def WritesArray (volume : Volume) (filename : CString) (data : List UInt8) (off : Int64)
    (fnode : Fnode) : Prop :=
  ∃ index after written, lookup volume.table filename = .ok (some index) ∧
    kvfsWrite volume filename data off = .ok ((data.length : Int), after) ∧
    after.table.entries[index]? = some written ∧ Written data off.toInt.toNat fnode written

/-- The bytes written reach to the end of the file or beyond it, and what lies between the end and
the offset is zero already. -/
def Appends (data : List UInt8) (off : Nat) (fnode : Fnode) : Prop :=
  stSize (statOf fnode) ≤ ((off + data.length : Nat) : Int) ∧
    ∀ index : Nat, stSize (statOf fnode) ≤ index → index < off → (contentOf fnode)[index]? = some 0

variable {volume : Volume} {filename : CString} {fnode : Fnode} {data : List UInt8} {off index : Nat}

/-- The file of a record with new content ends behind the bytes written. -/
theorem getStat_withContent (room : off + data.length ≤ dataSize - metadataSize) :
    getStat (statOf (withContent data off fnode)) .size = off + data.length := by
  have width : 256 ^ StatField.size.width = 2 ^ 64 := by decide
  unfold dataSize metadataSize at room
  rw [withContent, statOf_withStat, getStat_setStat, width, Nat.mod_eq_of_lt (by omega)]

/-- A size within the content field is the same when it is read as signed. -/
theorem stSize_of_getStat {st : Stat} {size : Nat} (stored : getStat st .size = size)
    (room : size ≤ dataSize - metadataSize) : stSize st = size := by
  unfold dataSize metadataSize at room
  unfold stSize
  rw [stored]
  exact Int.bmod_eq_of_le (by omega) (by omega)

/-- The signed size of a record with new content. -/
theorem stSize_withContent (room : off + data.length ≤ dataSize - metadataSize) :
    stSize (statOf (withContent data off fnode)) = ((off + data.length : Nat) : Int) :=
  stSize_of_getStat (getStat_withContent room) room

/-- The content field has as many bytes as are left of the data field. -/
theorem length_contentOf (fnode : Fnode) : (contentOf fnode).length = dataSize - metadataSize :=
  length_slice (by decide)

/-- The content of a record with new content, before, in and behind the bytes written. -/
theorem contentOf_withContent (room : off + data.length ≤ dataSize - metadataSize) :
    contentOf (withContent data off fnode) =
      (contentOf fnode).take off ++ data ++ (contentOf fnode).drop (off + data.length) := by
  have fits : nameSize + metadataSize + (dataSize - metadataSize) ≤ fnodeSize := by decide
  unfold contentOf withContent withStat
  rw [slice_overwrite_apart fits (.inr (by rw [length_bytes])), slice_overwrite_within room fits]

/-- The bytes written are in place. -/
theorem readContent_withContent (room : off + data.length ≤ dataSize - metadataSize) :
    readContent (withContent data off fnode) off data.length = data := by
  have front : ((contentOf fnode).take off).length = off := by
    rw [List.length_take, length_contentOf]
    omega
  rw [readContent, contentOf_withContent room, List.append_assoc, List.drop_left' front,
    List.take_left]

/-- The bytes that a write does not reach are as they were. -/
theorem contentOf_withContent_apart (room : off + data.length ≤ dataSize - metadataSize)
    (apart : index < off ∨ off + data.length ≤ index) :
    (contentOf (withContent data off fnode))[index]? = (contentOf fnode)[index]? := by
  have front : ((contentOf fnode).take off).length = off := by
    rw [List.length_take, length_contentOf]
    omega
  have both : ((contentOf fnode).take off ++ data).length = off + data.length := by
    rw [List.length_append, front]
  rw [contentOf_withContent room]
  rcases apart with before | behind
  · rw [List.append_assoc, List.getElem?_append_left (by omega), List.getElem?_take_of_lt before]
  · rw [List.getElem?_append_right (by omega), both, List.getElem?_drop]
    congr 1
    omega

/-- A write leaves the file as an array of bytes would be exactly when it appends to it. -/
theorem written_iff (room : off + data.length ≤ dataSize - metadataSize) :
    Written data off fnode (withContent data off fnode) ↔ Appends data off fnode := by
  constructor
  · intro written
    refine ⟨?_, fun index behind before => ?_⟩
    · have size := written.size
      rw [stSize_withContent room] at size
      exact max_eq_right_iff.mp size.symm
    · rw [← contentOf_withContent_apart room (.inl before)]
      exact written.gap index behind before
  · rintro ⟨reaches, zeros⟩
    refine ⟨?_, readContent_withContent room, fun index _ apart => ?_, fun index behind before => ?_⟩
    · rw [stSize_withContent room, max_eq_right reaches]
    · exact contentOf_withContent_apart room apart
    · rw [contentOf_withContent_apart room (.inl before)]
      exact zeros index behind before

/-- `kvfs_write` within the content of a record that is found. -/
theorem kvfsWrite_found {off : Int64} (searched : lookup volume.table filename = .ok (some index))
    (proper : 0 ≤ off.toInt) (room : off.toInt.toNat + data.length ≤ dataSize - metadataSize) :
    kvfsWrite volume filename data off = .ok ((data.length : Int),
      { volume with table := volume.table.modify index (withContent data off.toInt.toNat) }) := by
  obtain ⟨offset, offsetIs⟩ := Int.eq_ofNat_of_zero_le proper
  have toNat : off.toInt.toNat = offset := by omega
  rw [toNat] at room ⊢
  unfold dataSize metadataSize at room
  have sum : ((off.toInt + data.length) % 2 ^ 64).toNat = offset + data.length := by omega
  have unguarded : ¬ offset + data.length > dataSize - metadataSize := by
    unfold dataSize metadataSize
    omega
  have inside : ¬ ((nameSize : Int) + metadataSize + off.toInt < 0 ∨
      (nameSize : Int) + metadataSize + off.toInt + data.length > fnodeSize) := by
    unfold nameSize metadataSize fnodeSize
    omega
  have start : ((nameSize : Int) + metadataSize + off.toInt).toNat =
      nameSize + metadataSize + offset := by
    rw [offsetIs]
    omega
  have result : Int.bmod data.length (2 ^ 32) = data.length := Int.bmod_eq_of_le (by omega) (by omega)
  unfold kvfsWrite
  simp only [sum, if_neg unguarded, searched, if_neg inside, start, result]
  rfl

/-- The record that an existing file is written as is the one with new content. -/
theorem writesArray_iff {off : Int64} (denotes : Denotes volume.table filename fnode)
    (proper : 0 ≤ off.toInt) (room : off.toInt.toNat + data.length ≤ dataSize - metadataSize) :
    WritesArray volume filename data off fnode ↔
      Written data off.toInt.toNat fnode (withContent data off.toInt.toNat fnode) := by
  obtain ⟨index, searched, there⟩ := denotes
  have returned := @kvfsWrite_found volume filename data index off searched proper room
  have left : (volume.table.modify index (withContent data off.toInt.toNat)).entries[index]? =
      some (withContent data off.toInt.toNat fnode) := modify_there there
  constructor
  · rintro ⟨index', after, written, searched', returned', there', array⟩
    rw [searched, Except.ok.injEq, Option.some.injEq] at searched'
    rw [returned, Except.ok.injEq, Prod.mk.injEq] at returned'
    rw [← searched', ← returned'.2, left, Option.some.injEq] at there'
    rw [there']
    exact array
  · intro array
    exact ⟨index, _, _, searched, returned, left, array⟩

/-- `kvfs_write` of an existing file does what a write to an array of bytes does for exactly the
writes that append to the file, with nothing but zeros in the gap. -/
theorem kvfsWrite_array_iff {off : Int64} (denotes : Denotes volume.table filename fnode)
    (proper : 0 ≤ off.toInt) (room : off.toInt.toNat + data.length ≤ dataSize - metadataSize) :
    WritesArray volume filename data off fnode ↔ Appends data off.toInt.toNat fnode :=
  (writesArray_iff denotes proper room).trans (written_iff room)

/-- A byte written at the front of a file of four bytes cuts it to one. -/
theorem kvfsWrite_shortens : ¬ ∀ (volume : Volume) (filename : CString) (fnode : Fnode)
    (data : List UInt8) (off : Int64), Denotes volume.table filename fnode → 0 ≤ off.toInt →
    off.toInt.toNat + data.length ≤ dataSize - metadataSize →
    WritesArray volume filename data off fnode := by
  intro claim
  have array := claim fourBytesVolume pathA fourBytes [120] 0 fourBytes_denoted (by decide) (by decide)
  have written := (writesArray_iff fourBytes_denoted (by decide) (by decide)).mp array
  exact absurd written.size (by decide +kernel)

/-- Two bytes appended to it come out right. -/
theorem kvfsWrite_array_fourBytes : WritesArray fourBytesVolume pathA [120, 121] 4 fourBytes :=
  (kvfsWrite_array_iff fourBytes_denoted (by decide) (by decide)).mpr
    ⟨by decide +kernel, fun index behind before => by
      have size : stSize (statOf fourBytes) = 4 := by decide +kernel
      have four : ((4 : Int64).toInt.toNat : Int) = 4 := by decide
      omega⟩

end OsAssignments.Kvfs
