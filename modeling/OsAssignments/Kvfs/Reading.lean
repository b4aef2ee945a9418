import OsAssignments.Kvfs.Frames

/-!
# What a read delivers

A read should deliver the bytes of the file from the offset on, up to the size asked for or the
end of the file. `kvfs_read` cuts the size at the end of the data field and at `st_size`, but does
not take the offset off `st_size`, so a read that does not start at the front and reaches beyond
the end delivers too much. The reads that come out right are told by the file's size, the size
asked for and the offset alone.
-/

namespace OsAssignments.Kvfs

open ByteRecord

/-- The number of bytes that a read should deliver. -/
def readCount (stSize size off : Nat) : Nat := min size (stSize - off)

/-- The bytes of the file that a read should deliver. -/
def readContent (fnode : Fnode) (off count : Nat) : List UInt8 := ((contentOf fnode).drop off).take count

/-- The reads for which `kvfs_read` accounts for the offset: the file is empty, the read starts at
its front or ends before its end, or it is of no bytes or is cut at the end of the data field, with
the file or the offset ending there. -/
def ReadsWithin (stSize size off : Nat) : Prop :=
  stSize = 0 ∨ off = 0 ∨ off + size ≤ stSize ∨
    (off ≤ dataSize - metadataSize ∧ (size = 0 ∨ (off + size < 2 ^ 64 ∧
      (stSize = dataSize - metadataSize ∨ off = dataSize - metadataSize))))

instance (stSize size off : Nat) : Decidable (ReadsWithin stSize size off) :=
  inferInstanceAs (Decidable (_ ∨ _ ∨ _ ∨ _))

/-- The number of bytes that `kvfs_read` copies. -/
def copySize (stSize size off : Nat) : Nat :=
  min (if dataSize - metadataSize < (off + size) % 2 ^ 64 then
    ((((dataSize - metadataSize : Nat) : Int) - off) % 2 ^ 64).toNat else size) stSize

variable {volume : Volume} {pathname : CString} {fnode : Fnode} {left right : List Fnode}
  {stSize count : Nat} {size : UInt64} {off : Int64}

/-- The number copied is the number that should be delivered exactly for those reads. -/
theorem copySize_eq_iff {size off : Nat} (bounded : stSize ≤ dataSize - metadataSize)
    (sized : size < 2 ^ 64) (placed : off < 2 ^ 63) :
    copySize stSize size off = readCount stSize size off ↔ ReadsWithin stSize size off := by
  unfold copySize readCount ReadsWithin dataSize metadataSize at *
  by_cases cut : 1024 - 144 < (off + size) % 2 ^ 64
  · rw [if_pos cut]
    by_cases inside : off ≤ 880
    · -- The sum has not wrapped, and the size is cut at the end of the data field.
      have left : ((((1024 - 144 : Nat) : Int) - off) % 2 ^ 64).toNat = 880 - off := by omega
      have rest : stSize - off ≤ size := by omega
      rw [left, Nat.min_eq_right rest]
      omega
    · -- The room left wraps to a huge number, so `st_size` is copied from beyond the data field.
      have whole : stSize ≤ ((((1024 - 144 : Nat) : Int) - off) % 2 ^ 64).toNat := by omega
      rw [Nat.min_eq_right whole]
      omega
  · rw [if_neg cut]
    by_cases wraps : off + size < 2 ^ 64
    · omega
    · have whole : stSize ≤ size := by omega
      have rest : stSize - off ≤ size := by omega
      rw [Nat.min_eq_right whole, Nat.min_eq_right rest]
      omega

/-- A part of the content is found behind the records before it. -/
theorem join_content (start : Nat) (room : start + count ≤ dataSize - metadataSize) :
    ((join (left ++ fnode :: right)).drop
      (left.length * fnodeSize + nameSize + metadataSize + start)).take count =
        readContent fnode start count := by
  have whole := fnode.length_bytes
  have front : (join left).length = left.length * fnodeSize := length_join
  unfold readContent contentOf slice
  unfold fnodeSize at whole
  unfold dataSize metadataSize at room
  rw [join, List.flatMap_append, ← join, List.flatMap_cons, Nat.add_assoc, Nat.add_assoc,
    ← front, List.drop_length_add_append, List.drop_append_of_le_length, List.take_append_of_le_length]
  · rw [List.drop_take, List.take_take, List.drop_drop, Nat.min_eq_left, Nat.add_assoc]
    unfold dataSize metadataSize
    omega
  · rw [List.length_drop]
    unfold nameSize metadataSize
    omega
  · unfold nameSize metadataSize
    omega

/-- What `kvfs_read` does at a proper offset of an existing file. -/
theorem kvfsRead_denoted (denotes : Denotes volume.table pathname fnode) (proper : 0 ≤ off.toInt) :
    ∃ left right, volume.table.entries = left ++ fnode :: right ∧
      kvfsRead volume pathname size off =
        let copied := copySize (getStat (statOf fnode) .size) size.toNat off.toInt.toNat
        let start := left.length * fnodeSize + nameSize + metadataSize + off.toInt.toNat
        if copied ≠ 0 ∧ start + copied > (join (left ++ fnode :: right)).length then
          .error .outOfBounds
        else .ok (Int.bmod copied (2 ^ 32),
          ((join (left ++ fnode :: right)).drop start).take copied) := by
  obtain ⟨index, searched, there⟩ := denotes
  obtain ⟨offset, offsetIs⟩ := Int.eq_ofNat_of_zero_le proper
  obtain ⟨left, right, place, rfl⟩ := entries_split there
  refine ⟨left, right, place, ?_⟩
  rw [← place]
  unfold kvfsRead
  simp only [searched, there, offsetIs, Option.map_some, Option.getD_some, Int.toNat_natCast]
  have sum : (((offset : Int) + size.toNat) % 2 ^ 64).toNat = (offset + size.toNat) % 2 ^ 64 := by
    omega
  have cut : ∀ asked limit : Nat, (if asked > limit then limit else asked) = min asked limit := by
    intro asked limit
    split <;> omega
  have start : (left.length : Int) * fnodeSize + nameSize + metadataSize + offset =
      ((left.length * fnodeSize + nameSize + metadataSize + offset : Nat) : Int) := by
    push_cast
    rfl
  rw [sum, cut, ← copySize, start, Int.toNat_natCast]
  exact if_congr (by omega) rfl rfl

/-- Of a file that fits the data field, no more is copied than the field holds. -/
theorem bmod_copySize {size off : Nat} (bounded : stSize ≤ dataSize - metadataSize) :
    Int.bmod (copySize stSize size off) (2 ^ 32) = copySize stSize size off := by
  have small : copySize stSize size off ≤ 880 := Nat.le_trans (Nat.min_le_right _ _) bounded
  generalize copySize stSize size off = copied at small ⊢
  exact Int.bmod_eq_of_le (by omega) (by omega)

/-- A read that accounts for the offset delivers the bytes it should. -/
theorem kvfsRead_within (denotes : Denotes volume.table pathname fnode)
    (bounded : getStat (statOf fnode) .size ≤ dataSize - metadataSize) (proper : 0 ≤ off.toInt)
    (within : ReadsWithin (getStat (statOf fnode) .size) size.toNat off.toInt.toNat) :
    kvfsRead volume pathname size off =
      let count := readCount (getStat (statOf fnode) .size) size.toNat off.toInt.toNat
      .ok ((count : Int), readContent fnode off.toInt.toNat count) := by
  obtain ⟨left, right, _, returned⟩ := kvfsRead_denoted denotes proper
  have sized := size.toNat_lt
  have placed : off.toInt.toNat < 2 ^ 63 := by
    have limit := off.toInt_lt
    omega
  have counts := (copySize_eq_iff bounded sized placed).mpr within
  have result := @bmod_copySize _ size.toNat off.toInt.toNat bounded
  rw [returned]
  simp only
  rw [result, counts]
  have room : readCount (getStat (statOf fnode) .size) size.toNat off.toInt.toNat ≤
      getStat (statOf fnode) .size - off.toInt.toNat := Nat.min_le_right _ _
  generalize readCount (getStat (statOf fnode) .size) size.toNat off.toInt.toNat = copied at room ⊢
  have length : (join (left ++ fnode :: right)).length =
      (left.length + (right.length + 1)) * fnodeSize := by
    rw [length_join, List.length_append, List.length_cons]
  by_cases empty : copied = 0
  · subst empty
    rfl
  · have inside : off.toInt.toNat + copied ≤ dataSize - metadataSize := by omega
    have guard : ¬ (copied ≠ 0 ∧ left.length * fnodeSize + nameSize + metadataSize +
        off.toInt.toNat + copied > (join (left ++ fnode :: right)).length) := by
      rw [length]
      unfold dataSize metadataSize fnodeSize nameSize at *
      omega
    rw [if_neg guard, join_content off.toInt.toNat inside]

/-- `kvfs_read` delivers exactly the bytes of the file between the offset and the end of what was
asked for or of the file, for exactly the reads that account for the offset. -/
theorem kvfsRead_exact_iff (denotes : Denotes volume.table pathname fnode)
    (bounded : getStat (statOf fnode) .size ≤ dataSize - metadataSize) (proper : 0 ≤ off.toInt) :
    (kvfsRead volume pathname size off =
      let count := readCount (getStat (statOf fnode) .size) size.toNat off.toInt.toNat
      .ok ((count : Int), readContent fnode off.toInt.toNat count)) ↔
    ReadsWithin (getStat (statOf fnode) .size) size.toNat off.toInt.toNat := by
  refine ⟨fun delivered => ?_, kvfsRead_within denotes bounded proper⟩
  obtain ⟨left, right, _, returned⟩ := kvfsRead_denoted denotes proper
  have placed : off.toInt.toNat < 2 ^ 63 := by
    have limit := off.toInt_lt
    omega
  have result := @bmod_copySize _ size.toNat off.toInt.toNat bounded
  rw [returned] at delivered
  simp only at delivered
  rw [result] at delivered
  rw [← copySize_eq_iff bounded size.toNat_lt placed]
  split at delivered
  · simp only [reduceCtorEq] at delivered
  · have counts := congrArg Prod.fst (Except.ok.inj delivered)
    exact Int.natCast_inj.mp counts

/-- A file of four bytes. -/
def fourBytes : Fnode :=
  withContent [97, 98, 99, 100] 0 (mknodFnode someSurroundings pathA 33188 0)

/-- A KVFS with that file and another. -/
def fourBytesVolume : Volume where
  table := ⟨[fourBytes, mknodFnode someSurroundings pathB 33188 0], by decide⟩
  superblock := none

/-- The path of the file denotes it. -/
theorem fourBytes_denoted : Denotes fourBytesVolume.table pathA fourBytes :=
  ⟨0, by decide +kernel, rfl⟩

/-- A read from the middle of a file goes on behind its end. -/
theorem kvfsRead_beyond_end : ¬ ∀ (volume : Volume) (pathname : CString) (fnode : Fnode)
    (size : UInt64) (off : Int64), Denotes volume.table pathname fnode →
    getStat (statOf fnode) .size ≤ dataSize - metadataSize → 0 ≤ off.toInt →
    kvfsRead volume pathname size off =
      let count := readCount (getStat (statOf fnode) .size) size.toNat off.toInt.toNat
      .ok ((count : Int), readContent fnode off.toInt.toNat count) := by
  intro claim
  have delivered := claim fourBytesVolume pathA fourBytes 4 2 fourBytes_denoted (by decide +kernel)
    (by decide)
  have returned : kvfsRead fourBytesVolume pathA 4 2 = .ok (4, [99, 100, 0, 0]) := by decide +kernel
  rw [returned] at delivered
  revert delivered
  decide +kernel

/-- A read of the last two bytes of the file is exact. -/
theorem kvfsRead_exact_fourBytes :
    kvfsRead fourBytesVolume pathA 2 2 =
      (let count := readCount (getStat (statOf fourBytes) .size) 2 2
      .ok ((count : Int), readContent fourBytes 2 count)) :=
  (kvfsRead_exact_iff fourBytes_denoted (by decide +kernel) (by decide)).mpr (by decide +kernel)

end OsAssignments.Kvfs
