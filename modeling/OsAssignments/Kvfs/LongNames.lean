import OsAssignments.Kvfs.Names

/-!
# Names of every length

`kvfs_mknod` and `kvfs_rename` copy a path into a record without a look at its length. What does
not fit the name field goes on in the `struct stat` behind it. `kvfs_mknod` overwrites that part
afterwards, so a long name survives only where it agrees with the stat; `kvfs_rename` leaves the
name whole, so a stat survives only where it agrees with the name.
-/

namespace OsAssignments.Kvfs

open ByteRecord

variable {volume after : Volume} {filename pathname name newname : CString} {table : Table}
  {fnode : Fnode} {index : Nat} {around : Surroundings} {mode : UInt32} {dev : UInt64}

/-- `lookup` finds the entry at an index, and the path is stored there. -/
structure StoredAt (table : Table) (filename : CString) (index : Nat) (fnode : Fnode) : Prop where
  /-- `lookup` returns the index. -/
  found : lookup table filename = .ok (some index)
  /-- The entry is there. -/
  there : table.entries[index]? = some fnode
  /-- Its name is exactly the path. -/
  named : Named filename fnode

/-- `kvfs_mknod` returns an error and leaves the table as it was, or it returns 0 and the path finds
an entry with that name and the stat filled in, beside the entries there were. -/
def MknodStores (around : Surroundings) (volume : Volume) (pathname : CString) (mode : UInt32)
    (dev : UInt64) : Prop :=
  ∃ result after, kvfsMknod around volume pathname mode dev = .ok (result, after) ∧
    ((result ≠ 0 ∧ after.table = volume.table) ∨
      (result = 0 ∧ ∃ index fnode, StoredAt after.table pathname index fnode ∧
        statOf fnode = mknodStat around mode dev ∧
        after.table.entries.eraseIdx index = volume.table.entries))

/-- `kvfs_rename` of the entry at an index returns an error and leaves the table as it was, or it
returns 0 and the new name finds an entry with that name and the stat and content of the old one,
beside the other entries. -/
def RenameStores (volume : Volume) (name newname : CString) (index : Nat) (fnode : Fnode) : Prop :=
  ∃ result after, kvfsRename volume name newname = .ok (result, after) ∧
    ((result ≠ 0 ∧ after.table = volume.table) ∨
      (result = 0 ∧ ∃ index' fnode', StoredAt after.table newname index' fnode' ∧
        statOf fnode' = statOf fnode ∧ contentOf fnode' = contentOf fnode ∧
        after.table.entries.eraseIdx index' = volume.table.entries.eraseIdx index))

/-- What a path and its zero byte leave for the data field. -/
def spill (filename : CString) : List UInt8 := filename.stored.drop nameSize

/-- The first bytes of the stat that `kvfs_mknod` fills in: the device, the inode number that it
finds on the stack, and the low bytes of the link count. -/
def statFront (around : Surroundings) (dev : UInt64) : List UInt8 :=
  LittleEndian.encode 8 dev.toNat ++ around.st.slice 8 8 ++ [1, 0]

/-- The path fits the name field, or goes on as the stat does. -/
def MknodRoom (around : Surroundings) (pathname : CString) (dev : UInt64) : Prop :=
  Short pathname ∨ spill pathname <+: statFront around dev

/-- The new name fits the name field, or it fits the record and goes on as the data field does. -/
def RenameRoom (newname : CString) (fnode : Fnode) : Prop :=
  Short newname ∨ (newname.length < fnodeSize ∧
    (spill newname).take dataSize <+: fnode.slice nameSize dataSize)

/-! ## Lookups -/

/-- The first entry with a name that is shorter than a record is found there. -/
theorem FirstNamed.storedAt {left right : List Fnode} (within : filename.length < fnodeSize)
    (first : FirstNamed filename table.entries left fnode right) (below : left.length < intLimit) :
    StoredAt table filename left.length fnode := by
  refine ⟨?_, ?_, first.named⟩
  · have found := lookupFrom_found_within within (Nat.zero_le _) first
    rw [Nat.zero_add, if_pos below] at found
    exact found
  · rw [first.place]
    simp

/-- An entry that is found beside entries without its name is the only one left. -/
theorem StoredAt.only {left right : List Fnode} {changed : Fnode}
    (stored : StoredAt table filename index fnode) (place : table.entries = left ++ changed :: right)
    (others : ∀ other ∈ left ++ right, ¬ Named filename other) :
    index = left.length ∧ fnode = changed := by
  have there := stored.there
  rw [place] at there
  rcases Nat.lt_trichotomy index left.length with before | here | behind
  · rw [List.getElem?_append_left before] at there
    exact absurd stored.named (others fnode (List.mem_append_left _ (List.mem_of_getElem? there)))
  · rw [here, List.getElem?_append_right (Nat.le_refl _), Nat.sub_self] at there
    exact ⟨here, (Option.some.inj there).symm⟩
  · obtain ⟨steps, rfl⟩ := Nat.exists_eq_add_of_lt behind
    rw [List.getElem?_append_right (by omega), Nat.add_assoc, Nat.add_sub_cancel_left,
      List.getElem?_cons_succ] at there
    exact absurd stored.named (others fnode (List.mem_append_right _ (List.mem_of_getElem? there)))

/-- A path that finds an entry finds it within the reach of the counter. -/
theorem StoredAt.below (stored : StoredAt table filename index fnode) : index < intLimit :=
  lookupFrom_lt (Nat.zero_le _) stored.found

/-! ## Names in records -/

/-- What is left of a short path is the zero byte, or nothing. -/
theorem length_spill : (spill filename).length = filename.length + 1 - nameSize := by
  rw [spill, List.length_drop, CString.length_stored]

/-- What is left of a longer path is stored as a path is. -/
theorem exists_spill (long : nameSize ≤ filename.length) :
    ∃ tail : CString, spill filename = tail.stored := by
  refine ⟨⟨filename.bytes.drop nameSize, fun zero => filename.proper (List.mem_of_mem_drop zero)⟩, ?_⟩
  rw [spill, CString.stored, CString.stored, List.drop_append_of_le_length long]

/-- A record has a long name exactly when the name field begins it and the data field goes on with
the rest. -/
theorem named_iff_spill (front : fnode.slice 0 nameSize = filename.stored.take nameSize) :
    Named filename fnode ↔ spill filename <+: fnode.bytes.drop nameSize := by
  have whole : fnode.bytes = filename.stored.take nameSize ++ fnode.bytes.drop nameSize := by
    rw [← front]
    exact (List.take_append_drop nameSize fnode.bytes).symm
  have stored : filename.stored = filename.stored.take nameSize ++ spill filename :=
    (List.take_append_drop nameSize filename.stored).symm
  calc
    Named filename fnode ↔ filename.stored.take nameSize ++ spill filename <+:
        filename.stored.take nameSize ++ fnode.bytes.drop nameSize := by rw [← stored, ← whole, Named]
    _ ↔ spill filename <+: fnode.bytes.drop nameSize := List.prefix_append_right_inj _

/-! ## `kvfs_mknod` -/

/-- A field that is set is read back as bytes. -/
theorem slice_setStat {st : Stat} {field : StatField} {value : Nat} :
    (setStat st field value).slice field.offset field.width = LittleEndian.encode field.width value := by
  have fits : field.offset + (LittleEndian.encode field.width value).length ≤ metadataSize := by
    rw [LittleEndian.length_encode]
    cases field <;> decide
  have bytes := @slice_overwrite _ _ _ st fits
  rw [LittleEndian.length_encode] at bytes
  exact bytes

/-- Setting a field leaves the bytes before and behind it alone. -/
theorem slice_setStat_apart {st : Stat} {field : StatField} {value offset count : Nat}
    (fits : offset + count ≤ metadataSize)
    (apart : offset + count ≤ field.offset ∨ field.offset + field.width ≤ offset) :
    (setStat st field value).slice offset count = st.slice offset count :=
  slice_overwrite_apart fits (by rw [LittleEndian.length_encode]; exact apart)

/-- The stat that `kvfs_mknod` fills in begins with the device, the inode number and the links. -/
theorem mknodStat_front :
    (mknodStat around mode dev).slice 0 18 = statFront around dev := by
  have device : (mknodStat around mode dev).slice 0 8 = LittleEndian.encode 8 dev.toNat := by
    simp (disch := decide) only [mknodStat, slice_setStat_apart]
    exact slice_setStat
  have inode : (mknodStat around mode dev).slice 8 8 = around.st.slice 8 8 := by
    simp (disch := decide) only [mknodStat, slice_setStat_apart]
  have links : (mknodStat around mode dev).slice 16 8 = LittleEndian.encode 8 1 := by
    simp (disch := decide) only [mknodStat, slice_setStat_apart]
    exact slice_setStat
  have low : (mknodStat around mode dev).slice 16 2 = [1, 0] := by
    rw [slice_add _ 16 2 6] at links
    have two := congrArg (List.take 2) links
    rwa [List.take_left' (length_slice (by decide))] at two
  rw [slice_add _ 0 16 2, slice_add _ 0 8 8, device, inode, low, statFront]

/-- The stat of the record that `kvfs_mknod` adds is the one filled in. -/
theorem statOf_mknodFnode :
    statOf (mknodFnode around pathname mode dev) = mknodStat around mode dev := by
  have kept := @slice_overwrite_apart fnodeSize nameSize (nameSize + dataSize) metadataSize
    (LittleEndian.encode 4 1) (withStat (around.fnode.overwrite 0 pathname.stored)
      (mknodStat around mode dev)) (by decide) (.inl (by decide))
  have last : statOf (mknodFnode around pathname mode dev) = statOf (withStat
      (around.fnode.overwrite 0 pathname.stored) (mknodStat around mode dev)) := by
    simp only [statOf, mknodFnode, kept]
  exact last.trans statOf_withStat

/-- The record that `kvfs_mknod` adds has a long path as its name exactly when the path goes on as
the stat does. -/
theorem named_mknodFnode_long (long : nameSize ≤ pathname.length) (fits : pathname.length < fnodeSize) :
    Named pathname (mknodFnode around pathname mode dev) ↔ spill pathname <+: statFront around dev := by
  have stored : (around.fnode.overwrite 0 pathname.stored).slice 0 nameSize =
      pathname.stored.take nameSize := by
    have all := @slice_overwrite _ _ _ around.fnode
      (show 0 + pathname.stored.length ≤ fnodeSize by rw [CString.length_stored]; omega)
    have cut := congrArg (List.take nameSize) all
    rwa [slice, List.take_take, Nat.min_eq_left (by rw [CString.length_stored]; omega)] at cut
  have front : (mknodFnode around pathname mode dev).slice 0 nameSize = pathname.stored.take nameSize := by
    rw [mknodFnode, slice_overwrite_apart (by decide) (.inl (by decide)), withStat,
      slice_overwrite_apart (by decide) (.inl (by decide)), stored]
  have behind : (mknodFnode around pathname mode dev).bytes.drop nameSize = statFront around dev ++
      (mknodFnode around pathname mode dev).bytes.drop (nameSize + 18) := by
    have first : ((mknodFnode around pathname mode dev).bytes.drop nameSize).take 18 =
        statFront around dev := by
      rw [← @mknodStat_front around mode dev, ← @statOf_mknodFnode pathname around mode dev]
      simp only [slice, statOf, List.drop_zero, List.take_take]
      rfl
    rw [← first, ← List.drop_drop, List.take_append_drop]
  obtain ⟨tail, spillIs⟩ := exists_spill long
  have zero : (0 : UInt8) ∈ statFront around dev := by simp [statFront]
  rw [named_iff_spill front, behind, spillIs, CString.stored_prefix_append _ zero]

/-- A path with room fits the record. -/
theorem MknodRoom.fits (room : MknodRoom around pathname dev) : pathname.length < fnodeSize := by
  rcases room with short | goesOn
  · exact Nat.lt_trans short (by decide)
  · have bound := goesOn.length_le
    have front : (statFront around dev).length = 18 := by
      rw [← @mknodStat_front around 0 dev, length_slice (by decide)]
    rw [length_spill, front] at bound
    unfold nameSize at bound
    unfold fnodeSize
    omega

/-- The record that `kvfs_mknod` adds has the path as its name exactly when there is room for it. -/
theorem named_mknodFnode_iff (fits : pathname.length < fnodeSize) :
    Named pathname (mknodFnode around pathname mode dev) ↔ MknodRoom around pathname dev := by
  by_cases short : Short pathname
  · exact iff_of_true (named_mknodFnode short) (.inl short)
  · rw [named_mknodFnode_long (not_lt.mp short) fits, MknodRoom]
    exact (or_iff_right short).symm

/-- `kvfs_mknod` stores an absent path exactly when the counter reaches the new entry and there is
room for the path. -/
theorem mknodStores_iff (absent : Absent volume.table pathname) :
    MknodStores around volume pathname mode dev ↔
      volume.table.entries.length < intLimit ∧ MknodRoom around pathname dev := by
  have others : ∀ other ∈ volume.table.entries ++ [], ¬ Named pathname other := by
    rw [List.append_nil]
    exact absent
  constructor
  · rintro ⟨result, after, done, outcome⟩
    have fits : pathname.length < fnodeSize := by
      by_contra long
      rw [kvfsMknod, if_pos (by rw [CString.length_stored]; omega)] at done
      contradiction
    obtain ⟨returned, _, appended⟩ := kvfsMknod_cases done
    rcases outcome with ⟨error, _⟩ | ⟨_, index, fnode, stored, _, _⟩
    · exact absurd returned error
    · obtain ⟨place, rfl⟩ := stored.only appended others
      have below := stored.below
      rw [place] at below
      exact ⟨below, (named_mknodFnode_iff fits).mp stored.named⟩
  · rintro ⟨below, room⟩
    have fits := room.fits
    have pushed : volume.table.entries.length + 1 < 2 ^ 32 := by
      unfold intLimit at below
      omega
    have first : FirstNamed pathname (volume.table.entries ++ [mknodFnode around pathname mode dev])
        volume.table.entries (mknodFnode around pathname mode dev) [] :=
      ⟨rfl, (named_mknodFnode_iff fits).mpr room, absent⟩
    refine ⟨0, ⟨⟨volume.table.entries ++ [mknodFnode around pathname mode dev], by simpa using pushed⟩,
      volume.superblock⟩, ?_, .inr ⟨rfl, volume.table.entries.length, _, first.storedAt fits below,
      statOf_mknodFnode, ?_⟩⟩
    · rw [kvfsMknod, if_neg (by rw [CString.length_stored]; omega), Table.push, dif_pos pushed]
      rfl
    · simp [List.eraseIdx_append_of_length_le]

/-! ## `kvfs_rename` -/

/-- The data field is the stat and the content. -/
theorem slice_data : fnode.slice nameSize dataSize = (statOf fnode).bytes ++ contentOf fnode :=
  slice_add fnode nameSize metadataSize (dataSize - metadataSize)

/-- Records with the same stat and content are those with the same data field. -/
theorem data_eq_iff {fnode' : Fnode} :
    fnode'.slice nameSize dataSize = fnode.slice nameSize dataSize ↔
      statOf fnode' = statOf fnode ∧ contentOf fnode' = contentOf fnode := by
  rw [slice_data, slice_data]
  constructor
  · intro same
    obtain ⟨stat, content⟩ := List.append_inj same (by rw [length_bytes, length_bytes])
    refine ⟨?_, content⟩
    generalize statOf fnode' = st' at stat
    generalize statOf fnode = st at stat
    obtain ⟨bytes, _⟩ := st
    obtain ⟨bytes', _⟩ := st'
    subst stat
    rfl
  · rintro ⟨stat, content⟩
    rw [stat, content]

/-- A renamed record has the new name, as long as that fits the record. -/
theorem named_withName_within (fits : newname.length < fnodeSize) :
    Named newname (withName newname fnode) := by
  have room : 0 + newname.stored.length ≤ fnodeSize := by
    rw [CString.length_stored]
    omega
  rw [named_iff_slice, ← CString.length_stored]
  exact slice_overwrite room

/-- A renamed record keeps its data field exactly when there is room for the new name. -/
theorem data_withName_iff (fits : newname.length < fnodeSize) :
    (withName newname fnode).slice nameSize dataSize = fnode.slice nameSize dataSize ↔
      RenameRoom newname fnode := by
  by_cases short : Short newname
  · exact iff_of_true (slice_withName short (Nat.le_refl _) (by decide)) (.inl short)
  · have cleared : (fnode.overwrite 0 (List.replicate nameSize 0)).slice nameSize dataSize =
        fnode.slice nameSize dataSize :=
      slice_overwrite_apart (by decide) (.inr (by rw [List.length_replicate]; omega))
    have long := not_lt.mp short
    rw [withName, ← cleared, slice_overwrite_eq_iff (Nat.zero_le _)
      (by rw [CString.length_stored]; omega) (by rw [CString.length_stored]; omega), cleared]
    exact ⟨fun goesOn => .inr ⟨fits, goesOn⟩, fun room => (room.resolve_left short).2⟩

/-- A name with room fits the record. -/
theorem RenameRoom.fits (room : RenameRoom newname fnode) : newname.length < fnodeSize := by
  rcases room with short | ⟨fits, _⟩
  · exact Nat.lt_trans short (by decide)
  · exact fits

/-- `kvfs_rename` of a file that is found returns exactly when the new name fits the record and the
superblock file is there. -/
theorem kvfsRename_found {result : Int} (found : lookup volume.table name = .ok (some index)) :
    kvfsRename volume name newname = .ok (result, after) ↔
      newname.length < fnodeSize ∧ volume.superblock.isSome ∧ result = 0 ∧
        after = ⟨volume.table.modify index (withName newname),
          some (image (volume.table.modify index (withName newname)))⟩ := by
  rw [kvfsRename, found, CString.length_stored]
  by_cases fits : newname.length < fnodeSize
  · simp only [show ¬ newname.length + 1 > fnodeSize by omega, if_false, Volume.saved, fits, true_and]
    cases volume.superblock with
    | none =>
      refine iff_of_false (fun saved => ?_) (by simp)
      cases saved
    | some old =>
      rw [save_some]
      simp [Except.map, eq_comm]
  · exact iff_of_false (by simp [show newname.length + 1 > fnodeSize by omega]) fun saved => fits saved.1

/-- `kvfs_rename` of an entry to an absent name stores it exactly when the superblock file is there
and there is room for the name. -/
theorem renameStores_iff (absent : Absent volume.table newname)
    (found : lookup volume.table name = .ok (some index))
    (there : volume.table.entries[index]? = some fnode) :
    RenameStores volume name newname index fnode ↔
      volume.superblock.isSome ∧ RenameRoom newname fnode := by
  obtain ⟨left, right, place, rfl⟩ := entries_split there
  have changed : (volume.table.modify left.length (withName newname)).entries =
      left ++ withName newname fnode :: right := by
    simp only [Table.modify]
    rw [place, modify_split]
  have others : ∀ other ∈ left ++ right, ¬ Named newname other := by
    intro other member
    apply absent other
    rw [place]
    rcases List.mem_append.mp member with inLeft | inRight
    · exact List.mem_append_left _ inLeft
    · exact List.mem_append_right left (List.mem_cons_of_mem fnode inRight)
  constructor
  · rintro ⟨result, after, done, outcome⟩
    obtain ⟨fits, file, returned, rfl⟩ := (kvfsRename_found found).mp done
    rcases outcome with ⟨error, _⟩ | ⟨_, index, fnode', stored, stat, content, _⟩
    · exact absurd returned error
    · obtain ⟨_, rfl⟩ := stored.only changed others
      exact ⟨file, (data_withName_iff fits).mp (data_eq_iff.mpr ⟨stat, content⟩)⟩
  · rintro ⟨file, room⟩
    have fits := room.fits
    have first : FirstNamed newname (volume.table.modify left.length (withName newname)).entries left
        (withName newname fnode) right :=
      ⟨changed, named_withName_within fits, fun other member =>
        others other (List.mem_append_left _ member)⟩
    have below : left.length < intLimit := lookupFrom_lt (Nat.zero_le _) found
    obtain ⟨stat, content⟩ := data_eq_iff.mp ((data_withName_iff fits).mpr room)
    refine ⟨0, _, (kvfsRename_found found).mpr ⟨fits, file, rfl, rfl⟩,
      .inr ⟨rfl, left.length, _, first.storedAt fits below, stat, content, ?_⟩⟩
    rw [changed, place]
    simp [List.eraseIdx_append_of_length_le]

/-- For an absent path `kvfs_mknod` stores it, and `kvfs_rename` of an existing file moves the file
there, exactly when there is room for the path, the counter reaches a new entry, and the superblock
file that `kvfs_rename` saves to is there. -/
theorem stores_iff (absent : Absent volume.table pathname) :
    (∀ (around : Surroundings) (mode : UInt32) (dev : UInt64),
      MknodStores around volume pathname mode dev ↔
        volume.table.entries.length < intLimit ∧ MknodRoom around pathname dev) ∧
    ∀ (name : CString) (index : Nat) (fnode : Fnode), lookup volume.table name = .ok (some index) →
      volume.table.entries[index]? = some fnode →
        (RenameStores volume name pathname index fnode ↔
          volume.superblock.isSome ∧ RenameRoom pathname fnode) :=
  ⟨fun _ _ _ => mknodStores_iff absent, fun _ _ _ found there => renameStores_iff absent found there⟩

/-- The root and a name of 1024 bytes. -/
def longPath : CString where
  bytes := 47 :: List.replicate 1024 97
  proper := by
    intro zero
    rcases List.mem_cons.mp zero with first | later
    · exact absurd first (by decide)
    · exact absurd (List.eq_of_mem_replicate later) (by decide)

/-- A file whose path has 1025 bytes is made without its name. -/
theorem longPath_lost : ¬ ∀ (volume : Volume) (pathname : CString), Absent volume.table pathname →
    (∀ (around : Surroundings) (mode : UInt32) (dev : UInt64),
      MknodStores around volume pathname mode dev) ∧
    ∀ (name : CString) (index : Nat) (fnode : Fnode), lookup volume.table name = .ok (some index) →
      volume.table.entries[index]? = some fnode → RenameStores volume name pathname index fnode := by
  intro claim
  have empty : Absent emptyVolume.table longPath := fun other member =>
    absurd member List.not_mem_nil
  have stores := (claim emptyVolume longPath empty).1 someSurroundings 33188 0
  rcases ((mknodStores_iff empty).mp stores).2 with short | goesOn
  · exact absurd short (by decide +kernel)
  · unfold spill at goesOn
    exact absurd goesOn (by decide +kernel)

/-- The path "/c". -/
def pathC : CString := ⟨[47, 99], by decide⟩

/-- Beside two files "/c" is made, or the first is renamed to it. -/
theorem stores_pathC : MknodStores someSurroundings twoFiles pathC 33188 0 ∧
    RenameStores twoFiles pathA pathC 0 (mknodFnode someSurroundings pathA 33188 0) := by
  have stores := @stores_iff twoFiles pathC (by decide +kernel)
  exact ⟨(stores.1 someSurroundings 33188 0).mpr ⟨by decide, .inl (by decide)⟩,
    (stores.2 pathA 0 _ (by decide +kernel) rfl).mpr ⟨rfl, .inl (by decide)⟩⟩

end OsAssignments.Kvfs
