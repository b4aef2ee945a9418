import OsAssignments.Kvfs.Effects

/-!
# Saving, crashing and loading

A table saved without interruption is loaded back unchanged, whatever the file held before, as
long as its count does not read as negative. When the process stops in the middle of a save, the
loader notices a missing record, but a file without a count, or with a count of 32 bits, it takes
for that of an empty table.
-/

namespace OsAssignments.Kvfs

open ByteRecord

variable {volume after : Volume} {table old new : Table} {file : List UInt8} {result : Int}

/-- `kvfs_init` of a file that is there loads it. -/
theorem kvfsInit_some (file : List UInt8) :
    kvfsInit (some file) = (readSuperblock (some file)).map fun table => (table, some file) := rfl

/-! ## Round trip -/

/-- The operations that save the table. -/
inductive Saves : Call → Prop
  /-- `kvfs_flush`. -/
  | flush : Saves .flush
  /-- `kvfs_unlink`. -/
  | unlink (pathname : CString) : Saves (.unlink pathname)
  /-- `kvfs_rename`. -/
  | rename (name newname : CString) : Saves (.rename name newname)

/-- A saving operation finds no file and changes nothing, or it leaves the image of its table, of
no more records than there were, in the superblock file. -/
theorem Saves.effect {call : Call} (saves : Saves call)
    (done : volume.perform call = .ok (result, after)) :
    (result = eacces ∧ after = volume) ∨
      (after.superblock = some (image after.table) ∧
        after.table.entries.length ≤ volume.table.entries.length) := by
  have kept : ∀ {before : Volume} {returned : Int}, before.saved returned = .ok (result, after) →
      before.table.entries.length ≤ volume.table.entries.length →
      after.superblock = some (image after.table) ∧
        after.table.entries.length ≤ volume.table.entries.length := by
    intro before returned saved fewer
    obtain ⟨_, tableIs, fileIs⟩ := saved_cases saved
    rw [fileIs, tableIs]
    exact ⟨rfl, fewer⟩
  cases saves with
  | flush => exact .inr (kept done (Nat.le_refl _))
  | unlink pathname =>
    rw [Volume.perform, kvfsUnlink] at done
    split at done
    · contradiction
    · cases done
      exact .inl ⟨rfl, rfl⟩
    · split at done
      · contradiction
      · apply Or.inr
        apply kept done
        simp only [Table.shrink, List.length_take]
        omega
  | rename name newname =>
    rw [Volume.perform, kvfsRename] at done
    split at done
    · contradiction
    · cases done
      exact .inl ⟨rfl, rfl⟩
    · split at done
      · contradiction
      · apply Or.inr
        apply kept done
        simp only [Table.modify, List.length_modify]
        exact Nat.le_refl _

/-- A saving operation that returns 0 leaves the image of the table in the superblock file. -/
theorem Saves.image {call : Call} (saves : Saves call)
    (done : volume.perform call = .ok (0, after)) :
    after.superblock = some (image after.table) := by
  rcases saves.effect done with ⟨contrary, _⟩ | ⟨fileIs, _⟩
  · exact absurd contrary (by decide)
  · exact fileIs

/-- The image of a table with fewer than 2³¹ records loads as the table. -/
theorem kvfsInit_image (small : table.entries.length < intLimit) :
    kvfsInit (some (image table)) = .ok (table, some (image table)) := by
  have read := readSuperblock_image small []
  rw [List.append_nil] at read
  rw [kvfsInit_some, read]
  rfl

/-- A table with fewer than 2³¹ records, saved over any file, is loaded back with every byte of
every record, and so is the table behind every saving operation that returned 0. -/
theorem superblock_roundTrip (small : table.entries.length < intLimit) :
    (∀ old : List UInt8, ∃ file, save (some old) table = .ok file ∧
      kvfsInit (some file) = .ok (table, some file)) ∧
    ∀ (volume : Volume) (call : Call) (superblock : Option (List UInt8)), Saves call →
      volume.perform call = .ok (0, ⟨table, superblock⟩) →
        kvfsInit superblock = .ok (table, superblock) := by
  have loaded := kvfsInit_image small
  refine ⟨fun old => ⟨image table, save_some old table, loaded⟩, ?_⟩
  intro volume call superblock saves done
  obtain rfl : superblock = some (image table) := saves.image done
  exact loaded

/-- A table of one record of zero bytes. -/
def oneFile : Table := ⟨[ByteRecord.zero fnodeSize], by decide⟩

/-- A table of two records: a name with nothing else, and some metadata without a name. -/
def twoRecords : Table :=
  ⟨[(ByteRecord.zero fnodeSize).overwrite 0 [97], (ByteRecord.zero fnodeSize).overwrite nameSize [1, 2, 3]],
    by decide⟩

/-- A file that is longer than the image of the two records. -/
def longerFile : List UInt8 := List.replicate 5000 7

/-- The two records are loaded back, saved over the longer file on their own or by `kvfs_flush`. -/
theorem superblock_roundTrip_twoRecords :
    (∃ file, save (some longerFile) twoRecords = .ok file ∧
      kvfsInit (some file) = .ok (twoRecords, some file)) ∧
    ∃ superblock,
      (⟨twoRecords, some longerFile⟩ : Volume).perform .flush = .ok (0, ⟨twoRecords, superblock⟩) ∧
        kvfsInit superblock = .ok (twoRecords, superblock) := by
  obtain ⟨saved, performed⟩ := @superblock_roundTrip twoRecords (by decide)
  have flushed : (⟨twoRecords, some longerFile⟩ : Volume).perform .flush =
      .ok (0, ⟨twoRecords, some (image twoRecords)⟩) := by
    rw [Volume.perform, kvfsFlush, Volume.saved, save_some]
    rfl
  exact ⟨saved longerFile, _, flushed, performed _ _ _ .flush flushed⟩

/-- The file that `kvfs_init` makes loads as the empty table. -/
theorem kvfsInit_created :
    kvfsInit (some createdSuperblock) = .ok (.empty, some createdSuperblock) := by
  have count : writeAt [] 0 (LittleEndian.encode 4 0) = LittleEndian.encode 4 0 :=
    writeAt_end [] _
  have whole : (LittleEndian.encode 4 0).length ≤ superblockEnd := by
    rw [LittleEndian.length_encode]
    unfold superblockEnd
    omega
  have empty : image .empty = LittleEndian.encode 4 0 := List.append_nil _
  have front : ∃ rest, createdSuperblock = image .empty ++ rest := by
    rw [createdSuperblock, count, writeAt, List.take_of_length_le whole, List.append_assoc,
      List.append_assoc, empty]
    exact ⟨_, rfl⟩
  obtain ⟨rest, same⟩ := front
  have small : Table.empty.entries.length < intLimit := Nat.two_pow_pos 31
  rw [kvfsInit_some, same, readSuperblock_image small]
  rfl

/-- A volume as `kvfs_init` leaves it. -/
def Mounted (volume : Volume) : Prop :=
  ∃ superblock, kvfsInit superblock = .ok (volume.table, volume.superblock)

/-- A mount leaves a mounted volume. -/
theorem mounted_of_init (done : volume.perform .init = .ok (result, after)) : Mounted after := by
  rw [Volume.perform] at done
  cases loads : kvfsInit volume.superblock with
  | error halt =>
    rw [loads] at done
    contradiction
  | ok mounted =>
    rw [loads] at done
    obtain rfl : _ = after := congrArg Prod.snd (Except.ok.inj done)
    exact ⟨volume.superblock, loads⟩

/-- A table loaded has fewer than 2³¹ records. -/
theorem kvfsInit_length {superblock left : Option (List UInt8)}
    (loads : kvfsInit superblock = .ok (table, left)) : table.entries.length < intLimit := by
  cases superblock with
  | none =>
    obtain rfl : Table.empty = table := congrArg Prod.fst (Except.ok.inj loads)
    exact Nat.two_pow_pos 31
  | some file =>
    rw [kvfsInit_some] at loads
    cases read : readSuperblock (some file) with
    | error halt =>
      rw [read] at loads
      contradiction
    | ok found =>
      rw [read] at loads
      obtain rfl : found = table := congrArg Prod.fst (Except.ok.inj loads)
      exact readSuperblock_length read

/-- A mount repeated right away loads the same table. -/
theorem Mounted.again (mounted : Mounted volume) :
    kvfsInit volume.superblock = .ok (volume.table, volume.superblock) := by
  obtain ⟨superblock, loads⟩ := mounted
  have done : Volume.perform ⟨.empty, superblock⟩ .init = .ok (0, volume) := by
    rw [Volume.perform, loads]
    rfl
  obtain ⟨_, ⟨_, tableIs, fileIs⟩ | ⟨file, _, fileIs, read⟩⟩ := init_cases done
  · rw [fileIs, tableIs, kvfsInit_created]
  · rw [fileIs, kvfsInit_some, read]
    rfl

/-- The file that a table with fewer than 2³¹ records leaves can be mounted. -/
theorem mounted_image (small : table.entries.length < intLimit) :
    Mounted ⟨table, some (image table)⟩ := ⟨some (image table), kvfsInit_image small⟩

/-- A mount of the file that the empty table leaves. -/
def emptyVolume : Volume := ⟨.empty, some (image .empty)⟩

/-! ## Crashes -/

/-- The points at which the process may stop in the middle of a save. -/
inductive Cut
  /-- After the truncation. -/
  | truncated
  /-- After the count and so many bytes of the records reached the file. -/
  | counted (transferred : Nat)
  deriving DecidableEq

/-- The superblock file that a save leaves when the process stops at a cut. -/
def crashed (superblock : Option (List UInt8)) (new : Table) : Cut → Option (List UInt8)
  | .truncated => clearSuperblock superblock
  | .counted transferred =>
    (clearSuperblock superblock).map fun file => written file new (some 4) (some transferred)

/-- After the crash `kvfs_init` recovers the old table or the new one, or exits with the corrupt
superblock error. -/
def Consistent (file : List UInt8) (old new : Table) (cut : Cut) : Prop :=
  (∃ table superblock, kvfsInit (crashed (some file) new cut) = .ok (table, superblock) ∧
    (table = old ∨ table = new)) ∨
  kvfsInit (crashed (some file) new cut) = .error .corrupt

/-- What a cut leaves is told from a table that was never saved: without a count, when one of the
two tables is empty; with a count, when it reads as positive or the old table is empty. -/
def Detected (old new : Table) : Cut → Prop
  | .truncated => old.entries = [] ∨ new.entries = []
  | .counted _ => new.entries.length < intLimit ∨ old.entries = []

/-- A table is empty when it has no records. -/
theorem empty_eq_iff : Table.empty = table ↔ table.entries = [] := by
  constructor
  · rintro rfl
    rfl
  · intro none
    ext1
    exact none.symm

/-- A file that was only truncated loads as the empty table. -/
theorem kvfsInit_truncated (file : List UInt8) (new : Table) :
    kvfsInit (crashed (some file) new .truncated) = .ok (.empty, some []) := by
  have none : numFiles [] = 0 := by
    unfold numFiles
    rw [List.take_nil, LittleEndian.decode, Nat.cast_zero, Int.zero_bmod]
  rw [crashed, clearSuperblock, Option.map_some, kvfsInit_some, readSuperblock, none, Int.toNat_zero]
  rfl

/-- A file that begins with a count of 32 bits loads as the empty table. -/
theorem kvfsInit_large (rest : List UInt8) (large : intLimit ≤ new.entries.length) :
    kvfsInit (some (LittleEndian.encode 4 new.entries.length ++ rest)) =
      .ok (.empty, some (LittleEndian.encode 4 new.entries.length ++ rest)) := by
  have negative := @numFiles_large rest new.entries.length large new.counted
  have none : (numFiles (LittleEndian.encode 4 new.entries.length ++ rest)).toNat = 0 :=
    Int.toNat_of_nonpos (Int.le_of_lt negative)
  rw [kvfsInit_some, readSuperblock, none]
  rfl

/-- A saved table loads as itself, or as the empty table when its count reads as negative. -/
theorem kvfsInit_image_cases (table : Table) :
    kvfsInit (some (image table)) = .ok (table, some (image table)) ∨
      kvfsInit (some (image table)) = .ok (.empty, some (image table)) := by
  by_cases small : table.entries.length < intLimit
  · exact .inl (kvfsInit_image small)
  · exact .inr (kvfsInit_large (join table.entries) (Nat.le_of_not_lt small))

/-- A file that ends before the last record it counts is refused. -/
theorem kvfsInit_cut {transferred : Nat} (small : new.entries.length < intLimit)
    (missing : transferred < new.entries.length * fnodeSize) :
    kvfsInit (some (LittleEndian.encode 4 new.entries.length ++
      (join new.entries).take transferred)) = .error .corrupt := by
  have word := new.counted
  have behind : (LittleEndian.encode 4 new.entries.length ++
      (join new.entries).take transferred).drop 4 = (join new.entries).take transferred :=
    List.drop_left' (LittleEndian.length_encode 4 _)
  have short : ((join new.entries).take transferred).length < new.entries.length * fnodeSize := by
    rw [List.length_take]
    omega
  have room : Table.empty.entries.length + new.entries.length < 2 ^ 32 := by
    simpa [Table.empty] using word
  rw [kvfsInit_some, readSuperblock, behind, numFiles_small small, Int.toNat_natCast,
    readRecords_short short room]
  rfl

/-- A crash that leaves a file which loads is consistent when the table loaded is one of the
two. -/
theorem consistent_iff_of_loads {cut : Cut} {superblock : Option (List UInt8)}
    (loads : kvfsInit (crashed (some file) new cut) = .ok (table, superblock)) :
    Consistent file old new cut ↔ table = old ∨ table = new := by
  rw [Consistent, loads]
  constructor
  · rintro (⟨_, _, same, recovered⟩ | refused)
    · cases same
      exact recovered
    · contradiction
  · exact fun recovered => .inl ⟨table, superblock, rfl, recovered⟩

/-- A crash in the middle of a save is noticed, or leaves one of the two tables, exactly when what
the cut leaves is told from a table that was never saved. -/
theorem consistent_iff_detected (file : List UInt8) (old new : Table) (cut : Cut) :
    Consistent file old new cut ↔ Detected old new cut := by
  cases cut with
  | truncated =>
    rw [consistent_iff_of_loads (kvfsInit_truncated file new), empty_eq_iff, empty_eq_iff]
    rfl
  | counted transferred =>
    have left : crashed (some file) new (.counted transferred) =
        some (LittleEndian.encode 4 new.entries.length ++ (join new.entries).take transferred) :=
      congrArg some (written_cleared new transferred)
    by_cases small : new.entries.length < intLimit
    · -- The count is read back, so the records are missed if any is cut short.
      refine iff_of_true ?_ (.inl small)
      by_cases missing : transferred < new.entries.length * fnodeSize
      · exact .inr (left ▸ kvfsInit_cut small missing)
      · have all : (join new.entries).take transferred = join new.entries :=
          List.take_of_length_le (by rw [length_join]; omega)
        rw [all, ← image] at left
        exact .inl ⟨new, _, left ▸ kvfsInit_image small, .inr rfl⟩
    · -- The count reads as negative, so no records are read at all.
      have large : intLimit ≤ new.entries.length := Nat.le_of_not_lt small
      have someNew : new.entries ≠ [] := by
        intro none
        unfold intLimit at large
        rw [none, List.length_nil] at large
        omega
      have loads : kvfsInit (crashed (some file) new (.counted transferred)) = .ok (.empty, _) :=
        left ▸ kvfsInit_large ((join new.entries).take transferred) large
      have recovers := @consistent_iff_of_loads _ old _ _ _ _ loads
      rw [empty_eq_iff, empty_eq_iff] at recovers
      refine recovers.trans ⟨fun none => .inr (none.resolve_right someNew), fun detected => .inl ?_⟩
      exact detected.resolve_left small

/-- A flush that stops after the truncation loses the one file there was, and the empty table left
is accepted. -/
theorem oneFile_lost : readSuperblock (some (image oneFile)) = .ok oneFile ∧
    ¬ Consistent (image oneFile) oneFile oneFile .truncated := by
  have read := @readSuperblock_image oneFile (by decide) []
  rw [List.append_nil] at read
  refine ⟨read, fun recovered => ?_⟩
  have lost := (consistent_iff_of_loads (kvfsInit_truncated _ _)).mp recovered
  rw [empty_eq_iff] at lost
  simp [oneFile] at lost

/-! ## Lasting properties -/

/-- A property holds of the table in memory and of the one that a mount would load. -/
structure Lasts (holds : Table → Prop) (volume : Volume) : Prop where
  /-- It holds of the table in memory. -/
  table : holds volume.table
  /-- It holds of the table in the file. -/
  loads : ∀ loaded superblock, kvfsInit volume.superblock = .ok (loaded, superblock) → holds loaded

variable {holds : Table → Prop}

/-- What holds of a table just mounted lasts. -/
theorem Mounted.lasts (mounted : Mounted volume) (now : holds volume.table) : Lasts holds volume := by
  refine ⟨now, fun loaded superblock loads => ?_⟩
  rw [mounted.again] at loads
  cases loads
  exact now

/-- What lasts goes on to when the file is left alone and the table has the property. -/
theorem Lasts.unsaved (lasts : Lasts holds volume) (same : after.superblock = volume.superblock)
    (now : holds after.table) : Lasts holds after := by
  refine ⟨now, fun loaded superblock loads => ?_⟩
  rw [same] at loads
  exact lasts.loads loaded superblock loads

/-- What holds of a table that is saved lasts when it holds of the empty one. -/
theorem Lasts.of_saved (empty : holds .empty) (saved : after.superblock = some (Kvfs.image after.table))
    (now : holds after.table) : Lasts holds after := by
  refine ⟨now, fun loaded superblock loads => ?_⟩
  rw [saved] at loads
  rcases kvfsInit_image_cases after.table with whole | none
  · rw [whole] at loads
    cases loads
    exact now
  · rw [none] at loads
    cases loads
    exact empty

/-- What lasts and holds of the empty table goes on to after a mount. -/
theorem Lasts.init (empty : holds .empty) (lasts : Lasts holds volume)
    (done : volume.perform .init = .ok (result, after)) : Lasts holds after := by
  obtain ⟨_, ⟨_, tableIs, fileIs⟩ | ⟨file, there, fileIs, read⟩⟩ := init_cases done
  · refine ⟨tableIs ▸ empty, fun loaded superblock loads => ?_⟩
    rw [fileIs, kvfsInit_created] at loads
    cases loads
    exact empty
  · have loaded : kvfsInit (some file) = .ok (after.table, some file) := by
      rw [kvfsInit_some, read]
      rfl
    apply lasts.unsaved (fileIs.trans there.symm)
    exact lasts.loads _ _ (there ▸ loaded)

end OsAssignments.Kvfs
