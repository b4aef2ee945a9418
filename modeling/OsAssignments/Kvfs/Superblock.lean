import OsAssignments.Kvfs.Table

/-!
# The superblock file

The table is saved in one file, a count and then the records, and read back from it at mount.
Saving first truncates the file and then writes it anew. The loader checks that it gets each
record whole, but not that it gets the count; the two checks behind the writes compare a negated
result and refuse nothing but a failed write of no records.

The string built from `mountparent` that names the file is left out, as are the log messages, whose own
file is taken to be one that can be opened: the superblock file is there or not. Growing the table never
fails for want of memory.
-/

namespace OsAssignments.Kvfs

open ByteRecord

/-- What a `write` call gives: the bytes transferred, or nothing for −1. -/
abbrev Reply := Option Nat

/-- A file after bytes are written at an offset; a hole before them reads zero. -/
def writeAt (file : List UInt8) (offset : Nat) (bytes : List UInt8) : List UInt8 :=
  file.take offset ++ List.replicate (offset - file.length) 0 ++ bytes ++
    file.drop (offset + bytes.length)

/-- `!write_sz` in C. -/
def notOf (reply : Reply) : Nat := if reply = some 0 then 1 else 0

/-- `clear_superblock`: truncate the file when there is one. -/
def clearSuperblock (superblock : Option (List UInt8)) : Option (List UInt8) :=
  superblock.map fun _ => []

/-- The file after the two `write` calls of `write_superblock`, with the replies to them. -/
def written (file : List UInt8) (table : Table) (count records : Reply) : List UInt8 :=
  let size := LittleEndian.encode 4 table.entries.length
  let file := writeAt file 0 (size.take (count.getD 0))
  writeAt file (count.getD 0) ((join table.entries).take (records.getD 0))

/-- `write_superblock`, with the replies to its `write` calls. Its checks compare `!write_sz` with
the size expected. -/
def writeSuperblock (superblock : Option (List UInt8)) (table : Table) (count records : Reply) :
    Except Halt (List UInt8) :=
  match superblock with
  | none => .error .cannotOpen
  | some file =>
    if notOf count = 4 then .error .corrupt
    else if notOf records = table.entries.length * fnodeSize then .error .corrupt
    else .ok (written file table count records)

/-- The loop of `read_superblock`, over the records left to read and the rest of the file. -/
def readRecords : Nat → List UInt8 → Table → Except Halt Table
  | 0, _, table => .ok table
  | left + 1, file, table =>
    match ofBytes? fnodeSize (file.take fnodeSize) with
    | none => .error .corrupt
    | some fnode =>
      match table.push fnode with
      | .error halt => .error halt
      | .ok table => readRecords left (file.drop fnodeSize) table

/-- `num_files` after the first `read`: the bytes it got, over an `int` that was zero. -/
def numFiles (file : List UInt8) : Int := Int.bmod (LittleEndian.decode (file.take 4)) (2 ^ 32)

/-- `read_superblock`. A negative count reads no records. -/
def readSuperblock (superblock : Option (List UInt8)) : Except Halt Table :=
  match superblock with
  | none => .error .cannotOpen
  | some file => readRecords (numFiles file).toNat (file.drop 4) .empty

/-- `SUPERBLOCK_SIZE - 1`, where the macro is a sum without brackets. -/
def superblockEnd : Nat := 10 * 4096 * 2048 + 1 - 1

/-- The file `kvfs_init` makes: a zero count, and a zero byte far behind it. -/
def createdSuperblock : List UInt8 :=
  writeAt (writeAt [] 0 (LittleEndian.encode 4 0)) superblockEnd [0]

/-- `kvfs_init`: the table, and the superblock file from then on. -/
def kvfsInit (superblock : Option (List UInt8)) : Except Halt (Table × Option (List UInt8)) :=
  match superblock with
  | none => .ok (.empty, some createdSuperblock)
  | some file => (readSuperblock (some file)).map fun table => (table, some file)

/-- The bytes of a table in the file: its count and its records. -/
def image (table : Table) : List UInt8 :=
  LittleEndian.encode 4 table.entries.length ++ join table.entries

/-- `clear_superblock` and `write_superblock`, with every byte transferred. -/
def save (superblock : Option (List UInt8)) (table : Table) : Except Halt (List UInt8) :=
  writeSuperblock (clearSuperblock superblock) table (some 4)
    (some (table.entries.length * fnodeSize))

variable {table grown : Table} {file rest : List UInt8} {entries : List Fnode}
  {superblock : Option (List UInt8)} {n : Nat}

/-! ## Saving -/

/-- Writing at the end of a file appends. -/
theorem writeAt_end (file bytes : List UInt8) : writeAt file file.length bytes = file ++ bytes := by
  simp [writeAt]

/-- Writing the table to a truncated file leaves as many bytes of its count and of its records as
were transferred. -/
theorem written_empty {count : Reply} (fits : count.getD 0 ≤ 4) (table : Table) (records : Reply) :
    written [] table count records =
      (LittleEndian.encode 4 table.entries.length).take (count.getD 0) ++
        (join table.entries).take (records.getD 0) := by
  have length : ((LittleEndian.encode 4 table.entries.length).take (count.getD 0)).length =
      count.getD 0 := by
    rw [List.length_take, LittleEndian.length_encode, Nat.min_eq_left fits]
  have first := writeAt_end [] ((LittleEndian.encode 4 table.entries.length).take (count.getD 0))
  rw [List.length_nil, List.nil_append] at first
  have second := writeAt_end ((LittleEndian.encode 4 table.entries.length).take (count.getD 0))
    ((join table.entries).take (records.getD 0))
  rw [length] at second
  rw [written, first, second]

/-- Writing the table to a truncated file leaves its count and as many bytes of its records as
were transferred. -/
theorem written_cleared (table : Table) (transferred : Nat) :
    written [] table (some 4) (some transferred) =
      LittleEndian.encode 4 table.entries.length ++ (join table.entries).take transferred := by
  have size := LittleEndian.length_encode 4 table.entries.length
  have whole := @written_empty (some 4) (Nat.le_refl 4) table (some transferred)
  rw [Option.getD_some, Option.getD_some, List.take_of_length_le (Nat.le_of_eq size)] at whole
  exact whole

/-- The checks of `write_superblock` pass when every byte is transferred. -/
theorem notOf_transferred (table : Table) :
    notOf (some (table.entries.length * fnodeSize)) ≠ table.entries.length * fnodeSize := by
  unfold notOf fnodeSize
  by_cases none : table.entries.length = 0
  · simp [none]
  · rw [if_neg (by simpa using none)]
    omega

/-- Saving over a file leaves the image of the table, whatever the file held. -/
theorem save_some (file : List UInt8) (table : Table) : save (some file) table = .ok (image table) := by
  have all : (join table.entries).take (table.entries.length * fnodeSize) = join table.entries :=
    List.take_of_length_le (Nat.le_of_eq length_join)
  have first : notOf (some 4) ≠ 4 := by decide
  rw [save, clearSuperblock, Option.map_some, writeSuperblock, if_neg first,
    if_neg (notOf_transferred table), written_cleared, all, image]

/-- Saving needs the file. -/
theorem save_ok (saved : save superblock table = .ok file) :
    (∃ old, superblock = some old) ∧ file = image table := by
  cases superblock with
  | none => contradiction
  | some old =>
    rw [save_some] at saved
    cases saved
    exact ⟨⟨old, rfl⟩, rfl⟩

/-! ## Loading -/

/-- The loop reads back records that lie at the front of the file. -/
theorem readRecords_join (room : table.entries.length + entries.length < 2 ^ 32) :
    ∃ grown, readRecords entries.length (join entries ++ rest) table = .ok grown ∧
      grown.entries = table.entries ++ entries := by
  induction entries generalizing table with
  | nil => exact ⟨table, rfl, by simp⟩
  | cons fnode entries ih =>
    rw [List.length_cons] at room
    have fits : table.entries.length + 1 < 2 ^ 32 := by omega
    obtain ⟨grown, read, grownIs⟩ := @ih ⟨table.entries ++ [fnode], by simpa using fits⟩
      (by simp; omega)
    refine ⟨grown, ?_, by simpa using grownIs⟩
    rw [List.length_cons, readRecords, take_join, drop_join, ofBytes?_bytes]
    simp only [Table.push, fits, dif_pos]
    exact read

/-- The loop refuses a file that ends before the last record does. -/
theorem readRecords_short (short : file.length < n * fnodeSize)
    (room : table.entries.length + n < 2 ^ 32) : readRecords n file table = .error .corrupt := by
  induction n generalizing file table with
  | zero => omega
  | succ n ih =>
    rw [readRecords, ofBytes?]
    by_cases whole : (file.take fnodeSize).length = fnodeSize
    · have fits : table.entries.length + 1 < 2 ^ 32 := by omega
      have length : file.length ≥ fnodeSize := by
        rw [List.length_take] at whole
        omega
      have tail := @ih ⟨table.entries ++ [⟨file.take fnodeSize, whole⟩], by simpa using fits⟩
        (file.drop fnodeSize) (by rw [Nat.succ_mul] at short; rw [List.length_drop]; omega)
        (by simp; omega)
      simp only [whole, dif_pos, Table.push, fits]
      exact tail
    · rw [dif_neg whole]

/-- The loop reads as many records as it was told. -/
theorem readRecords_length (read : readRecords n file table = .ok grown) :
    grown.entries.length = table.entries.length + n := by
  induction n generalizing file table with
  | zero =>
    cases read
    rfl
  | succ n ih =>
    rw [readRecords] at read
    split at read
    · contradiction
    · rename_i fnode _
      split at read
      · contradiction
      · rename_i pushed returned
        rw [ih read, push_eq returned, List.length_append, List.length_singleton]
        omega

/-- The count at the front of a file is read as a signed word. -/
theorem numFiles_encode (word : n < 2 ^ 32) :
    numFiles (LittleEndian.encode 4 n ++ rest) = Int.bmod n (2 ^ 32) := by
  have bytes : (LittleEndian.encode 4 n ++ rest).take 4 = LittleEndian.encode 4 n :=
    List.take_left' (LittleEndian.length_encode 4 n)
  have fits : n < 256 ^ 4 := Nat.lt_of_lt_of_le word (by norm_num)
  have count := LittleEndian.decode_encode_of_lt fits
  unfold numFiles
  rw [bytes, count]

/-- A count of at most 31 bits is read back. -/
theorem numFiles_small (small : n < intLimit) :
    numFiles (LittleEndian.encode 4 n ++ rest) = n := by
  unfold intLimit at small
  rw [numFiles_encode (by omega)]
  exact Int.bmod_eq_of_le (by omega) (by omega)

/-- A count of 32 bits reads as negative. -/
theorem numFiles_large (large : intLimit ≤ n) (word : n < 2 ^ 32) :
    numFiles (LittleEndian.encode 4 n ++ rest) < 0 := by
  unfold intLimit at large
  rw [numFiles_encode word]
  exact (Int.bmod_neg_iff (by omega) (by omega)).mpr (.inr (by omega))

/-- A table is never read with 2³¹ records or more. -/
theorem readSuperblock_length (read : readSuperblock superblock = .ok table) :
    table.entries.length < intLimit := by
  cases superblock with
  | none => contradiction
  | some file =>
    have length := readRecords_length read
    have bound : numFiles file < ((2 ^ 32 : Nat) + 1) / 2 := Int.bmod_lt (by decide)
    rw [length]
    unfold intLimit Table.empty
    simp only [List.length_nil]
    omega

/-- The image of a table with fewer than 2³¹ records, and anything behind it, loads as the
table. -/
theorem readSuperblock_image (small : table.entries.length < intLimit) (rest : List UInt8) :
    readSuperblock (some (image table ++ rest)) = .ok table := by
  have word := table.counted
  have behind : (image table ++ rest).drop 4 = join table.entries ++ rest := by
    rw [image, List.append_assoc]
    exact List.drop_left' (LittleEndian.length_encode 4 table.entries.length)
  have room : Table.empty.entries.length + table.entries.length < 2 ^ 32 := by
    simpa [Table.empty] using word
  obtain ⟨grown, read, grownIs⟩ := @readRecords_join Table.empty rest table.entries room
  have same : grown = table := by
    ext1
    simpa [Table.empty] using grownIs
  rw [readSuperblock, behind, image, List.append_assoc, numFiles_small small, Int.toNat_natCast,
    read, same]

end OsAssignments.Kvfs
