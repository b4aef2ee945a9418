import OsAssignments.Kvfs.Operations

/-!
# What the operations do

One lemma for each operation that says everything a call of it can do when it returns: which
record it changes, in terms of the records before and behind it, and what it leaves in the
superblock file. The lemmas about lookups are for paths that fit the name field.
-/

namespace OsAssignments.Kvfs

open ByteRecord

variable {volume after : Volume} {filename pathname name newname : CString} {result : Int}
  {left right entries : List Fnode} {fnode : Fnode} {table : Table}

/-- `lookup` of a short path finds the first record with the name, finds that there is none, or
overflows its counter. -/
theorem lookup_cases (short : Short filename) (table : Table) :
    (∃ left fnode right, FirstNamed filename table.entries left fnode right ∧
        left.length < intLimit ∧ lookup table filename = .ok (some left.length)) ∨
      ((∀ fnode ∈ table.entries, ¬ Named filename fnode) ∧ table.entries.length < intLimit ∧
        lookup table filename = .ok none) ∨
      lookup table filename = .error .overflow := by
  rcases firstNamed_or_absent filename table.entries with ⟨left, fnode, right, found⟩ | absent
  · have searched := lookupFrom_found short (Nat.zero_le _) found
    rw [Nat.zero_add] at searched
    by_cases below : left.length < intLimit
    · rw [if_pos below] at searched
      exact .inl ⟨left, fnode, right, found, below, searched⟩
    · rw [if_neg below] at searched
      exact .inr (.inr searched)
  · have searched := lookupFrom_absent short (Nat.zero_le _) absent
    rw [Nat.zero_add] at searched
    by_cases below : table.entries.length < intLimit
    · rw [if_pos below] at searched
      exact .inr (.inl ⟨absent, below, searched⟩)
    · rw [if_neg below] at searched
      exact .inr (.inr searched)

/-- An operation that ends by saving leaves the table, and the table's image in the file. -/
theorem saved_cases {returned : Int} (done : volume.saved result = .ok (returned, after)) :
    returned = result ∧ after.table = volume.table ∧ after.superblock = some (image volume.table) := by
  unfold Volume.saved at done
  cases written : save volume.superblock volume.table with
  | error halt =>
    rw [written] at done
    contradiction
  | ok file =>
    obtain ⟨_, rfl⟩ := save_ok written
    rw [written] at done
    cases done
    exact ⟨rfl, rfl, rfl⟩

/-- `kvfs_mknod` appends its record. -/
theorem kvfsMknod_cases {around : Surroundings} {mode : UInt32} {dev : UInt64}
    (done : kvfsMknod around volume pathname mode dev = .ok (result, after)) :
    result = 0 ∧ after.superblock = volume.superblock ∧
      after.table.entries = volume.table.entries ++ [mknodFnode around pathname mode dev] := by
  unfold kvfsMknod at done
  split at done
  · contradiction
  · cases grown : volume.table.push (mknodFnode around pathname mode dev) with
    | error halt =>
      rw [grown] at done
      contradiction
    | ok table =>
      rw [grown] at done
      cases done
      exact ⟨rfl, rfl, push_eq grown⟩

/-- `kvfs_utimens` sets the times of the first record with the name, or does nothing. -/
theorem kvfsUtimens_cases {atime mtime : UInt64} (short : Short pathname)
    (done : kvfsUtimens volume pathname atime mtime = .ok (result, after)) :
    after = volume ∨ ∃ left fnode right,
      FirstNamed pathname volume.table.entries left fnode right ∧
        after.superblock = volume.superblock ∧
        after.table.entries = left ++ withTimes atime mtime fnode :: right := by
  unfold kvfsUtimens at done
  rcases lookup_cases short volume.table with ⟨left, fnode, right, found, _, searched⟩ |
      ⟨_, _, searched⟩ | searched
  · rw [searched] at done
    cases done
    refine .inr ⟨left, fnode, right, found, rfl, ?_⟩
    simp only [Table.modify]
    rw [found.place, modify_split]
  · rw [searched] at done
    cases done
    exact .inl rfl
  · rw [searched] at done
    contradiction

/-- The record that `kvfs_write` leaves. -/
def withContent (data : List UInt8) (off : Nat) (fnode : Fnode) : Fnode :=
  withStat (fnode.overwrite (nameSize + metadataSize + off) data)
    (setStat (statOf fnode) .size (off + data.length))

/-- `kvfs_write` changes the record that it finds, within its bounds, or does nothing. -/
theorem kvfsWrite_done {data : List UInt8} {off : Int64}
    (done : kvfsWrite volume filename data off = .ok (result, after)) :
    after = volume ∨ ∃ index, lookup volume.table filename = .ok (some index) ∧
      ((off.toInt + data.length) % 2 ^ 64).toNat ≤ dataSize - metadataSize ∧
      (nameSize : Int) + metadataSize + off.toInt + data.length ≤ fnodeSize ∧
      after = ⟨volume.table.modify index fun fnode =>
        withStat (fnode.overwrite ((nameSize : Int) + metadataSize + off.toInt).toNat data)
          (setStat (statOf fnode) .size ((off.toInt + data.length) % 2 ^ 64).toNat),
        volume.superblock⟩ := by
  unfold kvfsWrite at done
  by_cases guarded : ((off.toInt + data.length) % 2 ^ 64).toNat > dataSize - metadataSize
  · rw [if_pos guarded] at done
    cases done
    exact .inl rfl
  · rw [if_neg guarded] at done
    cases searched : lookup volume.table filename with
    | error halt =>
      rw [searched] at done
      contradiction
    | ok found =>
      cases found with
      | none =>
        rw [searched] at done
        cases done
        exact .inl rfl
      | some index =>
        rw [searched] at done
        by_cases outside : (nameSize : Int) + metadataSize + off.toInt < 0 ∨
            (nameSize : Int) + metadataSize + off.toInt + data.length > fnodeSize
        · simp only [outside, if_true] at done
          contradiction
        · simp only [outside, if_false] at done
          obtain rfl : _ = after := congrArg Prod.snd (Except.ok.inj done)
          exact .inr ⟨index, rfl, not_lt.mp guarded, not_lt.mp (not_or.mp outside).2, rfl⟩

/-- `kvfs_write` at a proper offset writes the first record with the name within its content, or
does nothing. -/
theorem kvfsWrite_cases {data : List UInt8} {off : Int64} (short : Short filename)
    (proper : 0 ≤ off.toInt) (done : kvfsWrite volume filename data off = .ok (result, after)) :
    after = volume ∨ ∃ left fnode right,
      FirstNamed filename volume.table.entries left fnode right ∧
        off.toInt.toNat + data.length ≤ dataSize - metadataSize ∧
        after.superblock = volume.superblock ∧
        after.table.entries = left ++ withContent data off.toInt.toNat fnode :: right := by
  rcases kvfsWrite_done done with same | ⟨index, searched, guarded, inside, rfl⟩
  · exact .inl same
  · obtain ⟨_, left, fnode, right, found, rfl⟩ := (lookup_eq_some short).mp searched
    obtain ⟨offset, offsetIs⟩ := Int.eq_ofNat_of_zero_le proper
    have toNat : off.toInt.toNat = offset := by omega
    -- Within the record the sum is too small to have wrapped around.
    have sum : ((off.toInt + data.length) % 2 ^ 64).toNat = offset + data.length := by
      unfold nameSize metadataSize fnodeSize at inside
      omega
    have place : ((nameSize : Int) + metadataSize + off.toInt).toNat =
        nameSize + metadataSize + offset := by
      rw [offsetIs]
      omega
    rw [sum] at guarded
    rw [toNat]
    refine .inr ⟨left, fnode, right, found, guarded, rfl, ?_⟩
    simp only [Table.modify]
    rw [found.place, modify_split, place, sum]
    rfl

/-- A loop that has moved a record down moves the rest, and leaves a stale record at the end. -/
theorem shiftDown_eq (fits : left.length + 1 + right.length < intLimit) :
    ∃ stale, shiftDown right.length (left.length + 1) (left ++ fnode :: right) =
      .ok (left ++ right ++ [stale]) := by
  induction right generalizing left fnode with
  | nil =>
    refine ⟨fnode, ?_⟩
    rw [List.length_nil, shiftDown, if_neg (by simp at fits; omega), List.append_nil]
  | cons next rest ih =>
    rw [List.length_cons] at fits
    have read : (left ++ fnode :: next :: rest)[left.length + 1]? = some next := by simp
    have moved : (left ++ fnode :: next :: rest).set (left.length + 1 - 1) next =
        (left ++ [next]) ++ next :: rest := by simp
    obtain ⟨stale, later⟩ := @ih (left ++ [next]) next (by simp; omega)
    rw [List.length_append, List.length_singleton] at later
    refine ⟨stale, ?_⟩
    rw [List.length_cons, shiftDown, if_neg (by omega), read]
    simp only [moved]
    rw [later]
    simp

/-- A loop that ends has not counted past 2³¹ − 1. -/
theorem shiftDown_bound {steps i : Nat} {data data' : List Fnode} (start : i ≤ intLimit)
    (done : shiftDown steps i data = .ok data') : i + steps < intLimit := by
  induction steps generalizing i data with
  | zero =>
    rw [shiftDown] at done
    split at done
    · contradiction
    · omega
  | succ steps ih =>
    rw [shiftDown] at done
    split at done
    · contradiction
    · split at done
      · contradiction
      · have later := ih (by omega) done
        omega

/-- `kvfs_unlink` removes the first record with the name and saves, or there is none and it
returns an error. -/
theorem kvfsUnlink_cases (short : Short pathname)
    (done : kvfsUnlink volume pathname = .ok (result, after)) :
    (result = eacces ∧ after = volume ∧ ∀ fnode ∈ volume.table.entries, ¬ Named pathname fnode) ∨
      ∃ left fnode right, FirstNamed pathname volume.table.entries left fnode right ∧
        volume.table.entries.length < intLimit ∧ result = 0 ∧
        after.table.entries = left ++ right ∧ after.superblock = some (image after.table) := by
  unfold kvfsUnlink at done
  rcases lookup_cases short volume.table with ⟨left, fnode, right, found, below, searched⟩ |
      ⟨absent, _, searched⟩ | searched
  · have place := found.place
    have length : volume.table.entries.length = left.length + 1 + right.length := by
      rw [place, List.length_append, List.length_cons]
      omega
    have steps : volume.table.entries.length - (left.length + 1) = right.length := by omega
    simp only [searched, steps] at done
    cases moved : shiftDown right.length (left.length + 1) volume.table.entries with
    | error halt =>
      rw [moved] at done
      contradiction
    | ok data =>
      have fits := shiftDown_bound (by omega) moved
      obtain ⟨stale, same⟩ := @shiftDown_eq left right fnode fits
      rw [← place, moved] at same
      cases same
      rw [moved] at done
      obtain ⟨rfl, tableIs, fileIs⟩ := saved_cases done
      refine .inr ⟨left, fnode, right, found, by omega, rfl, ?_, by rw [fileIs, tableIs]⟩
      rw [tableIs]
      have kept : volume.table.entries.length - 1 = (left ++ right).length := by
        rw [List.length_append]
        omega
      simp only [Table.shrink]
      rw [kept, List.take_left]
  · rw [searched] at done
    cases done
    exact .inl ⟨rfl, rfl, absent⟩
  · rw [searched] at done
    contradiction

/-- `kvfs_rename` replaces the name of the first record with the name and saves, or there is none
and it returns an error. -/
theorem kvfsRename_cases (short : Short name)
    (done : kvfsRename volume name newname = .ok (result, after)) :
    (result = eacces ∧ after = volume ∧ ∀ fnode ∈ volume.table.entries, ¬ Named name fnode) ∨
      ∃ left fnode right, FirstNamed name volume.table.entries left fnode right ∧
        left.length < intLimit ∧ result = 0 ∧
        after.table.entries = left ++ withName newname fnode :: right ∧
        after.superblock = some (image after.table) := by
  unfold kvfsRename at done
  rcases lookup_cases short volume.table with ⟨left, fnode, right, found, below, searched⟩ |
      ⟨absent, _, searched⟩ | searched
  · simp only [searched] at done
    split at done
    · contradiction
    · obtain ⟨rfl, tableIs, fileIs⟩ := saved_cases done
      refine .inr ⟨left, fnode, right, found, below, rfl, ?_, by rw [fileIs, tableIs]⟩
      rw [tableIs]
      simp only [Table.modify]
      rw [found.place, modify_split]
  · rw [searched] at done
    cases done
    exact .inl ⟨rfl, rfl, absent⟩
  · rw [searched] at done
    contradiction

/-- The calls that change neither the table nor the file. -/
inductive ReadOnly : Call → Prop
  /-- `kvfs_getattr`. -/
  | getattr (lstat : Int × Option Stat) (path : CString) : ReadOnly (.getattr lstat path)
  /-- `kvfs_truncate`. -/
  | truncate (path : CString) (size : Int64) : ReadOnly (.truncate path size)
  /-- `kvfs_open`. -/
  | open (pathname : CString) : ReadOnly (.open pathname)
  /-- `kvfs_read`. -/
  | read (pathname : CString) (size : UInt64) (off : Int64) : ReadOnly (.read pathname size off)

/-- A call that changes nothing leaves the volume as it was. -/
theorem ReadOnly.unchanged {call : Call} (readOnly : ReadOnly call)
    (done : volume.perform call = .ok (result, after)) : after = volume := by
  have kept : ∀ {α : Type} (x : Except Halt α) (f : α → Int),
      x.map (fun got => (f got, volume)) = .ok (result, after) → after = volume := by
    intro α x f returned
    cases x with
    | error halt => contradiction
    | ok got => exact (congrArg Prod.snd (Except.ok.inj returned)).symm
  cases readOnly with
  | getattr lstat path => exact kept _ Prod.fst done
  | truncate path size => exact (congrArg Prod.snd (Except.ok.inj done)).symm
  | «open» pathname => exact kept _ id done
  | read pathname size off => exact kept _ Prod.fst done

/-- `kvfs_init` leaves the superblock file there and the table it loads. -/
theorem init_cases (done : volume.perform .init = .ok (result, after)) :
    result = 0 ∧ ((volume.superblock = none ∧ after.table = .empty ∧
        after.superblock = some createdSuperblock) ∨
      ∃ file, volume.superblock = some file ∧ after.superblock = some file ∧
        readSuperblock (some file) = .ok after.table) := by
  unfold Volume.perform kvfsInit at done
  cases there : volume.superblock with
  | none =>
    rw [there] at done
    cases done
    exact ⟨rfl, .inl ⟨rfl, rfl, rfl⟩⟩
  | some file =>
    simp only [there] at done
    cases read : readSuperblock (some file) with
    | error halt =>
      rw [read] at done
      contradiction
    | ok table =>
      rw [read] at done
      cases done
      exact ⟨rfl, .inr ⟨file, rfl, rfl, read⟩⟩

end OsAssignments.Kvfs
