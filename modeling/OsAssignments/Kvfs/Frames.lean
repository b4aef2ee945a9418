import OsAssignments.Kvfs.Recovery

/-!
# Files an operation does not name

An operation that names paths of a set leaves every file alone that is found under a path outside
the set. The record found there stays the same in every byte, though it may move to another index
when `kvfs_unlink` closes a gap before it.
-/

namespace OsAssignments.Kvfs

open ByteRecord

variable {filename pathname newname : CString} {entries xs ys left mid mid' right l r : List Fnode}
  {fnode : Fnode} {table before after : Table} {index : Nat}

/-! ## What a path denotes -/

/-- A path denotes the record at the index that `lookup` returns. -/
def Denotes (table : Table) (filename : CString) (fnode : Fnode) : Prop :=
  ∃ index, lookup table filename = .ok (some index) ∧ table.entries[index]? = some fnode

/-- A short path denotes the first record with the name, within the reach of the counter. -/
theorem denotes_iff (short : Short filename) :
    Denotes table filename fnode ↔
      ∃ left right, FirstNamed filename table.entries left fnode right ∧ left.length < intLimit := by
  constructor
  · rintro ⟨index, searched, there⟩
    obtain ⟨below, left, found, right, first, rfl⟩ := (lookup_eq_some short).mp searched
    rw [first.place, List.getElem?_append_right (Nat.le_refl _), Nat.sub_self] at there
    obtain rfl : found = fnode := by simpa using there
    exact ⟨left, right, first, below⟩
  · rintro ⟨left, right, first, below⟩
    refine ⟨left.length, (lookup_eq_some short).mpr ⟨below, left, fnode, right, first, rfl⟩, ?_⟩
    rw [first.place]
    simp

/-- `lookup` succeeds exactly when the path denotes a record. -/
theorem lookup_succeeds (short : Short filename) :
    (∃ index, lookup table filename = .ok (some index)) ↔ ∃ fnode, Denotes table filename fnode := by
  constructor
  · rintro ⟨index, searched⟩
    obtain ⟨below, left, fnode, right, first, rfl⟩ := (lookup_eq_some short).mp searched
    exact ⟨fnode, (denotes_iff short).mpr ⟨left, right, first, below⟩⟩
  · rintro ⟨fnode, index, searched, _⟩
    exact ⟨index, searched⟩

/-- The first record with a name in two lists laid one after the other. -/
theorem firstNamed_append :
    FirstNamed filename (xs ++ ys) l fnode r ↔
      (∃ r', FirstNamed filename xs l fnode r' ∧ r = r' ++ ys) ∨
        ((∀ other ∈ xs, ¬ Named filename other) ∧
          ∃ l', l = xs ++ l' ∧ FirstNamed filename ys l' fnode r) := by
  constructor
  · intro first
    rcases firstNamed_or_absent filename xs with ⟨l₁, fnode₁, r₁, inLeft⟩ | absent
    · have whole : FirstNamed filename (xs ++ ys) l₁ fnode₁ (r₁ ++ ys) :=
        ⟨by rw [inLeft.place]; simp, inLeft.named, inLeft.before⟩
      obtain ⟨rfl, rfl, rfl⟩ := first.unique whole
      exact .inl ⟨r₁, inLeft, rfl⟩
    · rcases firstNamed_or_absent filename ys with ⟨l₁, fnode₁, r₁, inRight⟩ | absent'
      · have before : ∀ other ∈ xs ++ l₁, ¬ Named filename other := by
          intro other member
          rcases List.mem_append.mp member with member | member
          · exact absent other member
          · exact inRight.before other member
        have whole : FirstNamed filename (xs ++ ys) (xs ++ l₁) fnode₁ r₁ :=
          ⟨by rw [inRight.place]; simp, inRight.named, before⟩
        obtain ⟨rfl, rfl, rfl⟩ := first.unique whole
        exact .inr ⟨absent, l₁, rfl, inRight⟩
      · have member : fnode ∈ xs ++ ys := first.mem
        rcases List.mem_append.mp member with member | member
        · exact absurd first.named (absent fnode member)
        · exact absurd first.named (absent' fnode member)
  · rintro (⟨r', first, rfl⟩ | ⟨absent, l', rfl, first⟩)
    · exact ⟨by rw [first.place]; simp, first.named, first.before⟩
    · refine ⟨by rw [first.place]; simp, first.named, fun other member => ?_⟩
      rcases List.mem_append.mp member with member | member
      · exact absent other member
      · exact first.before other member

/-! ## Replacing records -/

/-- A path goes on denoting its record when records without the name are exchanged for others
without it, as long as the counter still reaches what lies behind them. -/
theorem Denotes.replace (short : Short filename) (place : before.entries = left ++ mid ++ right)
    (place' : after.entries = left ++ mid' ++ right)
    (apart : ∀ other ∈ mid, ¬ Named filename other)
    (apart' : ∀ other ∈ mid', ¬ Named filename other)
    (reach : mid'.length ≤ mid.length ∨ after.entries.length < intLimit ∨ right = [])
    (denotes : Denotes before filename fnode) : Denotes after filename fnode := by
  rw [denotes_iff short] at denotes ⊢
  obtain ⟨l, r, first, below⟩ := denotes
  rw [place, List.append_assoc, firstNamed_append] at first
  rw [place', List.append_assoc]
  rcases first with ⟨r', first, _⟩ | ⟨absent, l', rfl, first⟩
  · -- The record lies before the exchange and keeps its index.
    exact ⟨l, _, firstNamed_append.mpr (.inl ⟨r', first, rfl⟩), below⟩
  · rcases firstNamed_append.mp first with ⟨r', inMid, _⟩ | ⟨_, l'', rfl, behind⟩
    · have member : fnode ∈ mid := inMid.mem
      exact absurd inMid.named (apart fnode member)
    · -- The record lies behind the exchange and moves by the difference in length.
      have found := firstNamed_append.mpr (.inr ⟨absent, mid' ++ l'', rfl,
        firstNamed_append.mpr (.inr ⟨apart', l'', rfl, behind⟩)⟩)
      refine ⟨_, r, found, ?_⟩
      have total := congrArg List.length behind.place
      have after' := congrArg List.length place'
      simp only [List.length_append, List.length_cons] at below total after' ⊢
      rcases reach with shorter | bounded | none
      · omega
      · omega
      · rw [none, List.length_nil] at total
        omega

/-- What a path denotes is found before an operation exactly when it is after it, with the same
stat bytes, content bytes and magic number. -/
structure Untouched (before after : Table) (filename : CString) : Prop where
  /-- `lookup` succeeds before exactly when it does after. -/
  found : (∃ index, lookup before filename = .ok (some index)) ↔
    ∃ index, lookup after filename = .ok (some index)
  /-- The record found holds the same file. -/
  same : ∀ fnode fnode', Denotes before filename fnode → Denotes after filename fnode' →
    statOf fnode' = statOf fnode ∧ contentOf fnode' = contentOf fnode ∧
      magicOf fnode' = magicOf fnode

/-- A path denotes one record at most. -/
theorem Denotes.unique {fnode' : Fnode} (denotes : Denotes table filename fnode)
    (denotes' : Denotes table filename fnode') : fnode = fnode' := by
  obtain ⟨index, searched, there⟩ := denotes
  obtain ⟨index', searched', there'⟩ := denotes'
  obtain rfl : index = index' := by simpa [searched] using searched'
  exact Option.some.inj (there.symm.trans there')

/-- A path that denotes the same record before and after is untouched. -/
theorem Untouched.of_denotes (short : Short filename)
    (same : ∀ fnode, Denotes before filename fnode ↔ Denotes after filename fnode) :
    Untouched before after filename := by
  refine ⟨?_, fun fnode fnode' denotes denotes' => ?_⟩
  · rw [lookup_succeeds short, lookup_succeeds short]
    exact exists_congr same
  · obtain rfl := ((same fnode).mp denotes).unique denotes'
    exact ⟨rfl, rfl, rfl⟩

/-- Exchanging one record without the name for another leaves the path untouched. -/
theorem Untouched.replace {changed : Fnode} (short : Short filename)
    (place : before.entries = left ++ fnode :: right)
    (place' : after.entries = left ++ changed :: right) (apart : ¬ Named filename fnode)
    (apart' : ¬ Named filename changed) : Untouched before after filename := by
  have split : left ++ fnode :: right = left ++ [fnode] ++ right := by simp
  have split' : left ++ changed :: right = left ++ [changed] ++ right := by simp
  rw [split] at place
  rw [split'] at place'
  have out : ∀ other ∈ [fnode], ¬ Named filename other := by simpa using apart
  have out' : ∀ other ∈ [changed], ¬ Named filename other := by simpa using apart'
  exact .of_denotes short fun _ =>
    ⟨.replace short place place' out out' (.inl (Nat.le_refl _)),
      .replace short place' place out' out (.inl (Nat.le_refl _))⟩

/-! ## The names of changed records -/

/-- Copying a `struct stat` into a record changes no short name. -/
theorem named_withStat {st : Stat} (short : Short filename) :
    Named filename (withStat fnode st) ↔ Named filename fnode :=
  named_overwrite short (Nat.le_refl _)

/-- Setting the times of a record changes no short name. -/
theorem named_withTimes {atime mtime : UInt64} (short : Short filename) :
    Named filename (withTimes atime mtime fnode) ↔ Named filename fnode := named_withStat short

/-- Writing the content of a record changes no short name. -/
theorem named_withContent {data : List UInt8} {off : Nat} (short : Short filename) :
    Named filename (withContent data off fnode) ↔ Named filename fnode := by
  rw [withContent, named_withStat short]
  exact named_overwrite short (by omega)

/-- The record that `kvfs_mknod` adds has the short path it was given as its name. -/
theorem named_mknodFnode {around : Surroundings} {mode : UInt32} {dev : UInt64}
    (short : Short pathname) : Named pathname (mknodFnode around pathname mode dev) := by
  rw [mknodFnode, named_overwrite short (by omega), named_withStat short]
  exact named_overwrite_stored short

/-- A renamed record has the short new name. -/
theorem named_withName (short : Short newname) : Named newname (withName newname fnode) :=
  named_overwrite_stored short

/-! ## The frame of an operation -/

/-- A call of an operation that changes files, naming paths of a set only. No offset is negative:
the system call behind `kvfs_write` refuses those. -/
inductive Within (paths : Set CString) : Call → Prop
  /-- `kvfs_mknod` of a path of the set. -/
  | mknod {around : Surroundings} {pathname : CString} {mode : UInt32} {dev : UInt64}
      (inside : pathname ∈ paths) : Within paths (.mknod around pathname mode dev)
  /-- `kvfs_write` to a path of the set. -/
  | write {filename : CString} {data : List UInt8} {off : Int64} (inside : filename ∈ paths)
      (proper : 0 ≤ off.toInt) : Within paths (.write filename data off)
  /-- `kvfs_utimens` of a path of the set. -/
  | utimens {pathname : CString} {atime mtime : UInt64} (inside : pathname ∈ paths) :
      Within paths (.utimens pathname atime mtime)
  /-- `kvfs_unlink` of a path of the set. -/
  | unlink {pathname : CString} (inside : pathname ∈ paths) : Within paths (.unlink pathname)
  /-- `kvfs_rename` from and to paths of the set. -/
  | rename {name newname : CString} (inside : name ∈ paths) (inside' : newname ∈ paths) :
      Within paths (.rename name newname)

/-- Two names that differ are not both those of one record. -/
theorem Named.apart (named : Named pathname fnode) (distinct : filename ≠ pathname) :
    ¬ Named filename fnode := fun named' => distinct (named'.unique named)

/-- A path stays untouched when nothing happens. -/
theorem Untouched.unchanged (table : Table) (short : Short filename) : Untouched table table filename :=
  .of_denotes short fun _ => Iff.rfl

/-- An operation that returns leaves every short path outside the set it names untouched. -/
theorem untouched_outside {paths : Set CString} {call : Call} {result : Int}
    {volume after : Volume} (short : ∀ pathname ∈ paths, Short pathname)
    (within : Within paths call) (done : volume.perform call = .ok (result, after))
    (shortName : Short filename) (outside : filename ∉ paths) :
    Untouched volume.table after.table filename := by
  have distinct : ∀ pathname ∈ paths, filename ≠ pathname := by
    rintro pathname inside rfl
    exact outside inside
  cases within with
  | @mknod around pathname mode dev inside =>
    obtain ⟨_, _, appended⟩ := kvfsMknod_cases done
    have place : volume.table.entries = volume.table.entries ++ [] ++ [] := by simp
    have place' : after.table.entries =
        volume.table.entries ++ [mknodFnode around pathname mode dev] ++ [] := by simpa using appended
    have apart : ∀ other ∈ ([] : List Fnode), ¬ Named filename other := by simp
    have apart' : ∀ other ∈ [mknodFnode around pathname mode dev], ¬ Named filename other := by
      simpa using (named_mknodFnode (short pathname inside)).apart (distinct pathname inside)
    exact .of_denotes shortName fun _ =>
      ⟨.replace shortName place place' apart apart' (.inr (.inr rfl)),
        .replace shortName place' place apart' apart (.inl (Nat.zero_le _))⟩
  | @write pathname data off inside proper =>
    obtain same | ⟨left, fnode, right, found, _, _, changed⟩ :=
      kvfsWrite_cases (short pathname inside) proper done
    · rw [same]
      exact .unchanged _ shortName
    · have apart := found.named.apart (distinct pathname inside)
      exact .replace shortName found.place changed apart
        (mt (named_withContent shortName).mp apart)
  | @utimens pathname atime mtime inside =>
    obtain same | ⟨left, fnode, right, found, _, changed⟩ :=
      kvfsUtimens_cases (short pathname inside) done
    · rw [same]
      exact .unchanged _ shortName
    · have apart := found.named.apart (distinct pathname inside)
      exact .replace shortName found.place changed apart (mt (named_withTimes shortName).mp apart)
  | @unlink pathname inside =>
    obtain ⟨_, same, _⟩ | ⟨left, fnode, right, found, bounded, _, removed, _⟩ :=
      kvfsUnlink_cases (short pathname inside) done
    · rw [same]
      exact .unchanged _ shortName
    · have place : volume.table.entries = left ++ [fnode] ++ right := by simpa using found.place
      have place' : after.table.entries = left ++ [] ++ right := by simpa using removed
      have apart : ∀ other ∈ [fnode], ¬ Named filename other := by
        simpa using found.named.apart (distinct pathname inside)
      have apart' : ∀ other ∈ ([] : List Fnode), ¬ Named filename other := by simp
      exact .of_denotes shortName fun _ =>
        ⟨.replace shortName place place' apart apart' (.inl (Nat.zero_le _)),
          .replace shortName place' place apart' apart (.inr (.inl bounded))⟩
  | @rename name newname inside inside' =>
    obtain ⟨_, same, _⟩ | ⟨left, fnode, right, found, _, _, changed, _⟩ :=
      kvfsRename_cases (short name inside) done
    · rw [same]
      exact .unchanged _ shortName
    · have apart := found.named.apart (distinct name inside)
      have apart' := (@named_withName newname fnode (short newname inside')).apart
        (distinct newname inside')
      exact .replace shortName found.place changed apart apart'

/-- The path "/a". -/
def pathA : CString := ⟨[47, 97], by decide⟩

/-- The path "/b". -/
def pathB : CString := ⟨[47, 98], by decide⟩

/-- A caller and a clock, with the stack cleared. -/
def someSurroundings : Surroundings :=
  ⟨1000, 1000, 7, 8, 9, ByteRecord.zero metadataSize, ByteRecord.zero fnodeSize⟩

/-- A volume with the files "/a" and "/b". -/
def twoFiles : Volume where
  table := ⟨[mknodFnode someSurroundings pathA 33188 0, mknodFnode someSurroundings pathB 33188 0],
    by decide⟩
  superblock := some []

/-- Removing the first of two files leaves the second untouched at its new index. -/
theorem untouched_twoFiles : ∃ after, twoFiles.perform (.unlink pathA) = .ok (0, after) ∧
    lookup twoFiles.table pathB = .ok (some 1) ∧ lookup after.table pathB = .ok (some 0) ∧
      Untouched twoFiles.table after.table pathB := by
  have removed : (twoFiles.perform (.unlink pathA)).toOption.map
      (fun done => (done.1, lookup done.2.table pathB)) = some (0, .ok (some 0)) := by decide +kernel
  cases done : twoFiles.perform (.unlink pathA) with
  | error halt =>
    rw [done] at removed
    contradiction
  | ok returned =>
    obtain ⟨result, after⟩ := returned
    rw [done] at removed
    obtain ⟨rfl, searched⟩ := Prod.mk.inj (Option.some.inj removed)
    refine ⟨after, rfl, by decide +kernel, searched, ?_⟩
    have short : ∀ pathname ∈ ({pathA} : Set CString), Short pathname := by
      rintro pathname rfl
      decide
    exact untouched_outside short (.unlink rfl) done (by decide) (by decide)

end OsAssignments.Kvfs
