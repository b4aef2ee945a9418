import OsAssignments.Kvfs.Frames
import Mathlib.Data.List.Nodup

/-!
# Unique names

The table as a map from names to files. Every operation keeps names unique but `kvfs_rename`,
which does not look whether the new name is taken: renaming a file to the name of another leaves
two records with that name, of which `lookup` finds the first. In a run without such a call
removing and renaming act as they do on a map.
-/

namespace OsAssignments.Kvfs

open ByteRecord Transition

/-- No two records have the same name. -/
def UniqueNames (table : Table) : Prop := (table.entries.map nameOf).Nodup

instance (table : Table) : Decidable (UniqueNames table) :=
  inferInstanceAs (Decidable (List.Nodup _))

/-- Names are unique, and each is a short path. -/
structure Proper (table : Table) : Prop where
  /-- Every record has a short path as its name. -/
  named : ∀ fnode ∈ table.entries, ∃ filename, Short filename ∧ Named filename fnode
  /-- No two have the same. -/
  unique : UniqueNames table

/-- A file is made only under a name not present. -/
def Absent (table : Table) (filename : CString) : Prop :=
  ∀ fnode ∈ table.entries, ¬ Named filename fnode

instance (table : Table) (filename : CString) : Decidable (Absent table filename) :=
  inferInstanceAs (Decidable (∀ fnode ∈ _, _))

/-- What callers keep to: paths that fit the name field, new files under new names, and offsets
that are not negative. -/
def Admissible (volume : Volume) : Call → Prop
  | .mknod _ pathname _ _ => Short pathname ∧ Absent volume.table pathname
  | .utimens pathname _ _ => Short pathname
  | .write filename _ off => Short filename ∧ 0 ≤ off.toInt
  | .unlink pathname => Short pathname
  | .rename name newname => Short name ∧ Short newname
  | _ => True

instance (volume : Volume) : (call : Call) → Decidable (Admissible volume call)
  | .mknod .. => inferInstanceAs (Decidable (_ ∧ Absent _ _))
  | .utimens .. => inferInstanceAs (Decidable (_ < _))
  | .write .. => inferInstanceAs (Decidable (_ ∧ _))
  | .unlink _ => inferInstanceAs (Decidable (_ < _))
  | .rename .. => inferInstanceAs (Decidable (_ ∧ _))
  | .init | .getattr .. | .truncate .. | .open _ | .flush | .read .. => instDecidableTrue

/-- An admissible call that returns. -/
def NamedStep (volume : Volume) (label : Call × Int) (after : Volume) : Prop :=
  Admissible volume label.1 ∧ Step volume label after

/-- A mount without files. -/
structure EmptyMount (volume : Volume) : Prop where
  /-- The volume is as `kvfs_init` leaves it. -/
  mounted : Mounted volume
  /-- The table is empty. -/
  none : volume.table = .empty

/-- A file is renamed only to its own name or to one that is free. -/
def RenamesApart (before : Volume) : Call × Int → Volume → Prop
  | (.rename name newname, _), _ => ¬ Absent before.table name →
      newname = name ∨ Absent before.table newname
  | _, _ => True

/-- `lookup` finds no file under a path. -/
structure FindsNothing (table : Table) (filename : CString) : Prop where
  /-- It returns no index. -/
  noIndex : ∀ index, lookup table filename ≠ .ok (some index)
  /-- It returns −1 when the counter goes through the whole table. -/
  notFound : table.entries.length < intLimit → lookup table filename = .ok none

/-- The file under one path before is the file under another after. -/
def Moved (before after : Table) (name newname : CString) : Prop :=
  ∃ fnode fnode', Denotes before name fnode ∧ Denotes after newname fnode' ∧
    statOf fnode' = statOf fnode ∧ contentOf fnode' = contentOf fnode ∧
    magicOf fnode' = magicOf fnode

/-- Removing and renaming that return 0 act as on a map from names to files. -/
def ActsAsMap (before : Volume) : Call × Int → Volume → Prop
  | (.unlink pathname, result), after => result = 0 → FindsNothing after.table pathname
  | (.rename name newname, result), after => result = 0 → name ≠ newname →
      Moved before.table after.table name newname ∧ FindsNothing after.table name
  | _, _ => True

variable {filename pathname name newname : CString} {entries left right : List Fnode}
  {fnode changed : Fnode} {table before after : Table} {volume target : Volume}

/-! ## Tables with unique names -/

/-- In a proper table the first record with a name is the only one. -/
theorem Proper.only (proper : Proper table)
    (first : FirstNamed filename table.entries left fnode right) :
    ∀ other ∈ left ++ right, ¬ Named filename other := by
  have unique := proper.unique
  rw [UniqueNames, first.place, List.map_append, List.map_cons, List.nodup_middle] at unique
  have fresh := (List.nodup_cons.mp unique).1
  intro other member named
  rw [first.named.nameOf, ← named.nameOf, ← List.map_append] at fresh
  exact fresh (List.mem_map_of_mem member)

/-- A record under a name not present keeps a table proper. -/
theorem Proper.append (proper : Proper before) (short : Short pathname)
    (absent : Absent before pathname) (named : Named pathname fnode)
    (appended : after.entries = before.entries ++ [fnode]) : Proper after := by
  refine ⟨?_, ?_⟩
  · intro other member
    rw [appended] at member
    rcases List.mem_append.mp member with old | new
    · exact proper.named other old
    · obtain rfl := List.mem_singleton.mp new
      exact ⟨pathname, short, named⟩
  · have fresh : ∀ other ∈ before.entries, nameOf other ≠ nameOf fnode := by
      intro other member same
      obtain ⟨filename, _, named'⟩ := proper.named other member
      rw [named'.nameOf, named.nameOf] at same
      have equal : filename = pathname := by
        obtain ⟨bytes, _⟩ := filename
        obtain ⟨bytes', _⟩ := pathname
        subst same
        rfl
      exact absent other member (equal ▸ named')
    rw [UniqueNames, appended, List.map_append, List.map_singleton, List.nodup_append]
    refine ⟨proper.unique, List.nodup_singleton _, ?_⟩
    intro bytes member bytes' member' same
    obtain ⟨other, inside, rfl⟩ := List.mem_map.mp member
    obtain rfl := List.mem_singleton.mp member'
    exact fresh other inside same

/-- Without one of its records a table stays proper. -/
theorem Proper.remove (proper : Proper before) (place : before.entries = left ++ fnode :: right)
    (removed : after.entries = left ++ right) : Proper after := by
  have part : List.Sublist after.entries before.entries := by
    rw [place, removed]
    exact List.Sublist.append_left (List.sublist_cons_self fnode right) left
  exact ⟨fun other member => proper.named other (part.subset member),
    proper.unique.sublist (part.map nameOf)⟩

/-- A changed record under a name that no other record has keeps a table proper. -/
theorem Proper.change (proper : Proper before) (place : before.entries = left ++ fnode :: right)
    (changedIs : after.entries = left ++ changed :: right) (short : Short filename)
    (named : Named filename changed) (others : ∀ other ∈ left ++ right, ¬ Named filename other) :
    Proper after := by
  have removed : ∃ rest : Table, rest.entries = left ++ right := by
    have counted := before.counted
    rw [place, List.length_append, List.length_cons] at counted
    exact ⟨⟨left ++ right, by rw [List.length_append]; omega⟩, rfl⟩
  obtain ⟨rest, restIs⟩ := removed
  have restProper := proper.remove place restIs
  have counted := after.counted
  rw [changedIs, List.length_append, List.length_cons] at counted
  have appended : Proper ⟨rest.entries ++ [changed], by
      rw [restIs, List.length_append, List.length_append, List.length_singleton]; omega⟩ :=
    restProper.append short (by rw [Absent, restIs]; exact others) named rfl
  have order : List.Perm after.entries (rest.entries ++ [changed]) := by
    rw [changedIs, restIs]
    exact List.perm_middle.trans (List.perm_append_singleton changed (left ++ right)).symm
  exact ⟨fun other member => appended.named other (order.mem_iff.mp member),
    (order.map nameOf).nodup_iff.mpr appended.unique⟩

/-- A record changed under its own name keeps a table proper. -/
theorem Proper.replace (proper : Proper before) (short : Short filename)
    (first : FirstNamed filename before.entries left fnode right)
    (changedIs : after.entries = left ++ changed :: right) (named : Named filename changed) :
    Proper after :=
  proper.change first.place changedIs short named (proper.only first)

/-- A second record under a taken name makes names ambiguous. -/
theorem not_unique (taken : ∃ other ∈ left ++ right, Named filename other)
    (named : Named filename changed) (changedIs : after.entries = left ++ changed :: right) :
    ¬ UniqueNames after := by
  obtain ⟨other, member, named'⟩ := taken
  intro unique
  rw [UniqueNames, changedIs, List.map_append, List.map_cons, List.nodup_middle,
    ← List.map_append] at unique
  have fresh := (List.nodup_cons.mp unique).1
  rw [named.nameOf, ← named'.nameOf] at fresh
  exact fresh (List.mem_map_of_mem member)

/-- The empty table is proper. -/
theorem proper_empty : Proper .empty :=
  ⟨fun _ member => absurd member List.not_mem_nil, List.nodup_nil⟩

/-- The name of a record is not absent. -/
theorem FirstNamed.present (first : FirstNamed filename table.entries left fnode right) :
    ¬ Absent table filename := fun absent => absent fnode first.mem first.named

/-- Under a name that no record has `lookup` finds nothing. -/
theorem Absent.findsNothing (absent : Absent table filename) (short : Short filename) :
    FindsNothing table filename := by
  refine ⟨fun index searched => ?_, fun below => (lookup_eq_none short).mpr ⟨below, absent⟩⟩
  obtain ⟨_, _, fnode, _, first, _⟩ := (lookup_eq_some short).mp searched
  exact first.present absent

/-! ## Runs -/

/-- The table is proper, and so is the table that a mount would load. -/
structure Sound (volume : Volume) : Prop where
  /-- The table in memory is proper. -/
  table : Proper volume.table
  /-- The table in the file is proper. -/
  loads : ∀ loaded superblock, kvfsInit volume.superblock = .ok (loaded, superblock) → Proper loaded

/-- A volume is sound when its table is proper and that lasts. -/
theorem sound_iff_lasts : Sound volume ↔ Lasts Proper volume :=
  ⟨fun sound => ⟨sound.table, sound.loads⟩, fun lasts => ⟨lasts.table, lasts.loads⟩⟩

/-- An empty mount is sound. -/
theorem EmptyMount.sound (mount : EmptyMount volume) : Sound volume :=
  sound_iff_lasts.mpr (mount.mounted.lasts (mount.none ▸ proper_empty))

/-- A call that leaves the file alone and the table proper keeps a volume sound. -/
theorem Sound.unsaved (sound : Sound volume) (same : target.superblock = volume.superblock)
    (proper : Proper target.table) : Sound target :=
  sound_iff_lasts.mpr ((sound_iff_lasts.mp sound).unsaved same proper)

/-- A call that saves a proper table leaves a sound volume. -/
theorem Sound.of_saved (saved : target.superblock = some (image target.table))
    (proper : Proper target.table) : Sound target :=
  sound_iff_lasts.mpr (.of_saved proper_empty saved proper)

/-- A mount of a sound volume is sound. -/
theorem Sound.init {result : Int} (sound : Sound volume)
    (done : volume.perform .init = .ok (result, target)) : Sound target :=
  sound_iff_lasts.mpr ((sound_iff_lasts.mp sound).init proper_empty done)

/-- Every admissible call keeps a volume sound, unless it renames a file to the name of another. -/
theorem Sound.step {label : Call × Int} (sound : Sound volume)
    (taken : NamedStep volume label target) (apart : RenamesApart volume label target) :
    Sound target := by
  obtain ⟨call, result⟩ := label
  obtain ⟨admissible, done⟩ := taken
  have proper := sound.table
  have readOnly : ReadOnly call → Sound target := by
    intro readOnly
    rw [readOnly.unchanged done]
    exact sound
  cases call with
  | init => exact sound.init done
  | getattr lstat path => exact readOnly (.getattr lstat path)
  | truncate path size => exact readOnly (.truncate path size)
  | «open» pathname => exact readOnly (.open pathname)
  | read pathname size off => exact readOnly (.read pathname size off)
  | flush =>
    obtain ⟨_, tableIs, fileIs⟩ := saved_cases done
    exact .of_saved (tableIs ▸ fileIs) (tableIs ▸ proper)
  | mknod around pathname mode dev =>
    obtain ⟨_, fileIs, appended⟩ := kvfsMknod_cases done
    exact sound.unsaved fileIs (proper.append admissible.1 admissible.2
      (named_mknodFnode admissible.1) appended)
  | utimens pathname atime mtime =>
    obtain same | ⟨left, fnode, right, first, fileIs, changed⟩ := kvfsUtimens_cases admissible done
    · exact same ▸ sound
    · exact sound.unsaved fileIs (proper.replace admissible first changed
        ((named_withTimes admissible).mpr first.named))
  | write filename data off =>
    obtain ⟨short, nonneg⟩ := admissible
    obtain same | ⟨left, fnode, right, first, _, fileIs, changed⟩ :=
      kvfsWrite_cases short nonneg done
    · exact same ▸ sound
    · exact sound.unsaved fileIs (proper.replace short first changed
        ((named_withContent short).mpr first.named))
  | unlink pathname =>
    obtain ⟨_, same, _⟩ | ⟨left, fnode, right, first, _, _, removed, fileIs⟩ :=
      kvfsUnlink_cases admissible done
    · exact same ▸ sound
    · exact .of_saved fileIs (proper.remove first.place removed)
  | rename name newname =>
    obtain ⟨_, same, _⟩ | ⟨left, fnode, right, first, _, _, changed, fileIs⟩ :=
      kvfsRename_cases admissible.1 done
    · exact same ▸ sound
    · apply Sound.of_saved fileIs
      rcases apart first.present with rfl | free
      · exact proper.replace admissible.2 first changed (named_withName admissible.2)
      · exact proper.change first.place changed admissible.2 (named_withName admissible.2)
          fun other member => free other (first.mem_others member)

/-- A file renamed to the name of another leaves two files of that name. -/
theorem Sound.ambiguous {label : Call × Int} (taken : NamedStep volume label target)
    (fails : ¬ RenamesApart volume label target) : ¬ UniqueNames target.table := by
  obtain ⟨call, result⟩ := label
  obtain ⟨admissible, done⟩ := taken
  cases call with
  | rename name newname =>
    rw [RenamesApart] at fails
    push Not at fails
    obtain ⟨present, distinct, takenName⟩ := fails
    obtain ⟨_, _, absent⟩ | ⟨left, fnode, right, first, _, _, changed, _⟩ :=
      kvfsRename_cases admissible.1 done
    · exact absurd absent present
    · refine not_unique ?_ (named_withName admissible.2) changed
      rw [Absent] at takenName
      push Not at takenName
      obtain ⟨other, member, named⟩ := takenName
      refine ⟨other, ?_, named⟩
      rw [first.place] at member
      rcases List.mem_append.mp member with inLeft | inRight
      · exact List.mem_append_left _ inLeft
      · rcases List.mem_cons.mp inRight with rfl | inRight
        · exact absurd (named.unique first.named) distinct
        · exact List.mem_append_right _ inRight
  | _ => exact absurd trivial fails

/-- Renaming a record changes nothing behind its name field. -/
theorem slice_withName {offset count : Nat} (short : Short newname) (behind : nameSize ≤ offset)
    (fits : offset + count ≤ fnodeSize) :
    (withName newname fnode).slice offset count = fnode.slice offset count := by
  have cleared : (List.replicate nameSize (0 : UInt8)).length = nameSize := List.length_replicate
  have copied : newname.stored.length ≤ nameSize := by
    rw [CString.length_stored]
    exact short
  rw [withName, slice_overwrite_apart fits (.inr (by omega)),
    slice_overwrite_apart fits (.inr (by omega))]

/-- Renaming a record keeps its stat bytes. -/
theorem statOf_withName (short : Short newname) : statOf (withName newname fnode) = statOf fnode := by
  have bytes := @slice_withName newname fnode nameSize metadataSize short (Nat.le_refl _) (by decide)
  simp only [statOf, bytes]

/-- Renaming a file to a free name moves it there, and leaves nothing behind. -/
theorem Proper.moves (proper : Proper before) (short : Short name) (short' : Short newname)
    (first : FirstNamed name before.entries left fnode right) (below : left.length < intLimit)
    (distinct : name ≠ newname) (free : Absent before newname)
    (changedIs : after.entries = left ++ withName newname fnode :: right) :
    Moved before after name newname ∧ FindsNothing after name := by
  have renamed : FirstNamed newname after.entries left (withName newname fnode) right :=
    ⟨changedIs, named_withName short', fun other member =>
      free other (first.mem_others (List.mem_append_left right member))⟩
  have absent : Absent after name := by
    intro other member named
    rw [changedIs] at member
    rcases List.mem_append.mp member with inLeft | inRight
    · exact first.before other inLeft named
    · rcases List.mem_cons.mp inRight with rfl | inRight
      · exact distinct (named.unique (named_withName short'))
      · exact proper.only first other (List.mem_append_right left inRight) named
  have there : Denotes before name fnode := (denotes_iff short).mpr ⟨left, right, first, below⟩
  have there' : Denotes after newname (withName newname fnode) :=
    (denotes_iff short').mpr ⟨left, right, renamed, below⟩
  have content : contentOf (withName newname fnode) = contentOf fnode :=
    slice_withName short' (by decide) (by decide)
  have magic : magicOf (withName newname fnode) = magicOf fnode :=
    slice_withName short' (by decide) (by decide)
  exact ⟨⟨fnode, _, there, there', statOf_withName short', content, magic⟩,
    absent.findsNothing short⟩

/-- Every admissible call acts as on a map, unless it renames a file to the name of another. -/
theorem Sound.actsAsMap {label : Call × Int} (sound : Sound volume)
    (taken : NamedStep volume label target) (apart : RenamesApart volume label target) :
    ActsAsMap volume label target := by
  obtain ⟨call, result⟩ := label
  obtain ⟨admissible, done⟩ := taken
  cases call with
  | unlink pathname =>
    rintro rfl
    obtain ⟨contrary, _, _⟩ | ⟨left, fnode, right, first, _, _, removed, _⟩ :=
      kvfsUnlink_cases admissible done
    · exact absurd (show (0 : Int) = eacces from contrary) (by decide)
    · have absent : Absent target.table pathname := by
        rw [Absent, removed]
        exact sound.table.only first
      exact absent.findsNothing admissible
  | rename name newname =>
    rintro rfl distinct
    obtain ⟨contrary, _, _⟩ | ⟨left, fnode, right, first, below, _, changed, _⟩ :=
      kvfsRename_cases admissible.1 done
    · exact absurd (show (0 : Int) = eacces from contrary) (by decide)
    · have free : Absent volume.table newname :=
        (apart first.present).resolve_left (Ne.symm distinct)
      exact sound.table.moves admissible.1 admissible.2 first below distinct free changed
  | _ => trivial

/-- From an empty mount, names stay unique and removing and renaming act as on a map exactly when
no call renames a file to the name of another. -/
theorem uniqueNames_iff_renamesApart {start : Volume} {run : List ((Call × Int) × Volume)}
    (mount : EmptyMount start) (steps : IsRun NamedStep start run) :
    (Always (fun volume => UniqueNames volume.table) start run ∧ Each ActsAsMap start run) ↔
      Each RenamesApart start run := by
  have kept : ∀ source label target, Sound source → NamedStep source label target →
      RenamesApart source label target → Sound target :=
    fun _ _ _ sound taken apart => sound.step taken apart
  have unique : Always (fun volume => UniqueNames volume.table) start run ↔
      Each RenamesApart start run :=
    steps.always_iff_each mount.sound (fun _ sound => sound.table.unique) kept
      (fun _ _ _ _ taken fails => Sound.ambiguous taken fails)
  constructor
  · intro map
    exact unique.mp map.1
  · intro apart
    exact ⟨unique.mpr apart, steps.each_of_each mount.sound kept
      (fun _ _ _ sound taken apart => sound.actsAsMap taken apart) apart⟩

/-! ## Two runs -/

/-- A mount of the file that the empty table leaves is empty. -/
theorem emptyVolume_mount : EmptyMount emptyVolume := ⟨mounted_image (by decide), rfl⟩

/-- Perform an admissible call. -/
def allow (volume : Volume) (label : Call × Int) : Option Volume :=
  if Admissible volume label.1 then volume.attempt label else none

/-- An admissible call performed takes a step. -/
theorem allow_step (source : Volume) (label : Call × Int) (target : Volume)
    (performed : allow source label = some target) : NamedStep source label target := by
  rw [allow] at performed
  split at performed
  · rename_i admissible
    exact ⟨admissible, attempt_step performed⟩
  · contradiction

/-- Make the files "/a" and "/b" and rename the first to the second. -/
def collidingRun : List ((Call × Int) × Volume) :=
  trace allow emptyVolume [(.mknod someSurroundings pathA 33188 0, 0),
    (.mknod someSurroundings pathB 33188 0, 0), (.rename pathA pathB, 0)]

/-- The run ends with two records of one name, which `lookup` still finds once it is removed. -/
theorem collidingRun_ambiguous : EmptyMount emptyVolume ∧ IsRun NamedStep emptyVolume collidingRun ∧
    ¬ UniqueNames (final emptyVolume collidingRun).table ∧
    ∃ after, NamedStep (final emptyVolume collidingRun) (.unlink pathB, 0) after ∧
      lookup after.table pathB = .ok (some 0) := by
  have removed : (allow (final emptyVolume collidingRun) (.unlink pathB, 0)).map
      (fun after => lookup after.table pathB) = some (.ok (some 0)) := by decide +kernel
  obtain ⟨after, performed, searched⟩ := Option.map_eq_some_iff.mp removed
  exact ⟨emptyVolume_mount, isRun_trace allow_step _ _, by decide +kernel, after,
    allow_step _ _ _ performed, searched⟩

instance (before after : Volume) : (label : Call × Int) → Decidable (RenamesApart before label after)
  | (.rename name newname, _) =>
    inferInstanceAs (Decidable (¬ Absent _ name → newname = name ∨ Absent _ newname))
  | (.init, _) | (.getattr .., _) | (.truncate .., _) | (.open _, _) | (.flush, _) | (.mknod .., _)
  | (.utimens .., _) | (.write .., _) | (.read .., _) | (.unlink _, _) => instDecidableTrue

/-- Make "/a", rename it to "/b", make another "/a", remove "/b" and rename again. -/
def apartRun : List ((Call × Int) × Volume) :=
  trace allow emptyVolume [(.mknod someSurroundings pathA 33188 0, 0), (.rename pathA pathB, 0),
    (.mknod someSurroundings pathA 33188 0, 0), (.unlink pathB, 0), (.rename pathA pathB, 0)]

/-- In that run names are unique and the table acts as a map. -/
theorem uniqueNames_apartRun :
    (Always (fun volume => UniqueNames volume.table) emptyVolume apartRun ∧
      Each ActsAsMap emptyVolume apartRun) ∧ apartRun.length = 5 := by
  have apart : Each RenamesApart emptyVolume apartRun := by decide +kernel
  have map := (uniqueNames_iff_renamesApart emptyVolume_mount (isRun_trace allow_step _ _)).mpr apart
  exact ⟨map, by decide +kernel⟩

end OsAssignments.Kvfs
