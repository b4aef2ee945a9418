import OsAssignments.Kvfs.Frames

/-!
# What survives an unmount

A volume can be unmounted whenever every file written has been flushed. What `kvfs_init` loads
then is the table in memory unless something changed it after the last save: `kvfs_unlink` and
`kvfs_rename` save the table themselves, but `kvfs_mknod` and `kvfs_utimens` do not, and no flush
comes after them. The handles that are written through and not yet flushed are followed beside the
volume, for the operations themselves take no notice of them.
-/

namespace OsAssignments.Kvfs

open ByteRecord Transition

/-- A call that returns, with the open handle that a write or a flush comes through. -/
structure Event where
  /-- The call. -/
  call : Call
  /-- Its result. -/
  result : Int
  /-- The handle. -/
  handle : Nat

/-- A volume with the handles written through since their last flush. -/
structure History where
  /-- The volume. -/
  volume : Volume
  /-- The handles. -/
  waiting : List Nat

/-- The handles that wait for a flush after a call. -/
def waitingAfter (waiting : List Nat) (event : Event) : List Nat :=
  match event.call with
  | .write .. => event.handle :: waiting
  | .flush => waiting.filter (· ≠ event.handle)
  | .init => []
  | _ => waiting

/-- A call in a history. -/
def HistoryStep (history : History) (event : Event) (later : History) : Prop :=
  Step history.volume (event.call, event.result) later.volume ∧
    later.waiting = waitingAfter history.waiting event

/-- An unmount at which no file waits for a flush loses nothing: the next mount loads the table. -/
def Durable (history : History) : Prop :=
  history.waiting = [] →
    kvfsInit history.volume.superblock = .ok (history.volume.table, history.volume.superblock)

/-- The record that a path denotes, when it denotes one. -/
def denoted (table : Table) (filename : CString) : Option Fnode :=
  match lookup table filename with
  | .ok (some index) => table.entries[index]?
  | _ => none

/-- The times that `kvfs_utimens` would set are those a record has. -/
def HasTimes (atime mtime : UInt64) (fnode : Fnode) : Prop :=
  getStat (statOf fnode) .atime = atime.toNat ∧ getStat (statOf fnode) .mtime = mtime.toNat ∧
    getStat (statOf fnode) .ctime = mtime.toNat

instance (atime mtime : UInt64) (fnode : Fnode) : Decidable (HasTimes atime mtime fnode) :=
  inferInstanceAs (Decidable (_ ∧ _))

/-- Files are made, and their times changed, only while a file waits for a flush, and the flush
that is the last to come finds fewer than 2³¹ records. -/
def Sheltered (history : History) (event : Event) (_later : History) : Prop :=
  match event.call with
  | .mknod .. => history.waiting ≠ []
  | .utimens pathname atime mtime => history.waiting ≠ [] ∨
      ∀ fnode ∈ denoted history.volume.table pathname, HasTimes atime mtime fnode
  | .flush => waitingAfter history.waiting event ≠ [] ∨
      history.volume.table.entries.length < intLimit
  | _ => True

instance (history later : History) : (event : Event) → Decidable (Sheltered history event later)
  | ⟨.mknod .., _, _⟩ => inferInstanceAs (Decidable (history.waiting ≠ []))
  | ⟨.utimens _ atime mtime, _, _⟩ =>
    inferInstanceAs (Decidable (_ ≠ [] ∨ ∀ fnode ∈ (_ : Option Fnode), HasTimes atime mtime fnode))
  | ⟨.flush, _, _⟩ => inferInstanceAs (Decidable (_ ≠ [] ∨ _ < _))
  | ⟨.init, _, _⟩ | ⟨.getattr .., _, _⟩ | ⟨.truncate .., _, _⟩ | ⟨.open _, _, _⟩
  | ⟨.write .., _, _⟩ | ⟨.read .., _, _⟩ | ⟨.unlink _, _, _⟩ | ⟨.rename .., _, _⟩ =>
    instDecidableTrue

variable {history later : History} {event : Event} {table : Table} {index : Nat}
  {change : Fnode → Fnode} {fnode : Fnode} {atime mtime : UInt64} {volume after : Volume}
  {filename pathname : CString} {result : Int}

/-- The record denoted is the one that the path denotes. -/
theorem denoted_eq_some : denoted table filename = some fnode ↔ Denotes table filename fnode := by
  rw [denoted, Denotes]
  constructor
  · intro found
    split at found
    · rename_i index searched
      exact ⟨index, searched, found⟩
    · contradiction
  · rintro ⟨index, searched, there⟩
    rw [searched]
    exact there

/-! ## Setting times -/

/-- A table stays the same exactly when the record changed does. -/
theorem modify_eq_self : table.modify index change = table ↔
    ∀ fnode ∈ table.entries[index]?, change fnode = fnode := by
  constructor
  · intro same fnode there
    have changed : (table.modify index change).entries[index]? = some (change fnode) :=
      modify_there there
    rw [same, there] at changed
    exact (Option.some.inj changed).symm
  · intro same
    apply Table.ext
    apply List.ext_getElem?
    intro place
    rw [Table.modify, List.getElem?_modify]
    by_cases here : index = place
    · subst here
      cases there : table.entries[index]? with
      | none => rfl
      | some fnode => simp [same fnode there]
    · simp [here]

/-- The times are set to the arguments. -/
theorem hasTimes_withTimes : HasTimes atime mtime (withTimes atime mtime fnode) := by
  have word : ∀ time : UInt64, time.toNat % 256 ^ 8 = time.toNat := fun time =>
    Nat.mod_eq_of_lt (Nat.lt_of_lt_of_le time.toNat_lt (by norm_num))
  simp only [HasTimes, withTimes, statOf_withStat]
  refine ⟨?_, ?_, ?_⟩
  · rw [getStat_setStat_other (by decide), getStat_setStat_other (by decide), getStat_setStat]
    exact word atime
  · rw [getStat_setStat_other (by decide), getStat_setStat]
    exact word mtime
  · rw [getStat_setStat]
    exact word mtime

/-- Setting the times of a record changes nothing exactly when it has them. -/
theorem withTimes_eq_self : withTimes atime mtime fnode = fnode ↔ HasTimes atime mtime fnode := by
  constructor
  · intro same
    have times := @hasTimes_withTimes fnode atime mtime
    rw [same] at times
    exact times
  · rintro ⟨atimeIs, mtimeIs, ctimeIs⟩
    simp only [withTimes]
    rw [← atimeIs, setStat_getStat, ← mtimeIs, setStat_getStat, mtimeIs, ← ctimeIs,
      setStat_getStat, withStat_statOf]

/-- `kvfs_utimens` keeps the file, and it keeps the table exactly when the record that the path
denotes has the times already. -/
theorem kvfsUtimens_effect (done : kvfsUtimens volume pathname atime mtime = .ok (result, after)) :
    after.superblock = volume.superblock ∧ (after.table = volume.table ↔
      ∀ fnode ∈ denoted volume.table pathname, HasTimes atime mtime fnode) := by
  rw [kvfsUtimens] at done
  rw [denoted]
  cases searched : lookup volume.table pathname with
  | error halt =>
    rw [searched] at done
    contradiction
  | ok found =>
    rw [searched] at done
    cases found with
    | none =>
      cases done
      exact ⟨rfl, by simp⟩
    | some index =>
      cases done
      refine ⟨rfl, modify_eq_self.trans ?_⟩
      simp only [withTimes_eq_self]

/-! ## Steps -/

/-- With a file still waiting for its flush there is nothing to show. -/
theorem durable_of_waiting (waiting : later.waiting ≠ []) : Durable later :=
  fun quiet => absurd quiet waiting

/-- A call that leaves the file and the handles that wait as they were keeps a history durable
exactly when a file waits or the table stays. -/
theorem Durable.sameFile (durable : Durable history)
    (fileIs : later.volume.superblock = history.volume.superblock)
    (waiting : later.waiting = history.waiting) :
    Durable later ↔ history.waiting ≠ [] ∨ later.volume.table = history.volume.table := by
  rw [Durable, waiting, fileIs]
  by_cases quiet : history.waiting = []
  · have loads := durable quiet
    constructor
    · intro loads'
      have same := loads.symm.trans (loads' quiet)
      exact .inr (congrArg Prod.fst (Except.ok.inj same)).symm
    · rintro (contrary | tableIs)
      · exact absurd quiet contrary
      · rw [tableIs]
        exact fun _ => loads
  · exact ⟨fun _ => .inl quiet, fun _ contrary => absurd contrary quiet⟩

/-- A call that leaves the image of the table in the file leaves a durable history exactly when a
file waits or there are fewer than 2³¹ records. -/
theorem durable_of_image (fileIs : later.volume.superblock = some (image later.volume.table)) :
    Durable later ↔ later.waiting ≠ [] ∨ later.volume.table.entries.length < intLimit := by
  rw [Durable, fileIs]
  constructor
  · intro durable
    by_cases quiet : later.waiting = []
    · exact .inr (kvfsInit_length (durable quiet))
    · exact .inl quiet
  · rintro (waiting | small) quiet
    · exact absurd quiet waiting
    · exact kvfsInit_image small

/-- A call of `kvfs_unlink` or `kvfs_rename` keeps a history durable. -/
theorem Durable.saves {call : Call} (durable : Durable history) (saves : Saves call)
    (done : history.volume.perform call = .ok (result, later.volume))
    (waiting : later.waiting = history.waiting) : Durable later := by
  rcases saves.effect done with ⟨_, same⟩ | ⟨fileIs, fewer⟩
  · apply (durable.sameFile (by rw [same]) waiting).mpr
    exact .inr (by rw [same])
  · rw [durable_of_image fileIs, waiting]
    by_cases quiet : history.waiting = []
    · exact .inr (Nat.lt_of_le_of_lt fewer (kvfsInit_length (durable quiet)))
    · exact .inl quiet

/-- A call keeps a history durable exactly when what it changes is sheltered. -/
theorem Durable.step (durable : Durable history) (taken : HistoryStep history event later) :
    Durable later ↔ Sheltered history event later := by
  obtain ⟨call, result, handle⟩ := event
  obtain ⟨done, waiting⟩ := taken
  have readOnly : ReadOnly call → later.waiting = history.waiting → Durable later := by
    intro readOnly waiting
    have same : later.volume = history.volume := readOnly.unchanged done
    exact (durable.sameFile (by rw [same]) waiting).mpr (.inr (by rw [same]))
  cases call with
  | init => exact iff_of_true (fun _ => (mounted_of_init done).again) trivial
  | getattr lstat path => exact iff_of_true (readOnly (.getattr lstat path) waiting) trivial
  | truncate path size => exact iff_of_true (readOnly (.truncate path size) waiting) trivial
  | «open» pathname => exact iff_of_true (readOnly (.open pathname) waiting) trivial
  | read pathname size off => exact iff_of_true (readOnly (.read pathname size off) waiting) trivial
  | flush =>
    obtain ⟨_, tableIs, fileIs⟩ := saved_cases done
    rw [← tableIs] at fileIs
    rw [durable_of_image fileIs, tableIs, waiting]
    rfl
  | mknod around pathname mode dev =>
    obtain ⟨_, fileIs, appended⟩ := kvfsMknod_cases done
    have grown : later.volume.table ≠ history.volume.table := by
      intro same
      have lengths := congrArg List.length appended
      rw [same, List.length_append, List.length_singleton] at lengths
      omega
    rw [durable.sameFile fileIs waiting]
    exact or_iff_left grown
  | utimens pathname atime mtime =>
    obtain ⟨fileIs, kept⟩ := kvfsUtimens_effect done
    rw [durable.sameFile fileIs waiting, kept]
    rfl
  | write filename data off =>
    refine iff_of_true (durable_of_waiting ?_) trivial
    rw [waiting]
    exact List.cons_ne_nil _ _
  | unlink pathname =>
    exact iff_of_true (durable.saves (.unlink pathname) done waiting) trivial
  | rename name newname =>
    exact iff_of_true (durable.saves (.rename name newname) done waiting) trivial

/-- From a mount, no unmount that a run allows loses anything exactly when every change that is
not saved at once is made while a file waits for a flush. -/
theorem durable_iff_sheltered {start : History} {run : List (Event × History)}
    (mounted : Mounted start.volume) (steps : IsRun HistoryStep start run) :
    Always Durable start run ↔ Each Sheltered start run := by
  have durable : Durable start := fun _ => mounted.again
  apply steps.always_iff_each durable
  · exact fun _ durable => durable
  · intro source label target durable taken sheltered
    exact (durable.step taken).mpr sheltered
  · intro source label target durable taken fails later
    exact fails ((durable.step taken).mp later)

/-! ## Two runs -/

/-- Perform a call of a history. -/
def record (history : History) (event : Event) : Option History :=
  (history.volume.attempt (event.call, event.result)).map fun volume =>
    ⟨volume, waitingAfter history.waiting event⟩

/-- A call performed takes a step. -/
theorem record_step (source : History) (event : Event) (target : History)
    (performed : record source event = some target) : HistoryStep source event target := by
  obtain ⟨volume, attempted, rfl⟩ := Option.map_eq_some_iff.mp performed
  exact ⟨attempt_step attempted, rfl⟩

/-- A mount without files. -/
def emptyHistory : History := ⟨emptyVolume, []⟩

/-- Make "/a". -/
def createdRun : List (Event × History) :=
  trace record emptyHistory [⟨.mknod someSurroundings pathA 33188 0, 0, 0⟩]

/-- The file made is in the table when the volume is unmounted, and gone after the next mount. -/
theorem createdRun_lost : Mounted emptyHistory.volume ∧ IsRun HistoryStep emptyHistory createdRun ∧
    ¬ Durable (final emptyHistory createdRun) ∧
    lookup (final emptyHistory createdRun).volume.table pathA = .ok (some 0) ∧
    ∃ table superblock,
      kvfsInit (final emptyHistory createdRun).volume.superblock = .ok (table, superblock) ∧
        lookup table pathA = .ok none := by
  have small : emptyVolume.table.entries.length < intLimit := by decide
  have there : lookup (final emptyHistory createdRun).volume.table pathA = .ok (some 0) := by
    decide +kernel
  have fileIs : (final emptyHistory createdRun).volume.superblock = emptyVolume.superblock := by
    decide +kernel
  have quiet : (final emptyHistory createdRun).waiting = [] := by decide +kernel
  have loads : kvfsInit (final emptyHistory createdRun).volume.superblock =
      .ok (.empty, some (image .empty)) := by
    rw [fileIs]
    exact kvfsInit_image small
  have gone : lookup .empty pathA = .ok none := by decide
  refine ⟨mounted_image small, isRun_trace record_step _ _, ?_, there, _, _, loads, gone⟩
  intro durable
  have same := loads.symm.trans (durable quiet)
  have none : .empty = (final emptyHistory createdRun).volume.table :=
    congrArg Prod.fst (Except.ok.inj same)
  rw [← none, gone] at there
  contradiction

/-- A mount of the files "/a" and "/b". -/
def twoFilesHistory : History := ⟨⟨twoFiles.table, some (image twoFiles.table)⟩, []⟩

/-- Write to "/a" and, before the flush, replace "/b" and set the times of "/a"; set them again
after it, and mount anew. -/
def shelteredRun : List (Event × History) :=
  trace record twoFilesHistory [⟨.write pathA [104, 105] 0, 2, 3⟩, ⟨.unlink pathB, 0, 0⟩,
    ⟨.mknod someSurroundings pathB 33188 0, 0, 0⟩, ⟨.utimens pathA 5 6, 0, 0⟩, ⟨.flush, 0, 3⟩,
    ⟨.utimens pathA 5 6, 0, 0⟩, ⟨.init, 0, 0⟩]

/-- That run is performed whole, and nothing in it can be lost. -/
theorem durable_shelteredRun :
    Always Durable twoFilesHistory shelteredRun ∧ shelteredRun.length = 7 := by
  have mounted : Mounted twoFilesHistory.volume := mounted_image (by decide)
  have sheltered : Each Sheltered twoFilesHistory shelteredRun := by decide +kernel
  exact ⟨(durable_iff_sheltered mounted (isRun_trace record_step _ _)).mpr sheltered,
    by decide +kernel⟩

end OsAssignments.Kvfs
