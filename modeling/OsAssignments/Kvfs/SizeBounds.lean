import OsAssignments.Kvfs.LongNames
import OsAssignments.Kvfs.Rewriting

/-!
# Sizes and write ranges

The size of a file is kept as raw bytes in the stat that every operation copies about, and the
guard of `kvfs_write` adds a signed offset to an unsigned size. Whatever calls are made, in any
order and with the table saved and loaded in between, no size leaves the content field, and a
write changes the bytes it was given and the size, both within the data field.
-/

namespace OsAssignments.Kvfs

open ByteRecord Transition

/-- What callers keep to: paths that fit the name field, and writes of less than 2⁶³ bytes at offsets
that are not negative. -/
def Bounded : Call → Prop
  | .mknod _ pathname _ _ => Short pathname
  | .utimens pathname _ _ => Short pathname
  | .write filename data off => Short filename ∧ 0 ≤ off.toInt ∧ data.length < 2 ^ 63
  | .unlink pathname => Short pathname
  | .rename name newname => Short name ∧ Short newname
  | _ => True

instance : (call : Call) → Decidable (Bounded call)
  | .mknod .. | .utimens .. | .unlink _ => inferInstanceAs (Decidable (_ < _))
  | .write .. | .rename .. => inferInstanceAs (Decidable (_ ∧ _))
  | .init | .getattr .. | .truncate .. | .open _ | .flush | .read .. => instDecidableTrue

/-- A bounded call that returns. -/
def BoundedStep (volume : Volume) (label : Call × Int) (after : Volume) : Prop :=
  Bounded label.1 ∧ Step volume label after

/-- The size of a file ends within the content field. -/
def SizeFits (fnode : Fnode) : Prop := getStat (statOf fnode) .size ≤ dataSize - metadataSize

/-- A write within the data field has changed the bytes given and those of `st_size` at most. -/
structure TouchesOnly (fnode fnode' : Fnode) (data : List UInt8) (off : Nat) : Prop where
  /-- The bytes given fit the data field behind the stat. -/
  room : metadataSize + off + data.length ≤ dataSize
  /-- The other bytes of the record are as they were. -/
  kept : ∀ place,
    place < nameSize + metadataSize + off ∨ nameSize + metadataSize + off + data.length ≤ place →
    place < nameSize + StatField.size.offset ∨
      nameSize + StatField.size.offset + StatField.size.width ≤ place →
    fnode'.bytes[place]? = fnode.bytes[place]?

/-- A write has changed nothing, or one record within its bounds. -/
def WritesWithin (before after : Volume) (data : List UInt8) (off : Nat) : Prop :=
  after = before ∨ ∃ index fnode fnode', before.table.entries[index]? = some fnode ∧
    after.superblock = before.superblock ∧
    after.table.entries = before.table.entries.set index fnode' ∧ TouchesOnly fnode fnode' data off

/-- All sizes of a table fit. -/
def SizesFit (table : Table) : Prop := ∀ fnode ∈ table.entries, SizeFits fnode

variable {volume start target after : Volume} {filename pathname newname : CString}
  {fnode changed : Fnode} {left right : List Fnode} {data : List UInt8} {off : Nat} {result : Int}

/-! ## Sizes of records -/

/-- A new file has the size zero. -/
theorem sizeFits_mknodFnode {around : Surroundings} {mode : UInt32} {dev : UInt64} :
    SizeFits (mknodFnode around pathname mode dev) := by
  rw [SizeFits, statOf_mknodFnode]
  simp (disch := decide) only [mknodStat, getStat_setStat_other]
  rw [getStat_setStat]
  exact Nat.zero_le _

/-- Setting its times leaves the size of a file. -/
theorem sizeFits_withTimes {atime mtime : UInt64} (fits : SizeFits fnode) :
    SizeFits (withTimes atime mtime fnode) := by
  rw [SizeFits, withTimes, statOf_withStat]
  simp (disch := decide) only [getStat_setStat_other]
  exact fits

/-- A file that is written ends behind the bytes written. -/
theorem sizeFits_withContent (room : off + data.length ≤ dataSize - metadataSize) :
    SizeFits (withContent data off fnode) := by
  rw [SizeFits, getStat_withContent room]
  exact room

/-- Renaming a file to a short name leaves its size. -/
theorem sizeFits_withName (short : Short newname) (fits : SizeFits fnode) :
    SizeFits (withName newname fnode) := by
  rw [SizeFits, statOf_withName short]
  exact fits

/-! ## Calls -/

/-- Exchanging a record for one with a size that fits keeps all sizes within bounds. -/
theorem forall_replace {holds : Fnode → Prop} {entries : List Fnode}
    (all : ∀ other ∈ entries, holds other) (place : entries = left ++ fnode :: right)
    (fits : holds changed) : ∀ other ∈ left ++ changed :: right, holds other := by
  subst place
  intro other member
  rcases List.mem_append.mp member with inLeft | inRight
  · exact all other (List.mem_append_left _ inLeft)
  · rcases List.mem_cons.mp inRight with rfl | inRight
    · exact fits
    · exact all other (List.mem_append_right left (List.mem_cons_of_mem fnode inRight))

/-- In an empty table there are no sizes. -/
theorem sizesFit_empty : SizesFit .empty := fun _ member => absurd member List.not_mem_nil

/-- Bounded calls keep all sizes within bounds, in memory and in the file. -/
theorem Lasts.boundedStep {label : Call × Int} (lasts : Lasts SizesFit volume)
    (taken : BoundedStep volume label after) : Lasts SizesFit after := by
  obtain ⟨call, result⟩ := label
  obtain ⟨bounded, done⟩ := taken
  have sizes := lasts.table
  have readOnly : ReadOnly call → Lasts SizesFit after := by
    intro readOnly
    rw [readOnly.unchanged done]
    exact lasts
  cases call with
  | init => exact lasts.init sizesFit_empty done
  | getattr lstat path => exact readOnly (.getattr lstat path)
  | truncate path size => exact readOnly (.truncate path size)
  | «open» pathname => exact readOnly (.open pathname)
  | read pathname size off => exact readOnly (.read pathname size off)
  | flush =>
    obtain ⟨_, tableIs, fileIs⟩ := saved_cases done
    exact .of_saved sizesFit_empty (tableIs ▸ fileIs) (tableIs ▸ sizes)
  | mknod around pathname mode dev =>
    obtain ⟨_, fileIs, appended⟩ := kvfsMknod_cases done
    apply lasts.unsaved fileIs
    rw [SizesFit, appended]
    exact List.forall_mem_append.mpr ⟨sizes, by simpa using sizeFits_mknodFnode⟩
  | utimens pathname atime mtime =>
    obtain same | ⟨left, fnode, right, first, fileIs, changed⟩ := kvfsUtimens_cases bounded done
    · exact same ▸ lasts
    · apply lasts.unsaved fileIs
      rw [SizesFit, changed]
      exact forall_replace sizes first.place (sizeFits_withTimes (sizes fnode first.mem))
  | write filename data off =>
    obtain ⟨short, nonneg, _⟩ := bounded
    obtain same | ⟨left, fnode, right, first, room, fileIs, changed⟩ :=
      kvfsWrite_cases short nonneg done
    · exact same ▸ lasts
    · apply lasts.unsaved fileIs
      rw [SizesFit, changed]
      exact forall_replace sizes first.place (sizeFits_withContent room)
  | unlink pathname =>
    obtain ⟨_, same, _⟩ | ⟨left, fnode, right, first, _, _, removed, fileIs⟩ :=
      kvfsUnlink_cases bounded done
    · exact same ▸ lasts
    · apply Lasts.of_saved sizesFit_empty fileIs
      rw [SizesFit, removed]
      exact fun other member => sizes other (first.mem_others member)
  | rename name newname =>
    obtain ⟨_, same, _⟩ | ⟨left, fnode, right, first, _, _, changed, fileIs⟩ :=
      kvfsRename_cases bounded.1 done
    · exact same ▸ lasts
    · apply Lasts.of_saved sizesFit_empty fileIs
      rw [SizesFit, changed]
      exact forall_replace sizes first.place (sizeFits_withName bounded.2 (sizes fnode first.mem))

/-- In every table that bounded calls reach all sizes fit. -/
theorem EmptyMount.sizesFit (mount : EmptyMount start)
    (reached : Reachable BoundedStep start volume) : SizesFit volume.table := by
  have initial : Lasts SizesFit start := mount.mounted.lasts (mount.none ▸ sizesFit_empty)
  exact (reached.invariant initial fun _ _ _ lasts taken => lasts.boundedStep taken).table

/-! ## Writes -/

/-- Setting the size of a file overwrites the bytes of `st_size`. -/
theorem withSize_eq (size : Nat) (fnode : Fnode) : withSize size fnode =
    fnode.overwrite (nameSize + StatField.size.offset) (LittleEndian.encode 8 size) :=
  overwrite_part rfl (by decide) (by rw [LittleEndian.length_encode]; decide)

/-- New content touches the bytes given and the size. -/
theorem touchesOnly_withContent (room : off + data.length ≤ dataSize - metadataSize) :
    TouchesOnly fnode (withContent data off fnode) data off := by
  constructor
  · unfold dataSize metadataSize at room ⊢
    omega
  · intro place apart apart'
    have width := LittleEndian.length_encode 8 (off + data.length)
    have size : nameSize + StatField.size.offset + StatField.size.width =
        nameSize + StatField.size.offset + (LittleEndian.encode 8 (off + data.length)).length := by
      rw [width]
      rfl
    rw [size] at apart'
    rw [withContent_eq, withSize_eq, getElem?_overwrite_apart apart, getElem?_overwrite_apart apart']

/-- `kvfs_write` of a bounded range stays within its bounds. -/
theorem kvfsWrite_within {off : Int64} (bounded : Bounded (.write filename data off))
    (done : kvfsWrite volume filename data off = .ok (result, after)) :
    WritesWithin volume after data off.toInt.toNat := by
  obtain ⟨short, nonneg, _⟩ := bounded
  obtain same | ⟨left, fnode, right, first, room, fileIs, changed⟩ := kvfsWrite_cases short nonneg done
  · exact .inl same
  · refine .inr ⟨left.length, fnode, _, ?_, fileIs, ?_, touchesOnly_withContent room⟩
    · rw [first.place]
      simp
    · rw [changed, first.place]
      simp

/-- The sum of a bounded offset and size is not reduced. -/
theorem guardSum {off : Int64} (nonneg : 0 ≤ off.toInt) (small : data.length < 2 ^ 63) :
    ((off.toInt + data.length) % 2 ^ 64).toNat = off.toInt.toNat + data.length := by
  have bound := off.toInt_lt
  omega

/-- `kvfs_write` refuses a range that ends behind the data field. -/
theorem kvfsWrite_refuses {off : Int64} (bounded : Bounded (.write filename data off))
    (beyond : dataSize - metadataSize < off.toInt.toNat + data.length) :
    kvfsWrite volume filename data off = .ok (0, volume) := by
  obtain ⟨_, nonneg, small⟩ := bounded
  rw [kvfsWrite]
  simp only [guardSum nonneg small, gt_iff_lt, if_pos beyond]

/-- A bounded write never leaves its record. -/
theorem kvfsWrite_inBounds {off : Int64} (bounded : Bounded (.write filename data off)) :
    kvfsWrite volume filename data off ≠ .error .outOfBounds := by
  obtain ⟨short, nonneg, small⟩ := bounded
  by_cases beyond : dataSize - metadataSize < off.toInt.toNat + data.length
  · rw [kvfsWrite_refuses ⟨short, nonneg, small⟩ beyond]
    exact nofun
  · rcases lookup_cases short volume.table with ⟨left, fnode, right, _, _, searched⟩ |
        ⟨_, _, searched⟩ | searched
    · rw [kvfsWrite_found searched nonneg (not_lt.mp beyond)]
      exact nofun
    · unfold kvfsWrite
      simp only [guardSum nonneg small, gt_iff_lt, if_neg beyond, searched]
      exact nofun
    · unfold kvfsWrite
      simp only [guardSum nonneg small, gt_iff_lt, if_neg beyond, searched]
      exact nofun

/-- In every table that bounded calls reach from an empty mount all sizes lie between zero and the
length of the content field, and a bounded write leaves its record alone but for the bytes given
and the size, refusing what would end behind the data field. -/
theorem sizes_and_writes_within (mount : EmptyMount start)
    (reached : Reachable BoundedStep start volume) :
    (∀ fnode ∈ volume.table.entries, 0 ≤ stSize (statOf fnode) ∧
      stSize (statOf fnode) ≤ ((dataSize - metadataSize : Nat) : Int)) ∧
    ∀ (filename : CString) (data : List UInt8) (off : Int64), Bounded (.write filename data off) →
      kvfsWrite volume filename data off ≠ .error .outOfBounds ∧
      (dataSize - metadataSize < off.toInt.toNat + data.length →
        kvfsWrite volume filename data off = .ok (0, volume)) ∧
      ∀ (result : Int) (after : Volume), kvfsWrite volume filename data off = .ok (result, after) →
        WritesWithin volume after data off.toInt.toNat := by
  refine ⟨fun fnode member => ?_, fun filename data off bounded =>
    ⟨kvfsWrite_inBounds bounded, kvfsWrite_refuses bounded, fun _ _ => kvfsWrite_within bounded⟩⟩
  have fits := mount.sizesFit reached fnode member
  rw [stSize_of_getStat rfl fits]
  exact ⟨Int.natCast_nonneg _, Int.ofNat_le.mpr fits⟩

/-- Perform a bounded call. -/
def permit (volume : Volume) (label : Call × Int) : Option Volume :=
  if Bounded label.1 then volume.attempt label else none

/-- A bounded call performed takes a step. -/
theorem permit_step (source : Volume) (label : Call × Int) (target : Volume)
    (performed : permit source label = some target) : BoundedStep source label target := by
  rw [permit] at performed
  split at performed
  · rename_i bounded
    exact ⟨bounded, attempt_step performed⟩
  · contradiction

/-- Make "/a", write three bytes to it, save and load the table, and write behind them. -/
def reloadedRun : List ((Call × Int) × Volume) :=
  trace permit emptyVolume [(.mknod someSurroundings pathA 33188 0, 0), (.write pathA [120, 121, 122] 0, 3),
    (.flush, 0), (.init, 0), (.write pathA [120] 3, 1)]

/-- After that run the bounds hold, of a file of four bytes. -/
theorem sizes_and_writes_within_reloadedRun :
    ((final emptyVolume reloadedRun).table.entries.map fun fnode => stSize (statOf fnode)) = [4] ∧
    ∀ fnode ∈ (final emptyVolume reloadedRun).table.entries, 0 ≤ stSize (statOf fnode) ∧
      stSize (statOf fnode) ≤ ((dataSize - metadataSize : Nat) : Int) := by
  have steps : IsRun BoundedStep emptyVolume reloadedRun := isRun_trace permit_step _ _
  have within := sizes_and_writes_within emptyVolume_mount steps.reachable
  exact ⟨by decide +kernel, within.1⟩

end OsAssignments.Kvfs
