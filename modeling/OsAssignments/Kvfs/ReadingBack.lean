import OsAssignments.Kvfs.FileStore

/-!
# Reading back what was written

What a write puts into a file a later read delivers, however many other calls come between them:
calls for other files, reads, changes of times and saves. Once it has been flushed it is delivered
after any number of mounts as well. Both are facts about the store of files, carried over to the
volume by the refinement.
-/

namespace OsAssignments.Kvfs

open ByteRecord Transition

variable {volume start : Volume} {store : Store} {filename : CString} {data : List UInt8} {off : Nat}
  {output : Output}

/-- A call that names a path neither to change its content nor to take it away, and that mounts no
older table. -/
def Leaves (filename : CString) : Call → Prop
  | .init => False
  | .mknod _ pathname _ _ => pathname ≠ filename
  | .write pathname _ _ => pathname ≠ filename
  | .unlink pathname => pathname ≠ filename
  | .rename name newname => name ≠ filename ∧ newname ≠ filename
  | _ => True

/-- Under a path there is a file with the bytes given at an offset; of no bytes nothing is said. -/
def Directory.Delivers (files : Directory) (filename : CString) (data : List UInt8) (off : Nat) : Prop :=
  data ≠ [] → ∃ file, files filename = some file ∧ off + data.length ≤ dataSize - metadataSize ∧
    getStat file.stat .size = off + data.length ∧ file.content.slice off data.length = data

variable {store' : Store} {file : File} {files : Directory}

/-- Setting the times of a file leaves its size. -/
theorem File.size_touched {atime mtime : UInt64} :
    getStat (file.touched atime mtime).stat .size = getStat file.stat .size := by
  unfold File.touched
  simp (disch := decide) only [getStat_setStat_other]

/-- The size of a file written to. -/
theorem File.size_written (room : off + data.length ≤ dataSize - metadataSize) :
    getStat (file.written data off).stat .size = off + data.length := by
  have width : 256 ^ StatField.size.width = 2 ^ 64 := by decide
  unfold dataSize metadataSize at room
  rw [File.written, getStat_setStat, width, Nat.mod_eq_of_lt (by omega)]

/-- Where another path is updated a path keeps its bytes. -/
theorem Directory.Delivers.update {other : CString} {entry : Option File}
    (delivers : files.Delivers filename data off) (distinct : other ≠ filename) :
    Directory.Delivers (Function.update files other entry) filename data off := by
  intro nonempty
  obtain ⟨file, there, rest⟩ := delivers nonempty
  exact ⟨file, (Function.update_of_ne distinct.symm _ _).trans there, rest⟩

/-- A write that answers the number of its bytes leaves them there. -/
theorem Store.Step.delivers {off : Int64}
    (taken : store.Step (.write filename data off, .result data.length) store') :
    store'.files.Delivers filename data off.toInt.toNat := by
  intro nonempty
  have nonzero : (data.length : Int) ≠ 0 := by
    rw [ne_eq, Int.natCast_eq_zero, List.length_eq_zero_iff]
    exact nonempty
  rw [Store.Step, Store.respond] at taken
  split at taken
  · exact absurd (Output.result.inj (congrArg Prod.fst taken)) nonzero.symm
  · rename_i room
    have room' := not_lt.mp room
    split at taken
    · rename_i file _
      obtain rfl := congrArg Prod.snd taken
      exact ⟨_, Function.update_self _ _ _, room', File.size_written room', slice_overwrite room'⟩
    · exact absurd (Output.result.inj (congrArg Prod.fst taken)) nonzero.symm

/-- A read of the bytes there delivers as many of them as it asks for. -/
theorem Directory.Delivers.read {size : UInt64} {off : Int64}
    (delivers : store.files.Delivers filename data off.toInt.toNat)
    (part : size.toNat ≤ data.length)
    (taken : store.Step (.read filename size off, output) store') :
    output = .buffer size.toNat (data.take size.toNat) := by
  rw [Store.Step, Store.respond] at taken
  by_cases empty : data = []
  · subst empty
    have none : size.toNat = 0 := Nat.le_zero.mp part
    rw [none]
    split at taken
    · rename_i file _
      have nothing : file.bytes size.toNat off.toInt.toNat = [] := by
        rw [File.bytes, span, none, Nat.zero_min, Nat.zero_min, slice, List.take_zero]
      rw [nothing] at taken
      exact (congrArg Prod.fst taken).symm
    · exact (congrArg Prod.fst taken).symm
  · obtain ⟨file, there, room, ends, bytes⟩ := delivers empty
    have count : span (getStat file.stat .size) size.toNat off.toInt.toNat = size.toNat := by
      unfold span
      omega
    have read : file.bytes size.toNat off.toInt.toNat = data.take size.toNat := by
      calc
        file.bytes size.toNat off.toInt.toNat =
            (file.content.slice off.toInt.toNat data.length).take size.toNat := by
          rw [File.bytes, count, slice, slice, List.take_take, Nat.min_eq_left part]
        _ = data.take size.toNat := by rw [bytes]
    rw [there] at taken
    simp only [read, List.length_take, Nat.min_eq_left part] at taken
    exact (congrArg Prod.fst taken).symm

/-- A call that leaves a path leaves the bytes there. -/
theorem Store.Step.leaves {label : Call × Output} (taken : store.Step label store')
    (leaves : Leaves filename label.1) (delivers : store.files.Delivers filename data off) :
    store'.files.Delivers filename data off := by
  obtain ⟨call, output⟩ := label
  rw [Store.Step] at taken
  obtain rfl : (store.respond call).2 = store' := congrArg Prod.snd taken
  cases call with
  | init => exact absurd leaves id
  | getattr lstat path =>
    rw [Store.respond]
    split
    · exact delivers
    · split <;> exact delivers
  | truncate path size => exact delivers
  | «open» pathname => exact delivers
  | read pathname size off =>
    rw [Store.respond]
    split <;> exact delivers
  | flush => exact delivers
  | mknod around pathname mode dev => exact delivers.update leaves
  | utimens pathname atime mtime =>
    rw [Store.respond]
    split
    · rename_i found there
      by_cases same : pathname = filename
      · subst same
        intro nonempty
        obtain ⟨file, there', room, size, bytes⟩ := delivers nonempty
        obtain rfl : found = file := Option.some.inj (there.symm.trans there')
        exact ⟨_, Function.update_self _ _ _, room, File.size_touched.trans size, bytes⟩
      · exact delivers.update same
    · exact delivers
  | write pathname data off =>
    rw [Store.respond]
    split
    · exact delivers
    · split
      · exact delivers.update leaves
      · exact delivers
  | unlink pathname =>
    rw [Store.respond]
    split
    · exact delivers.update leaves
    · exact delivers
  | rename name newname =>
    rw [Store.respond]
    split
    · exact (delivers.update leaves.1).update leaves.2
    · exact delivers

/-- A call that mounts nothing leaves the files last saved, or saves those it leaves. -/
theorem Store.Step.saved {label : Call × Output} (taken : store.Step label store')
    (mountsNot : label.1 ≠ .init) : store'.saved = store.saved ∨ store'.saved = store'.files := by
  obtain ⟨call, output⟩ := label
  rw [Store.Step] at taken
  obtain rfl : (store.respond call).2 = store' := congrArg Prod.snd taken
  cases call with
  | init => exact absurd rfl mountsNot
  | truncate | «open» | mknod => exact .inl rfl
  | flush => exact .inr rfl
  | unlink pathname | rename name newname =>
    rw [Store.respond]
    split
    · exact .inr rfl
    · exact .inl rfl
  | getattr lstat path | write filename data off =>
    rw [Store.respond]
    split
    · exact .inl rfl
    · split <;> exact .inl rfl
  | read pathname size off | utimens pathname atime mtime =>
    rw [Store.respond]
    split <;> exact .inl rfl

/-- Bytes that are there and saved stay so through calls that leave the path and through mounts. -/
theorem Store.Step.lasting {label : Call × Output} (taken : store.Step label store')
    (leaves : Leaves filename label.1 ∨ label.1 = .init)
    (delivers : store.files.Delivers filename data off ∧ store.saved.Delivers filename data off) :
    store'.files.Delivers filename data off ∧ store'.saved.Delivers filename data off := by
  rcases leaves with leaves | mounts
  · have mountsNot : label.1 ≠ .init := by
      intro mounts
      rw [mounts] at leaves
      exact leaves
    have there := taken.leaves leaves delivers.1
    refine ⟨there, ?_⟩
    rcases taken.saved mountsNot with kept | saved
    · rw [kept]
      exact delivers.2
    · rw [saved]
      exact there
  · rw [Store.Step, mounts] at taken
    obtain rfl := congrArg Prod.snd taken
    exact ⟨delivers.2, delivers.2⟩

/-- What steps of the store of a kind keep holds of the store after a run of users' calls of that
kind. -/
theorem Stores.run {run : List ((Call × Output) × Volume)} {holds : Store → Prop}
    {allowed : Call × Output → Prop} (stores : Stores volume store) (initial : holds store)
    (kept : ∀ source label target, holds source → allowed label → Store.Step source label target →
      holds target)
    (steps : IsRun UserStep volume run) (all : ∀ move ∈ run, allowed move.1) :
    ∃ store', Stores (final volume run) store' ∧ holds store' := by
  obtain ⟨run', steps', labels, stores'⟩ := stores.simulate steps
  refine ⟨_, stores', steps'.final_of_forall initial kept fun move member => ?_⟩
  have listed : move.1 ∈ run.map Prod.fst := labels ▸ List.mem_map_of_mem member
  obtain ⟨other, member', same⟩ := List.mem_map.mp listed
  exact same ▸ all other member'

/-- In every run from an empty mount a read that follows a write delivers what was written, as much
of it as is asked for, whatever calls that leave the path come between them. -/
theorem read_after_write {earlier between : List ((Call × Output) × Volume)} {written last : Volume}
    {off : Int64} {size : UInt64} (mount : EmptyMount start)
    (steps : IsRun UserStep start (earlier ++
      ((.write filename data off, .result data.length), written) ::
        (between ++ [((.read filename size off, output), last)])))
    (leaves : ∀ move ∈ between, Leaves filename move.1.1) (part : size.toNat ≤ data.length) :
    output = .buffer size.toNat (data.take size.toNat) := by
  obtain ⟨before, writes, rest⟩ := isRun_append.mp steps
  obtain ⟨amid, reads, _⟩ := isRun_append.mp rest
  obtain ⟨_, _, _, stores⟩ := mount.stores.simulate before
  obtain ⟨_, wrote, stores⟩ := stores.step writes
  obtain ⟨_, stores, delivers⟩ := @Stores.run _ _ _
    (fun store => store.files.Delivers filename data off.toInt.toNat)
    (fun label => Leaves filename label.1) stores wrote.delivers
    (fun _ _ _ delivers leaves taken => taken.leaves leaves delivers) amid leaves
  obtain ⟨_, answered, _⟩ := stores.step reads
  exact delivers.read part answered

/-- In every run from an empty mount a read delivers what was written and flushed before, whatever
calls that leave the path, mounts among them, come after the flush. -/
theorem read_after_mount {earlier between later : List ((Call × Output) × Volume)}
    {written flushed last : Volume} {off : Int64} {size : UInt64} (mount : EmptyMount start)
    (steps : IsRun UserStep start (earlier ++
      ((.write filename data off, .result data.length), written) ::
        (between ++ ((.flush, .result 0), flushed) ::
          (later ++ [((.read filename size off, output), last)]))))
    (leaves : ∀ move ∈ between, Leaves filename move.1.1)
    (leaves' : ∀ move ∈ later, Leaves filename move.1.1 ∨ move.1.1 = .init)
    (part : size.toNat ≤ data.length) : output = .buffer size.toNat (data.take size.toNat) := by
  obtain ⟨before, writes, rest⟩ := isRun_append.mp steps
  obtain ⟨amid, flushes, rest⟩ := isRun_append.mp rest
  obtain ⟨after, reads, _⟩ := isRun_append.mp rest
  obtain ⟨_, _, _, stores⟩ := mount.stores.simulate before
  obtain ⟨_, wrote, stores⟩ := stores.step writes
  obtain ⟨_, stores, delivers⟩ := @Stores.run _ _ _
    (fun store => store.files.Delivers filename data off.toInt.toNat)
    (fun label => Leaves filename label.1) stores wrote.delivers
    (fun _ _ _ delivers leaves taken => taken.leaves leaves delivers) amid leaves
  obtain ⟨_, flush, stores⟩ := stores.step flushes
  obtain rfl := congrArg Prod.snd flush
  obtain ⟨_, stores, delivers⟩ := @Stores.run _ _ _
    (fun store => store.files.Delivers filename data off.toInt.toNat ∧
      store.saved.Delivers filename data off.toInt.toNat)
    (fun label => Leaves filename label.1 ∨ label.1 = .init) stores ⟨delivers, delivers⟩
    (fun _ _ _ delivers leaves taken => taken.lasting leaves delivers) after leaves'
  obtain ⟨_, answered, _⟩ := stores.step reads
  exact delivers.1.read part answered

/-! ## Two runs -/

/-- The changes of the other file leave "/a". -/
theorem leaves_changeOthers : ∀ label ∈ changeOthers, Leaves pathA label.1 := by
  unfold changeOthers
  simp only [List.forall_mem_cons, Leaves]
  exact ⟨by decide, trivial, by decide, by simp⟩

/-- A read of what was written to "/a" delivers it. -/
theorem read_after_write_sharedRun : ∃ earlier written between last,
    IsRun UserStep emptyVolume (earlier ++ (writeA, written) :: (between ++ [(readA, last)])) ∧
      readA.2 = .buffer 2 ([104, 105].take 2) := by
  have whole : ((final emptyVolume (trace Volume.serve emptyVolume makeTwo)).serve writeA).bind
      (fun written => (final written (trace Volume.serve written changeOthers)).serve readA)
      |>.isSome := by decide +kernel
  obtain ⟨last, served⟩ := Option.isSome_iff_exists.mp whole
  obtain ⟨written, wrote, read⟩ := Option.bind_eq_some_iff.mp served
  have steps : IsRun UserStep emptyVolume (trace Volume.serve emptyVolume makeTwo ++
      (writeA, written) :: (trace Volume.serve written changeOthers ++ [(readA, last)])) :=
    isRun_append.mpr ⟨isRun_trace serve_step _ _, serve_step _ _ _ wrote,
      isRun_append.mpr ⟨isRun_trace serve_step _ _, serve_step _ _ _ read, trivial⟩⟩
  exact ⟨_, written, _, last, steps, read_after_write emptyVolume_mount steps
    (fun move member => leaves_changeOthers move.1 (mem_trace member)) (by decide)⟩

/-- Mount, make the other file anew and mount again. -/
def mountTwice : List (Call × Output) :=
  [(.init, .result 0), (.mknod someSurroundings pathB 33188 0, .result 0), (.init, .result 0)]

/-- A read of what was written to "/a" and flushed delivers it after two mounts. -/
theorem read_after_mount_sharedRun : ∃ earlier written between flushed later last,
    IsRun UserStep emptyVolume (earlier ++ (writeA, written) ::
      (between ++ ((.flush, .result 0), flushed) :: (later ++ [(readA, last)]))) ∧
      readA.2 = .buffer 2 ([104, 105].take 2) := by
  have whole : ((final emptyVolume (trace Volume.serve emptyVolume makeTwo)).serve writeA).bind
      (fun written =>
        ((final written (trace Volume.serve written changeOthers)).serve (.flush, .result 0)).bind
          fun flushed => (final flushed (trace Volume.serve flushed mountTwice)).serve readA)
      |>.isSome := by decide +kernel
  obtain ⟨last, served⟩ := Option.isSome_iff_exists.mp whole
  obtain ⟨written, wrote, served⟩ := Option.bind_eq_some_iff.mp served
  obtain ⟨flushed, flush, read⟩ := Option.bind_eq_some_iff.mp served
  have steps : IsRun UserStep emptyVolume (trace Volume.serve emptyVolume makeTwo ++
      (writeA, written) :: (trace Volume.serve written changeOthers ++ ((.flush, .result 0), flushed) ::
        (trace Volume.serve flushed mountTwice ++ [(readA, last)]))) :=
    isRun_append.mpr ⟨isRun_trace serve_step _ _, serve_step _ _ _ wrote,
      isRun_append.mpr ⟨isRun_trace serve_step _ _, serve_step _ _ _ flush,
        isRun_append.mpr ⟨isRun_trace serve_step _ _, serve_step _ _ _ read, trivial⟩⟩⟩
  refine ⟨_, written, _, flushed, _, last, steps,
    read_after_mount emptyVolume_mount steps ?_ ?_ (by decide)⟩
  · exact fun move member => leaves_changeOthers move.1 (mem_trace member)
  · intro move member
    have allowed : ∀ label ∈ mountTwice, Leaves pathA label.1 ∨ label.1 = .init := by
      unfold mountTwice
      simp only [List.forall_mem_cons, Leaves]
      exact ⟨.inr trivial, .inl (by decide), .inr trivial, by simp⟩
    exact allowed move.1 (mem_trace member)

end OsAssignments.Kvfs
