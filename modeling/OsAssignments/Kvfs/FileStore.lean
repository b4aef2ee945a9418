import OsAssignments.Kvfs.SizeBounds
import OsAssignments.Library.Keyed

/-!
# The KVFS as a store of files

What a user of the KVFS sees: a map from paths to files, each with its attributes and its content,
and beside it the map that the last save wrote, which a mount brings back. Every operation is a
function of this store. In every run from an empty mount the operations answer what the store
answers, in attributes and bytes delivered as much as in results.
-/

namespace OsAssignments.Kvfs

open ByteRecord Transition

/-! ## The store -/

/-- A file as its users see it. -/
structure File where
  /-- What `kvfs_getattr` reports. -/
  stat : Stat
  /-- The bytes of the content field, those behind the end of the file included. -/
  content : ByteRecord (dataSize - metadataSize)
  deriving DecidableEq

/-- A map from paths to files. -/
abbrev Directory := CString → Option File

/-- The files there are and the files last saved. -/
structure Store where
  /-- The files that the operations work on. -/
  files : Directory
  /-- The files that a mount brings back. -/
  saved : Directory

/-- What an operation hands to its caller. -/
inductive Output
  /-- A result. -/
  | result (value : Int)
  /-- The result of `kvfs_getattr` and the attributes it filled in. -/
  | attributes (value : Int) (stbuf : Option Stat)
  /-- The result of `kvfs_read` and the bytes it filled in. -/
  | buffer (value : Int) (bytes : List UInt8)
  deriving DecidableEq

/-- A file just made: its content is whatever the stack held. -/
def File.made (around : Surroundings) (mode : UInt32) (dev : UInt64) : File :=
  ⟨mknodStat around mode dev, ⟨contentOf around.fnode, length_slice (by decide)⟩⟩

/-- A file with its times set. -/
def File.touched (file : File) (atime mtime : UInt64) : File :=
  let stat := setStat file.stat .atime atime.toNat
  let stat := setStat stat .mtime mtime.toNat
  { file with stat := setStat stat .ctime mtime.toNat }

/-- A file that ends behind the bytes written to it. -/
def File.written (file : File) (data : List UInt8) (off : Nat) : File :=
  ⟨setStat file.stat .size (off + data.length), file.content.overwrite off data⟩

/-- The number of bytes that a read within the content field delivers: no more than the field has
behind the offset, and no more than the file has in all. -/
def span (stSize size off : Nat) : Nat := min (min size (dataSize - metadataSize - off)) stSize

/-- The bytes that a read delivers. -/
def File.bytes (file : File) (size off : Nat) : List UInt8 :=
  file.content.slice off (span (getStat file.stat .size) size off)

/-- What the store answers to a call, and the store afterwards. -/
def Store.respond (store : Store) : Call → Output × Store
  | .init => (.result 0, { store with files := store.saved })
  | .getattr lstat path =>
    if path.bytes = "/".toUTF8.toList then (.attributes lstat.1 lstat.2, store)
    else
      match store.files path with
      | some file => (.attributes 0 (some file.stat), store)
      | none => (.attributes enoent none, store)
  | .truncate _ _ => (.result 0, store)
  | .open pathname => (.result (if (store.files pathname).isNone then eacces else 0), store)
  | .flush => (.result 0, { store with saved := store.files })
  | .mknod around pathname mode dev =>
    (.result 0,
      { store with files := Function.update store.files pathname (some (.made around mode dev)) })
  | .utimens pathname atime mtime =>
    match store.files pathname with
    | some file =>
      (.result 0, { store with
        files := Function.update store.files pathname (some (file.touched atime mtime)) })
    | none => (.result 0, store)
  | .write filename data off =>
    if off.toInt.toNat + data.length > dataSize - metadataSize then (.result 0, store)
    else
      match store.files filename with
      | some file =>
        (.result data.length, { store with
          files := Function.update store.files filename
            (some (file.written data off.toInt.toNat)) })
      | none => (.result 0, store)
  | .read pathname size off =>
    match store.files pathname with
    | some file =>
      let bytes := file.bytes size.toNat off.toInt.toNat
      (.buffer bytes.length bytes, store)
    | none => (.buffer 0 [], store)
  | .unlink pathname =>
    match store.files pathname with
    | some _ =>
      let files := Function.update store.files pathname none
      (.result 0, ⟨files, files⟩)
    | none => (.result eacces, store)
  | .rename name newname =>
    match store.files name with
    | some file =>
      let files := Function.update (Function.update store.files name none) newname (some file)
      (.result 0, ⟨files, files⟩)
    | none => (.result eacces, store)

/-- An answer of the store. -/
def Store.Step (store : Store) (label : Call × Output) (after : Store) : Prop :=
  store.respond label.1 = (label.2, after)

/-- The store without files. -/
def Store.empty : Store := ⟨fun _ => none, fun _ => none⟩

/-! ## The volume -/

/-- What a call hands to its caller, and the volume it leaves. -/
def Volume.respond (volume : Volume) : Call → Except Halt (Output × Volume)
  | .getattr lstat path =>
    (kvfsGetattr lstat volume path).map fun got => (.attributes got.1 got.2, volume)
  | .read pathname size off =>
    (kvfsRead volume pathname size off).map fun got => (.buffer got.1 got.2, volume)
  | call => (volume.perform call).map fun done => (.result done.1, done.2)

/-- Every path given fits the name field, no write is of 2⁶³ bytes or more, and a read starts within
the content field and ends before the offsets do. -/
def Fits : Call → Prop
  | .getattr _ path => Short path
  | .open pathname => Short pathname
  | .write _ data _ => data.length < 2 ^ 63
  | .read pathname size off => Short pathname ∧ 0 ≤ off.toInt ∧
      off.toInt.toNat ≤ dataSize - metadataSize ∧ off.toInt.toNat + size.toNat < 2 ^ 64
  | _ => True

instance : (call : Call) → Decidable (Fits call)
  | .getattr .. | .open _ | .write .. => inferInstanceAs (Decidable (_ < _))
  | .read .. => inferInstanceAs (Decidable (_ ∧ _))
  | .init | .truncate .. | .flush | .mknod .. | .utimens .. | .unlink _ | .rename .. =>
    instDecidableTrue

/-- A call as users make it, on fewer than 2³¹ files, that returns: new files get new names, and a
file is renamed only to its own name or to one that is free. -/
structure UserStep (volume : Volume) (label : Call × Output) (after : Volume) : Prop where
  /-- The caller keeps to what FUSE checks. -/
  admissible : Admissible volume label.1
  /-- Paths, sizes and offsets are within bounds. -/
  fits : Fits label.1
  /-- No name is taken away from another file. -/
  apart : RenamesApart volume (label.1, 0) after
  /-- The `int` counters do not overflow. -/
  few : volume.table.entries.length < intLimit
  /-- The call returns. -/
  returned : volume.respond label.1 = .ok (label.2, after)

/-! ## Tables as directories -/

/-- The path that a record has as its name. -/
def pathOf (fnode : Fnode) : CString := ⟨nameOf fnode, CString.zero_notMem_read⟩

/-- The file that a record holds. -/
def fileOf (fnode : Fnode) : File := ⟨statOf fnode, ⟨contentOf fnode, length_contentOf fnode⟩⟩

/-- The files of a table. -/
def filesOf (table : Table) : Directory := fun filename =>
  (Keyed.find pathOf table.entries filename).map fileOf

variable {volume start target after : Volume} {store : Store} {table before : Table}
  {filename pathname name newname : CString} {fnode changed : Fnode} {left right : List Fnode}
  {data : List UInt8} {stSize size off : Nat} {call : Call} {output : Output} {index : Nat}

/-- A record with a name has it as its path. -/
theorem pathOf_eq (named : Named filename fnode) : pathOf fnode = filename := by
  obtain ⟨bytes, proper⟩ := filename
  have same := named.nameOf
  simp only [pathOf, same]

/-- In a proper table the records with a name are those with the path. -/
theorem Proper.named_iff (proper : Proper table) (member : fnode ∈ table.entries) :
    Named filename fnode ↔ pathOf fnode = filename := by
  constructor
  · exact pathOf_eq
  · rintro rfl
    obtain ⟨filename, _, named⟩ := proper.named fnode member
    rw [pathOf_eq named]
    exact named

/-- The other records of a proper table have other paths. -/
theorem Proper.others (proper : Proper table)
    (first : FirstNamed filename table.entries left fnode right) :
    ∀ other ∈ left ++ right, pathOf other ≠ pathOf fnode := by
  intro other member
  rw [pathOf_eq first.named, ne_eq, ← proper.named_iff (first.mem_others member)]
  exact proper.only first other member

/-- A name that is absent from a proper table is the path of no record. -/
theorem Proper.absent_iff (proper : Proper table) :
    Absent table filename ↔ ∀ other ∈ table.entries, pathOf other ≠ filename :=
  forall₂_congr fun _ member => not_congr (proper.named_iff member)

/-- There is no file under an absent name. -/
theorem Proper.filesOf_absent (proper : Proper table) (absent : Absent table filename) :
    filesOf table filename = none := by
  rw [filesOf, Keyed.find_eq_none.mpr (proper.absent_iff.mp absent), Option.map_none]

/-- The file under a name is that of the record with the name. -/
theorem Proper.filesOf_first (proper : Proper table)
    (first : FirstNamed filename table.entries left fnode right) :
    filesOf table filename = some (fileOf fnode) := by
  have found := Keyed.find_insert (proper.others first)
  rw [filesOf, first.place, found, pathOf_eq first.named, Function.update_self, Option.map_some]

/-- Of an updated map of records the files are updated. -/
theorem map_update (records : CString → Option Fnode) (entry : Option Fnode) :
    (fun path => ((Function.update records filename entry) path).map fileOf) =
      Function.update (fun path => (records path).map fileOf) filename (entry.map fileOf) := by
  funext path
  by_cases same : path = filename
  · rw [same, Function.update_self, Function.update_self]
  · rw [Function.update_of_ne same, Function.update_of_ne same]

/-- A record added under a new name adds its file. -/
theorem Proper.filesOf_append (proper : Proper before) (absent : Absent before pathname)
    (named : Named pathname fnode) (appended : table.entries = before.entries ++ [fnode]) :
    filesOf table = Function.update (filesOf before) pathname (some (fileOf fnode)) := by
  have fresh : ∀ other ∈ before.entries ++ [], pathOf other ≠ pathOf fnode := by
    rw [List.append_nil, pathOf_eq named]
    exact proper.absent_iff.mp absent
  have found := Keyed.find_insert fresh
  rw [List.append_nil, pathOf_eq named] at found
  unfold filesOf
  rw [appended, found]
  exact map_update _ _

/-- A record taken out takes its file away. -/
theorem Proper.filesOf_remove (proper : Proper before)
    (first : FirstNamed filename before.entries left fnode right)
    (removed : table.entries = left ++ right) :
    filesOf table = Function.update (filesOf before) filename none := by
  have found := Keyed.find_remove (proper.others first)
  rw [pathOf_eq first.named, ← first.place] at found
  unfold filesOf
  rw [removed, found]
  exact map_update _ _

/-- A record changed under its own name changes its file. -/
theorem Proper.filesOf_replace (proper : Proper before)
    (first : FirstNamed filename before.entries left fnode right) (named : Named filename changed)
    (changedIs : table.entries = left ++ changed :: right) :
    filesOf table = Function.update (filesOf before) filename (some (fileOf changed)) := by
  have same : pathOf changed = pathOf fnode := (pathOf_eq named).trans (pathOf_eq first.named).symm
  have found := Keyed.find_replace (proper.others first) same
  rw [pathOf_eq first.named, ← first.place] at found
  unfold filesOf
  rw [changedIs, found]
  exact map_update _ _

/-- A record renamed to its own name or to a free one moves its file. -/
theorem Proper.filesOf_rename (proper : Proper before)
    (first : FirstNamed name before.entries left fnode right) (named : Named newname changed)
    (changedIs : table.entries = left ++ changed :: right)
    (apart : newname = name ∨ Absent before newname) :
    filesOf table =
      Function.update (Function.update (filesOf before) name none) newname (some (fileOf changed)) := by
  have free : ∀ other ∈ left ++ right, pathOf other ≠ pathOf changed := by
    rw [pathOf_eq named]
    rcases apart with rfl | absent
    · rw [← pathOf_eq first.named]
      exact proper.others first
    · exact fun other member => proper.absent_iff.mp absent other (first.mem_others member)
  have found := Keyed.find_exchange (proper.others first) free
  rw [pathOf_eq first.named, pathOf_eq named, ← first.place] at found
  unfold filesOf
  rw [changedIs, found]
  exact (map_update _ _).trans (congrArg (Function.update · newname _) (map_update _ _))

/-! ## Records as files -/

/-- Two files are equal when their attributes and the bytes of their content are. -/
theorem File.ext {file file' : File} (stat : file.stat = file'.stat)
    (content : file.content.bytes = file'.content.bytes) : file = file' := by
  obtain ⟨_, ⟨_, _⟩⟩ := file
  obtain ⟨_, ⟨_, _⟩⟩ := file'
  cases stat
  cases content
  rfl

/-- The record added holds the file made. -/
theorem fileOf_mknodFnode {around : Surroundings} {mode : UInt32} {dev : UInt64}
    (short : Short pathname) :
    fileOf (mknodFnode around pathname mode dev) = .made around mode dev := by
  have stored : pathname.stored.length ≤ nameSize := by
    rw [CString.length_stored]
    exact short
  refine File.ext statOf_mknodFnode ?_
  unfold fileOf File.made mknodFnode contentOf withStat
  simp only
  rw [slice_overwrite_apart (by decide) (.inl (by decide)),
    slice_overwrite_apart (by decide) (.inr (by rw [length_bytes])),
    slice_overwrite_apart (by decide) (.inr (by omega))]

/-- A record with its times set holds the file with its times set. -/
theorem fileOf_withTimes {atime mtime : UInt64} :
    fileOf (withTimes atime mtime fnode) = (fileOf fnode).touched atime mtime := by
  refine File.ext statOf_withStat ?_
  exact slice_overwrite_apart (by decide) (.inr (by rw [length_bytes]))

/-- A record written to holds the file written to. -/
theorem fileOf_withContent (room : off + data.length ≤ dataSize - metadataSize) :
    fileOf (withContent data off fnode) = (fileOf fnode).written data off := by
  refine File.ext statOf_withStat ?_
  have whole : data.take (dataSize - metadataSize - off) = data := List.take_of_length_le (by omega)
  refine (contentOf_withContent room).trans ?_
  simp only [File.written, fileOf, overwrite, whole]

/-- A renamed record holds the same file. -/
theorem fileOf_withName (short : Short newname) : fileOf (withName newname fnode) = fileOf fnode :=
  File.ext (statOf_withName short) (slice_withName short (by decide) (by decide))

/-- The bytes copied by a read within the content field are those behind the offset. -/
theorem copySize_eq_span (inside : off ≤ dataSize - metadataSize) (below : off + size < 2 ^ 64) :
    copySize stSize size off = span stSize size off := by
  unfold copySize span
  unfold dataSize metadataSize at *
  rw [Nat.mod_eq_of_lt below]
  split <;> omega

/-- A read within the content field delivers the bytes of the file behind the offset. -/
theorem kvfsRead_span {size : UInt64} {off : Int64} (denotes : Denotes volume.table pathname fnode)
    (nonneg : 0 ≤ off.toInt) (inside : off.toInt.toNat ≤ dataSize - metadataSize)
    (below : off.toInt.toNat + size.toNat < 2 ^ 64)
    (sized : getStat (statOf fnode) .size ≤ dataSize - metadataSize) :
    kvfsRead volume pathname size off =
      let bytes := (fileOf fnode).bytes size.toNat off.toInt.toNat
      .ok ((bytes.length : Int), bytes) := by
  obtain ⟨left, right, _, returned⟩ := @kvfsRead_denoted _ _ _ size off denotes nonneg
  have counts := @copySize_eq_span (getStat (statOf fnode) .size) _ _ inside below
  have result := @bmod_copySize _ size.toNat off.toInt.toNat sized
  have room : off.toInt.toNat + span (getStat (statOf fnode) .size) size.toNat off.toInt.toNat ≤
      dataSize - metadataSize := by
    unfold span
    omega
  have bytesAre : (fileOf fnode).bytes size.toNat off.toInt.toNat =
      readContent fnode off.toInt.toNat
        (span (getStat (statOf fnode) .size) size.toNat off.toInt.toNat) := rfl
  have length : ((fileOf fnode).bytes size.toNat off.toInt.toNat).length =
      span (getStat (statOf fnode) .size) size.toNat off.toInt.toNat := length_slice room
  rw [returned]
  simp only
  rw [result, counts, length, bytesAre]
  generalize span (getStat (statOf fnode) .size) size.toNat off.toInt.toNat = copied at room ⊢
  have whole : (join (left ++ fnode :: right)).length =
      (left.length + (right.length + 1)) * fnodeSize := by
    rw [length_join, List.length_append, List.length_cons]
  have guard : ¬ (copied ≠ 0 ∧ left.length * fnodeSize + nameSize + metadataSize +
      off.toInt.toNat + copied > (join (left ++ fnode :: right)).length) := by
    rw [whole]
    unfold dataSize metadataSize fnodeSize nameSize at *
    omega
  rw [if_neg guard, join_content off.toInt.toNat room]

/-! ## Answers -/

/-- The two levels agree: the files in memory and those a mount would load are the store's. -/
structure Stores (volume : Volume) (store : Store) : Prop where
  /-- Names are unique in memory and in the file. -/
  sound : Sound volume
  /-- Every file ends within its content field. -/
  sizes : Lasts SizesFit volume
  /-- The table holds the store's files. -/
  files : filesOf volume.table = store.files
  /-- The table in the file holds the files last saved. -/
  saved : ∀ loaded superblock, kvfsInit volume.superblock = .ok (loaded, superblock) →
    filesOf loaded = store.saved

/-- The store has no file under an absent name. -/
theorem Stores.absent (stores : Stores volume store) (absent : Absent volume.table filename) :
    store.files filename = none := by
  rw [← stores.files]
  exact stores.sound.table.filesOf_absent absent

/-- The store has the file of the record with a name. -/
theorem Stores.first (stores : Stores volume store)
    (first : FirstNamed filename volume.table.entries left fnode right) :
    store.files filename = some (fileOf fnode) := by
  rw [← stores.files]
  exact stores.sound.table.filesOf_first first

/-- Where a lookup returns, it finds the record of the store's file or there is no file. -/
theorem Stores.lookup (stores : Stores volume store) (short : Short filename)
    {found : Option Nat} (searched : Kvfs.lookup volume.table filename = .ok found) :
    (∃ left fnode right, FirstNamed filename volume.table.entries left fnode right ∧
        found = some left.length ∧ store.files filename = some (fileOf fnode)) ∨
      (found = none ∧ store.files filename = none) := by
  rcases lookup_cases short volume.table with ⟨left, fnode, right, first, _, searched'⟩ |
      ⟨absent, _, searched'⟩ | searched'
  · rw [searched] at searched'
    exact .inl ⟨left, fnode, right, first, Except.ok.inj searched', stores.first first⟩
  · rw [searched] at searched'
    exact .inr ⟨Except.ok.inj searched', stores.absent absent⟩
  · rw [searched] at searched'
    contradiction

/-- `kvfs_getattr` answers what the store answers. -/
theorem Stores.getattr {lstat : Int × Option Stat} (stores : Stores volume store)
    (short : Short pathname)
    (done : volume.respond (.getattr lstat pathname) = .ok (output, after)) :
    store.respond (.getattr lstat pathname) = (output, store) := by
  rw [Volume.respond, kvfsGetattr] at done
  rw [Store.respond]
  by_cases root : pathname.bytes = "/".toUTF8.toList
  · rw [if_pos root] at done ⊢
    cases done
    rfl
  · rw [if_neg root] at done ⊢
    cases searched : Kvfs.lookup volume.table pathname with
    | error halt =>
      rw [searched] at done
      contradiction
    | ok found =>
      rw [searched] at done
      obtain ⟨left, fnode, right, first, rfl, there⟩ | ⟨rfl, nothing⟩ :=
        stores.lookup short searched
      · have entry : volume.table.entries[left.length]? = some fnode := by
          rw [first.place]
          simp
        simp only [Except.map, Option.bind_some, entry] at done
        cases done
        rw [there]
        rfl
      · cases done
        rw [nothing]
        rfl

/-- `kvfs_open` answers what the store answers. -/
theorem Stores.open (stores : Stores volume store) (short : Short pathname)
    (done : volume.respond (.open pathname) = .ok (output, after)) :
    store.respond (.open pathname) = (output, store) := by
  rw [Volume.respond, Volume.perform, kvfsOpen] at done
  · rw [Store.respond]
    cases searched : Kvfs.lookup volume.table pathname with
    | error halt =>
      rw [searched] at done
      contradiction
    | ok found =>
      rw [searched] at done
      cases done
      obtain ⟨left, fnode, right, first, rfl, there⟩ | ⟨rfl, nothing⟩ :=
        stores.lookup short searched
      · rw [there]
        rfl
      · rw [nothing]
        rfl
  · intro _ _ contrary
    cases contrary
  · intro _ _ _ contrary
    cases contrary

/-- `kvfs_read` answers what the store answers. -/
theorem Stores.read {size : UInt64} {off : Int64} (stores : Stores volume store)
    (fits : Fits (.read pathname size off))
    (done : volume.respond (.read pathname size off) = .ok (output, after)) :
    store.respond (.read pathname size off) = (output, store) := by
  obtain ⟨short, nonneg, inside, below⟩ := fits
  rw [Volume.respond] at done
  rw [Store.respond]
  cases searched : Kvfs.lookup volume.table pathname with
  | error halt =>
    rw [kvfsRead, searched] at done
    contradiction
  | ok found =>
    obtain ⟨left, fnode, right, first, rfl, there⟩ | ⟨rfl, nothing⟩ :=
      stores.lookup short searched
    · have entry : volume.table.entries[left.length]? = some fnode := by
        rw [first.place]
        simp
      have sized : getStat (statOf fnode) .size ≤ dataSize - metadataSize :=
        stores.sizes.table fnode first.mem
      have denotes : Denotes volume.table pathname fnode := ⟨left.length, searched, entry⟩
      rw [kvfsRead_span denotes nonneg inside below sized, Except.map, Except.ok.injEq,
        Prod.mk.injEq] at done
      rw [there, ← done.1]
    · rw [kvfsRead, searched] at done
      cases done
      rw [nothing]

/-! ## Steps -/

/-- Answering a call leaves the volume that performing it does. -/
theorem respond_volume : (volume.respond call).map Prod.snd = (volume.perform call).map Prod.snd := by
  have mapped : ∀ {α : Type} (x : Except Halt α) (f : α → Output × Volume) (g : α → Int × Volume),
      (∀ got, (f got).2 = (g got).2) → (x.map f).map Prod.snd = (x.map g).map Prod.snd := by
    intro α x f g same
    cases x with
    | error halt => rfl
    | ok got => exact congrArg Except.ok (same got)
  have plain : ((volume.perform call).map fun done => (Output.result done.1, done.2)).map Prod.snd =
      (volume.perform call).map Prod.snd := by
    cases volume.perform call <;> rfl
  cases call with
  | getattr lstat path => exact mapped _ _ _ fun _ => rfl
  | read pathname size off => exact mapped _ _ _ fun _ => rfl
  | _ => exact plain

/-- A call that is answered is performed. -/
theorem respond_performs (done : volume.respond call = .ok (output, after)) :
    ∃ result, volume.perform call = .ok (result, after) := by
  have same := @respond_volume volume call
  rw [done] at same
  cases performed : volume.perform call with
  | error halt =>
    rw [performed] at same
    contradiction
  | ok got =>
    rw [performed] at same
    exact ⟨got.1, congrArg Except.ok (Prod.ext rfl (Except.ok.inj same).symm)⟩

/-- A call that fills no buffer answers the result of performing it. -/
theorem respond_plain
    (plain : volume.respond call = (volume.perform call).map fun done => (.result done.1, done.2))
    (done : volume.respond call = .ok (output, after)) :
    ∃ result, volume.perform call = .ok (result, after) ∧ output = .result result := by
  obtain ⟨result, performed⟩ := respond_performs done
  rw [plain, performed] at done
  exact ⟨result, performed, (congrArg Prod.fst (Except.ok.inj done)).symm⟩

/-- A call that leaves the superblock file leaves what a mount would load. -/
theorem Stores.unsaved {store' : Store} (stores : Stores volume store) (sound : Sound after)
    (sizes : Lasts SizesFit after) (fileIs : after.superblock = volume.superblock)
    (files : filesOf after.table = store'.files) (savedIs : store'.saved = store.saved) :
    Stores after store' := by
  refine ⟨sound, sizes, files, fun loaded superblock loads => ?_⟩
  rw [fileIs] at loads
  rw [savedIs]
  exact stores.saved loaded superblock loads

/-- A call that saves a table of fewer than 2³¹ files leaves its files to the next mount. -/
theorem Stores.of_saved {files : Directory} (sound : Sound after) (sizes : Lasts SizesFit after)
    (few : after.table.entries.length < intLimit)
    (fileIs : after.superblock = some (image after.table)) (filesAre : filesOf after.table = files) :
    Stores after ⟨files, files⟩ := by
  refine ⟨sound, sizes, filesAre, fun loaded superblock loads => ?_⟩
  rw [fileIs, kvfsInit_image few] at loads
  cases loads
  exact filesAre

/-- `kvfs_utimens` sets the times of the first record with the name, or there is none; it returns
zero either way. -/
theorem kvfsUtimens_results {atime mtime : UInt64} {result : Int} (short : Short pathname)
    (done : kvfsUtimens volume pathname atime mtime = .ok (result, after)) :
    result = 0 ∧ ((∃ left fnode right, FirstNamed pathname volume.table.entries left fnode right ∧
        after.superblock = volume.superblock ∧
        after.table.entries = left ++ withTimes atime mtime fnode :: right) ∨
      (after = volume ∧ Absent volume.table pathname)) := by
  rw [kvfsUtimens] at done
  rcases lookup_cases short volume.table with ⟨left, fnode, right, first, _, searched⟩ |
      ⟨absent, _, searched⟩ | searched
  · rw [searched] at done
    cases done
    refine ⟨rfl, .inl ⟨left, fnode, right, first, rfl, ?_⟩⟩
    simp only [Table.modify]
    rw [first.place, modify_split]
  · rw [searched] at done
    cases done
    exact ⟨rfl, .inr ⟨rfl, absent⟩⟩
  · rw [searched] at done
    contradiction

/-- `kvfs_write` of a range below 2⁶³ writes an existing file within its content, or there is no
such file or no such room and it returns zero. -/
theorem kvfsWrite_results {off : Int64} {result : Int} (short : Short filename)
    (nonneg : 0 ≤ off.toInt) (small : data.length < 2 ^ 63)
    (done : kvfsWrite volume filename data off = .ok (result, after)) :
    (result = 0 ∧ after = volume ∧
        (dataSize - metadataSize < off.toInt.toNat + data.length ∨ Absent volume.table filename)) ∨
      ∃ left fnode right, FirstNamed filename volume.table.entries left fnode right ∧
        off.toInt.toNat + data.length ≤ dataSize - metadataSize ∧ result = data.length ∧
        after.superblock = volume.superblock ∧
        after.table.entries = left ++ withContent data off.toInt.toNat fnode :: right := by
  by_cases room : off.toInt.toNat + data.length ≤ dataSize - metadataSize
  · rcases lookup_cases short volume.table with ⟨left, fnode, right, first, _, searched⟩ |
        ⟨absent, _, searched⟩ | searched
    · rw [kvfsWrite_found searched nonneg room] at done
      cases done
      refine .inr ⟨left, fnode, right, first, room, rfl, rfl, ?_⟩
      simp only [Table.modify]
      rw [first.place, modify_split]
    · rw [kvfsWrite, searched] at done
      split at done <;> cases done <;> exact .inl ⟨rfl, rfl, .inr absent⟩
    · rw [kvfsWrite, searched] at done
      split at done
      · cases done
        exact .inl ⟨rfl, rfl, .inl (by omega)⟩
      · contradiction
  · have limit := off.toInt_lt
    have sum : ((off.toInt + data.length) % 2 ^ 64).toNat = off.toInt.toNat + data.length := by
      omega
    rw [kvfsWrite] at done
    simp only [sum, if_pos (not_le.mp room)] at done
    cases done
    exact .inl ⟨rfl, rfl, .inl (not_le.mp room)⟩

variable {label : Call × Output}

/-- A call made by a user keeps names unique. -/
theorem UserStep.sound (taken : UserStep volume label after) (sound : Sound volume) :
    Sound after := by
  obtain ⟨result, performed⟩ := respond_performs taken.returned
  have named : NamedStep volume (label.1, result) after := ⟨taken.admissible, performed⟩
  apply sound.step named
  obtain ⟨call, output⟩ := label
  have apart := taken.apart
  cases call with
  | rename name newname => exact apart
  | _ => trivial

/-- A call made by a user keeps every file within its content field. -/
theorem UserStep.sizes (taken : UserStep volume label after) (sizes : Lasts SizesFit volume) :
    Lasts SizesFit after := by
  obtain ⟨result, performed⟩ := respond_performs taken.returned
  have bounded : Bounded label.1 := by
    obtain ⟨call, output⟩ := label
    have admissible := taken.admissible
    have fits := taken.fits
    cases call with
    | mknod around pathname mode dev => exact admissible.1
    | write filename data off => exact ⟨admissible.1, admissible.2, fits⟩
    | utimens | unlink | rename => exact admissible
    | _ => trivial
  have step : BoundedStep volume (label.1, result) after := ⟨bounded, performed⟩
  exact sizes.boundedStep step

/-- The store answers every call as the volume does, and goes on agreeing with it. -/
theorem Stores.step (stores : Stores volume store) (taken : UserStep volume label after) :
    ∃ store', store.Step label store' ∧ Stores after store' := by
  have sound := taken.sound stores.sound
  have sizes := taken.sizes stores.sizes
  obtain ⟨call, output⟩ := label
  obtain ⟨admissible, fits, apart, few, done⟩ := taken
  have proper := stores.sound.table
  have readOnly : ReadOnly call → store.respond call = (output, store) →
      ∃ store', store.Step (call, output) store' ∧ Stores after store' := by
    intro readOnly answered
    obtain ⟨result, performed⟩ := respond_performs done
    rw [readOnly.unchanged performed]
    exact ⟨store, answered, stores⟩
  cases call with
  | getattr lstat path => exact readOnly (.getattr lstat path) (stores.getattr fits done)
  | truncate path size =>
    apply readOnly (.truncate path size)
    cases done
    rfl
  | «open» pathname => exact readOnly (.open pathname) (stores.open fits done)
  | read pathname size off => exact readOnly (.read pathname size off) (stores.read fits done)
  | init =>
    obtain ⟨result, performed, rfl⟩ := respond_plain rfl done
    have loads : kvfsInit volume.superblock = .ok (after.table, after.superblock) := by
      rw [Volume.perform] at performed
      cases loads : kvfsInit volume.superblock with
      | error halt =>
        rw [loads] at performed
        contradiction
      | ok mounted =>
        rw [loads] at performed
        cases performed
        rfl
    obtain ⟨rfl, _⟩ := init_cases performed
    have filesAre := stores.saved _ _ loads
    refine ⟨_, rfl, sound, sizes, filesAre, fun loaded superblock loads' => ?_⟩
    have again := (mounted_of_init performed).again
    rw [again] at loads'
    cases loads'
    exact filesAre
  | flush =>
    obtain ⟨result, performed, rfl⟩ := respond_plain rfl done
    obtain ⟨rfl, tableIs, fileIs⟩ := saved_cases performed
    have filesAre : filesOf after.table = store.files := tableIs ▸ stores.files
    exact ⟨_, rfl, .of_saved sound sizes (tableIs ▸ few) (tableIs ▸ fileIs) filesAre⟩
  | mknod around pathname mode dev =>
    obtain ⟨result, performed, rfl⟩ := respond_plain rfl done
    obtain ⟨rfl, fileIs, appended⟩ := kvfsMknod_cases performed
    have grown := proper.filesOf_append admissible.2 (named_mknodFnode admissible.1) appended
    rw [fileOf_mknodFnode admissible.1, stores.files] at grown
    exact ⟨_, rfl, stores.unsaved sound sizes fileIs grown rfl⟩
  | utimens pathname atime mtime =>
    obtain ⟨result, performed, rfl⟩ := respond_plain rfl done
    obtain ⟨rfl, ⟨left, fnode, right, first, fileIs, changed⟩ | ⟨rfl, absent⟩⟩ :=
      kvfsUtimens_results admissible performed
    · have set := proper.filesOf_replace first ((named_withTimes admissible).mpr first.named) changed
      rw [fileOf_withTimes, stores.files] at set
      refine ⟨⟨Function.update store.files pathname (some ((fileOf fnode).touched atime mtime)),
        store.saved⟩, ?_, stores.unsaved sound sizes fileIs set rfl⟩
      rw [Store.Step, Store.respond, stores.first first]
    · refine ⟨store, ?_, stores⟩
      rw [Store.Step, Store.respond, stores.absent absent]
  | write filename data off =>
    obtain ⟨result, performed, rfl⟩ := respond_plain rfl done
    obtain ⟨rfl, rfl, nothing⟩ | ⟨left, fnode, right, first, room, rfl, fileIs, changed⟩ :=
      kvfsWrite_results admissible.1 admissible.2 fits performed
    · refine ⟨store, ?_, stores⟩
      rw [Store.Step, Store.respond]
      by_cases large : off.toInt.toNat + data.length > dataSize - metadataSize
      · rw [if_pos large]
      · rw [if_neg large, stores.absent (nothing.resolve_left large)]
    · have put := proper.filesOf_replace first
        ((named_withContent admissible.1).mpr first.named) changed
      rw [fileOf_withContent room, stores.files] at put
      refine ⟨⟨Function.update store.files filename
        (some ((fileOf fnode).written data off.toInt.toNat)), store.saved⟩, ?_,
        stores.unsaved sound sizes fileIs put rfl⟩
      rw [Store.Step, Store.respond, if_neg (not_lt.mpr room), stores.first first]
  | unlink pathname =>
    obtain ⟨result, performed, rfl⟩ := respond_plain rfl done
    obtain ⟨rfl, rfl, absent⟩ | ⟨left, fnode, right, first, _, rfl, removed, fileIs⟩ :=
      kvfsUnlink_cases admissible performed
    · refine ⟨store, ?_, stores⟩
      rw [Store.Step, Store.respond, stores.absent absent]
    · have gone := proper.filesOf_remove first removed
      have fewer : after.table.entries.length < intLimit := by
        rw [first.place, List.length_append, List.length_cons] at few
        rw [removed, List.length_append]
        omega
      rw [stores.files] at gone
      refine ⟨_, ?_, .of_saved sound sizes fewer fileIs gone⟩
      rw [Store.Step, Store.respond, stores.first first]
  | rename name newname =>
    obtain ⟨result, performed, rfl⟩ := respond_plain rfl done
    obtain ⟨rfl, rfl, absent⟩ | ⟨left, fnode, right, first, _, rfl, changed, fileIs⟩ :=
      kvfsRename_cases admissible.1 performed
    · refine ⟨store, ?_, stores⟩
      rw [Store.Step, Store.respond, stores.absent absent]
    · have moved := proper.filesOf_rename first (named_withName admissible.2) changed
        (apart first.present)
      have fewer : after.table.entries.length < intLimit := by
        rw [first.place, List.length_append, List.length_cons] at few
        rw [changed, List.length_append, List.length_cons]
        exact few
      rw [fileOf_withName admissible.2, stores.files] at moved
      refine ⟨_, ?_, .of_saved sound sizes fewer fileIs moved⟩
      rw [Store.Step, Store.respond, stores.first first]

/-- An empty mount holds the store without files. -/
theorem EmptyMount.stores (mount : EmptyMount volume) : Stores volume .empty := by
  have nothing : filesOf volume.table = Store.empty.files := by
    funext path
    rw [filesOf, mount.none]
    rfl
  refine ⟨mount.sound, mount.mounted.lasts (mount.none ▸ sizesFit_empty), nothing,
    fun loaded superblock loads => ?_⟩
  rw [mount.mounted.again] at loads
  cases loads
  exact nothing

/-- A run of users' calls is a run of the store that it agrees with. -/
theorem Stores.simulate {run : List ((Call × Output) × Volume)} (stores : Stores volume store)
    (steps : IsRun UserStep volume run) :
    ∃ run', IsRun Store.Step store run' ∧ run'.map Prod.fst = run.map Prod.fst ∧
      Stores (final volume run) (final store run') :=
  steps.simulate stores fun _ _ _ _ stores taken => stores.step taken

/-- From an empty mount the operations answer every sequence of calls as the store without files
does, and the table ends up with the files that the store ends up with. -/
theorem volume_refines_store {run : List ((Call × Output) × Volume)} (mount : EmptyMount start)
    (steps : IsRun UserStep start run) :
    ∃ run', IsRun Store.Step .empty run' ∧ run'.map Prod.fst = run.map Prod.fst ∧
      Stores (final start run) (final .empty run') :=
  mount.stores.simulate steps

/-! ## A run -/

/-- Answer a call as users make it, when the answer is the one expected. -/
def Volume.serve (volume : Volume) (label : Call × Output) : Option Volume :=
  match volume.respond label.1 with
  | .ok (output, after) =>
    if Admissible volume label.1 ∧ Fits label.1 ∧ RenamesApart volume (label.1, 0) after ∧
        volume.table.entries.length < intLimit ∧ output = label.2 then some after
    else none
  | .error _ => none

/-- A call served is a step. -/
theorem serve_step (source : Volume) (label : Call × Output) (target : Volume)
    (served : source.serve label = some target) : UserStep source label target := by
  rw [Volume.serve] at served
  split at served
  · rename_i output after returned
    split at served
    · rename_i usual
      obtain ⟨admissible, fits, apart, few, rfl⟩ := usual
      obtain rfl := Option.some.inj served
      exact ⟨admissible, fits, apart, few, returned⟩
    · contradiction
  · contradiction

/-- Make two files. -/
def makeTwo : List (Call × Output) :=
  [(.mknod someSurroundings pathA 33188 0, .result 0), (.mknod someSurroundings pathB 33188 0, .result 0)]

/-- Write to "/a" behind a gap. -/
def writeA : Call × Output := (.write pathA [104, 105] 3, .result 2)

/-- Change the other file and the times of "/a". -/
def changeOthers : List (Call × Output) :=
  [(.write pathB [106] 0, .result 1), (.utimens pathA 5 6, .result 0), (.unlink pathB, .result 0)]

/-- Read "/a" behind the gap. -/
def readA : Call × Output := (.read pathA 2 3, .buffer 2 [104, 105])

/-- The two files made, with "/a" written to, the other changed and "/a" read. -/
def sharedRun : List ((Call × Output) × Volume) :=
  trace Volume.serve emptyVolume (makeTwo ++ writeA :: changeOthers ++ [readA])

/-- The run is performed whole, and the store without files gives the same answers. -/
theorem volume_refines_store_sharedRun : sharedRun.length = 7 ∧
    ∃ run, IsRun Store.Step .empty run ∧ run.map Prod.fst = sharedRun.map Prod.fst ∧
      Stores (final emptyVolume sharedRun) (final .empty run) := by
  have steps : IsRun UserStep emptyVolume sharedRun := isRun_trace serve_step _ _
  exact ⟨by decide +kernel, volume_refines_store emptyVolume_mount steps⟩

end OsAssignments.Kvfs
