import OsAssignments.Kvfs.Writing

/-!
# Truncating and rewriting a file

A program that replaces a file truncates it and writes the new content in chunks, each behind the
one before. `kvfs_truncate` does nothing, and every `kvfs_write` ends the file behind its chunk, so
the new content comes out right as soon as there is a chunk. A path that is longer than the name
field goes on in the size of the file, and may be lost with it.
-/

namespace OsAssignments.Kvfs

open ByteRecord

/-! ## Calls -/

/-- The state after some calls, all of which return. -/
def Volume.performAll : Volume → List Call → Except Halt Volume
  | volume, [] => .ok volume
  | volume, call :: rest =>
    match volume.perform call with
    | .error halt => .error halt
    | .ok (_, after) => after.performAll rest

/-- The writes of chunks at consecutive offsets. -/
def writeCalls (path : CString) : Nat → List (List UInt8) → List Call
  | _, [] => []
  | off, chunk :: rest => .write path chunk (Int64.ofNat off) :: writeCalls path (off + chunk.length) rest

/-- A truncation and the writes of chunks behind what it leaves. -/
def rewriteCalls (path : CString) (n : Nat) (chunks : List (List UInt8)) : List Call :=
  .truncate path (Int64.ofNat n) :: writeCalls path n chunks

/-- The file of a record has been cut and rewritten: it has the first bytes of the old content and
the chunks behind them, and no more. -/
structure Rewritten (after : Volume) (path : CString) (n : Nat) (chunks : List (List UInt8))
    (fnode : Fnode) : Prop where
  /-- `kvfs_getattr` reports the size of what was kept and of the chunks. -/
  size : ∀ lstat, ∃ st, kvfsGetattr lstat after path = .ok (0, some st) ∧
    stSize st = ((n + chunks.flatten.length : Nat) : Int)
  /-- `kvfs_read` of so many bytes delivers them. -/
  content : kvfsRead after path (UInt64.ofNat (n + chunks.flatten.length)) 0 =
    .ok (((n + chunks.flatten.length : Nat) : Int), (contentOf fnode).take n ++ chunks.flatten)

/-- The calls return, and the path finds the same record, cut and rewritten. -/
def Rewrites (volume : Volume) (path : CString) (n : Nat) (chunks : List (List UInt8))
    (fnode : Fnode) : Prop :=
  ∃ index after, lookup volume.table path = .ok (some index) ∧
    volume.performAll (rewriteCalls path n chunks) = .ok after ∧
    lookup after.table path = .ok (some index) ∧ Rewritten after path n chunks fnode

/-- A record with the size of its file set. -/
def withSize (size : Nat) (fnode : Fnode) : Fnode :=
  withStat fnode (setStat (statOf fnode) .size size)

/-- The path is not the root, there is a chunk or nothing to cut off, and the path stays the name
of the record with the size that each write sets. -/
structure Replaces (path : CString) (n : Nat) (chunks : List (List UInt8)) (fnode : Fnode) : Prop where
  /-- The path is not that of the root directory. -/
  file : path.bytes ≠ "/".toUTF8.toList
  /-- Without a chunk there is nothing to cut off. -/
  cut : chunks = [] → stSize (statOf fnode) = n
  /-- The sizes set do not change the name. -/
  names : ∀ taken, taken ≠ [] → taken <+: chunks →
    Named path (withSize (n + taken.flatten.length) fnode)

variable {volume after : Volume} {path : CString} {fnode written : Fnode} {data chunk : List UInt8}
  {off size index n : Nat} {chunks : List (List UInt8)} {result : Int}

/-! ## Records -/

/-- Overwriting in the content leaves the stat alone. -/
theorem statOf_overwrite :
    statOf (fnode.overwrite (nameSize + metadataSize + off) data) = statOf fnode := by
  have kept := @slice_overwrite_apart fnodeSize nameSize (nameSize + metadataSize + off) metadataSize
    data fnode (by decide) (.inl (by omega))
  simp only [statOf, kept]

/-- The size set last is the one that counts. -/
theorem withSize_withSize : withSize size (withSize n fnode) = withSize size fnode := by
  have field : setStat (setStat (statOf fnode) .size n) .size size = setStat (statOf fnode) .size size :=
    overwrite_overwrite (by rw [LittleEndian.length_encode, LittleEndian.length_encode])
  have stat : statOf (withSize n fnode) = setStat (statOf fnode) .size n := statOf_withStat
  rw [withSize, stat, field]
  exact overwrite_overwrite (by rw [length_bytes, length_bytes])

/-- Setting the size and overwriting in the content are done in any order. -/
theorem withSize_overwrite :
    withSize size (fnode.overwrite (nameSize + metadataSize + off) data) =
      (withSize size fnode).overwrite (nameSize + metadataSize + off) data := by
  rw [withSize, statOf_overwrite]
  exact overwrite_comm (.inr (by rw [length_bytes]; omega))

/-- A record with new content has a new size and its content overwritten. -/
theorem withContent_eq : withContent data off fnode =
    (withSize (off + data.length) fnode).overwrite (nameSize + metadataSize + off) data :=
  overwrite_comm (.inr (by rw [length_bytes]; omega))

/-- A stat with a size that a file can have has a zero byte. -/
theorem zero_mem_withSize (room : size ≤ dataSize - metadataSize) :
    (0 : UInt8) ∈ (statOf (withSize size fnode)).bytes := by
  have stat : statOf (withSize size fnode) =
      (statOf fnode).overwrite 48 (LittleEndian.encode 8 size) := statOf_withStat
  have field := @slice_overwrite metadataSize 48 (LittleEndian.encode 8 size) (statOf fnode)
    (by rw [LittleEndian.length_encode]; decide)
  have small : size < 256 ^ 7 := by
    unfold dataSize metadataSize at room
    omega
  have zero := LittleEndian.zero_mem_encode small
  rw [stat]
  rw [← field] at zero
  exact List.mem_of_mem_drop (List.mem_of_mem_take zero)

/-- What a record is named does not depend on its content when its stat has a zero byte. -/
theorem named_overwrite_content (zero : (0 : UInt8) ∈ (statOf fnode).bytes) :
    Named path (fnode.overwrite (nameSize + metadataSize + off) data) ↔ Named path fnode := by
  have front : ∀ other : Fnode, other.bytes = other.slice 0 (nameSize + metadataSize) ++
      other.bytes.drop (nameSize + metadataSize) := fun other =>
    (List.take_append_drop (nameSize + metadataSize) other.bytes).symm
  have kept : (fnode.overwrite (nameSize + metadataSize + off) data).slice 0 (nameSize + metadataSize) =
      fnode.slice 0 (nameSize + metadataSize) :=
    slice_overwrite_apart (by decide) (.inl (by omega))
  have inside : (0 : UInt8) ∈ fnode.slice 0 (nameSize + metadataSize) := by
    rw [slice_add, Nat.zero_add]
    exact List.mem_append_right _ zero
  rw [Named, Named, front, kept, front fnode, CString.stored_prefix_append _ inside,
    CString.stored_prefix_append _ inside]

/-- What a record with new content is named is what it is named with the new size. -/
theorem named_withContent_iff (room : off + data.length ≤ dataSize - metadataSize) :
    Named path (withContent data off fnode) ↔ Named path (withSize (off + data.length) fnode) := by
  rw [withContent_eq]
  exact named_overwrite_content (zero_mem_withSize room)

/-- What a record is named with a size does not depend on what was written to it before. -/
theorem named_withSize_withContent (room : size ≤ dataSize - metadataSize) :
    Named path (withSize size (withContent data off fnode)) ↔ Named path (withSize size fnode) := by
  rw [withContent_eq, withSize_overwrite, withSize_withSize]
  exact named_overwrite_content (zero_mem_withSize room)

/-- A record with new content has a zero byte. -/
theorem zero_mem_withContent (room : off + data.length ≤ dataSize - metadataSize) :
    (0 : UInt8) ∈ (withContent data off fnode).bytes := by
  have zero := @zero_mem_withSize fnode _ room
  rw [← @statOf_overwrite _ data off, ← withContent_eq] at zero
  exact List.mem_of_mem_drop (List.mem_of_mem_take zero)

/-- The content up to the end of the bytes written. -/
theorem take_contentOf_withContent (room : off + data.length ≤ dataSize - metadataSize) :
    (contentOf (withContent data off fnode)).take (off + data.length) =
      (contentOf fnode).take off ++ data := by
  have front : ((contentOf fnode).take off ++ data).length = off + data.length := by
    rw [List.length_append, List.length_take, length_contentOf]
    omega
  rw [contentOf_withContent room, List.take_left' front]

/-! ## Writes -/

/-- The record at an index has a zero byte and another name than a path. -/
def Lost (table : Table) (path : CString) (index : Nat) : Prop :=
  ∃ fnode, table.entries[index]? = some fnode ∧ (0 : UInt8) ∈ fnode.bytes ∧ ¬ Named path fnode

/-- A path does not find a record that it has lost. -/
theorem Lost.elsewhere {table : Table} (lost : Lost table path index) :
    lookup table path ≠ .ok (some index) := by
  obtain ⟨fnode, there, zero, other⟩ := lost
  exact fun searched => other (lookup_named zero there searched)

/-- `kvfs_write` does not change a record that its path has lost. -/
theorem Lost.write {off : Int64} (lost : Lost volume.table path index)
    (done : kvfsWrite volume path data off = .ok (result, after)) : Lost after.table path index := by
  rcases kvfsWrite_done done with rfl | ⟨place, searched, _, _, rfl⟩
  · exact lost
  · have apart : place ≠ index := by
      rintro rfl
      exact lost.elsewhere searched
    obtain ⟨fnode, there, zero, other⟩ := lost
    exact ⟨fnode, (List.getElem?_modify_ne _ _ apart).trans there, zero, other⟩

/-- Nor do writes of chunks. -/
theorem Lost.writeCalls (lost : Lost volume.table path index)
    (done : volume.performAll (writeCalls path off chunks) = .ok after) :
    Lost after.table path index := by
  induction chunks generalizing volume off with
  | nil =>
    cases done
    exact lost
  | cons chunk rest ih =>
    rw [Kvfs.writeCalls, Volume.performAll] at done
    split at done
    · cases done
    · rename_i performed
      exact ih (lost.write performed) done

/-- What writes of chunks leave of a record that the path still finds. -/
structure Wrote (after : Volume) (path : CString) (index off : Nat) (chunks : List (List UInt8))
    (fnode written : Fnode) : Prop where
  /-- The path finds it. -/
  found : lookup after.table path = .ok (some index)
  /-- It is there. -/
  there : after.table.entries[index]? = some written
  /-- Its file ends behind the last chunk. -/
  size : chunks ≠ [] → getStat (statOf written) .size = off + chunks.flatten.length
  /-- Without a chunk it is as it was. -/
  nothing : chunks = [] → written = fnode
  /-- The chunks follow what was before the first of them. -/
  content : (contentOf written).take (off + chunks.flatten.length) =
    (contentOf fnode).take off ++ chunks.flatten

/-- A write of a chunk to a record that the path finds. -/
theorem perform_write (searched : lookup volume.table path = .ok (some index))
    (room : off + chunk.length ≤ dataSize - metadataSize) :
    volume.perform (.write path chunk (Int64.ofNat off)) = .ok ((chunk.length : Int),
      { volume with table := volume.table.modify index (withContent chunk off) }) := by
  have place : (Int64.ofNat off).toInt = off := by
    apply Int64.toInt_ofNat_of_lt
    unfold dataSize metadataSize at room
    omega
  have written := @kvfsWrite_found volume path chunk index (Int64.ofNat off) searched (by omega)
    (by rw [place]; exact room)
  rw [place] at written
  exact written

/-- Fewer chunks have fewer bytes. -/
theorem flatten_prefix_le {taken chunks : List (List UInt8)} (front : taken <+: chunks) :
    taken.flatten.length ≤ chunks.flatten.length := by
  obtain ⟨rest, rfl⟩ := front
  rw [List.flatten_append, List.length_append]
  omega

/-- Chunks are written one behind the other as long as the path stays the name of the record. -/
theorem writeCalls_wrote (searched : lookup volume.table path = .ok (some index))
    (there : volume.table.entries[index]? = some fnode)
    (room : off + chunks.flatten.length ≤ dataSize - metadataSize)
    (names : ∀ taken, taken ≠ [] → taken <+: chunks →
      Named path (withSize (off + taken.flatten.length) fnode)) :
    ∃ after written, volume.performAll (writeCalls path off chunks) = .ok after ∧
      Wrote after path index off chunks fnode written := by
  induction chunks generalizing volume fnode off with
  | nil => exact ⟨volume, fnode, rfl, searched, there, by simp, fun _ => rfl, by simp⟩
  | cons chunk rest ih =>
    rw [List.flatten_cons, List.length_append, ← Nat.add_assoc] at room
    have fits : off + chunk.length ≤ dataSize - metadataSize := by omega
    have first := names [chunk] (by simp) ⟨rest, rfl⟩
    rw [List.flatten_singleton, ← named_withContent_iff fits] at first
    have searched' := lookup_modify there first searched
    have there' : (volume.table.modify index (withContent chunk off)).entries[index]? =
        some (withContent chunk off fnode) := modify_there there
    obtain ⟨after, written, done, wrote⟩ :=
      @ih { volume with table := volume.table.modify index (withContent chunk off) } _ _ searched' there'
        room fun taken _ front => by
          have later := names (chunk :: taken) (by simp) (List.cons_prefix_cons.mpr ⟨rfl, front⟩)
          have size := flatten_prefix_le front
          rw [List.flatten_cons, List.length_append, ← Nat.add_assoc] at later
          exact (named_withSize_withContent (by omega)).mpr later
    refine ⟨after, written, ?_, wrote.found, wrote.there, fun _ => ?_, by simp, ?_⟩
    · rw [writeCalls, Volume.performAll, perform_write searched fits]
      exact done
    · rw [List.flatten_cons, List.length_append, ← Nat.add_assoc]
      by_cases last : rest = []
      · rw [wrote.nothing last, getStat_withContent fits, last]
        rfl
      · exact wrote.size last
    · rw [List.flatten_cons, List.length_append, ← Nat.add_assoc, wrote.content,
        take_contentOf_withContent fits, List.append_assoc]

/-- Where the path finds the record after writes of chunks, it was the name of it all along. -/
theorem writeCalls_names (searched : lookup volume.table path = .ok (some index))
    (there : volume.table.entries[index]? = some fnode)
    (room : off + chunks.flatten.length ≤ dataSize - metadataSize)
    (done : volume.performAll (writeCalls path off chunks) = .ok after)
    (found : lookup after.table path = .ok (some index)) :
    ∀ taken, taken ≠ [] → taken <+: chunks →
      Named path (withSize (off + taken.flatten.length) fnode) := by
  induction chunks generalizing volume fnode off with
  | nil =>
    intro taken nonempty front
    exact absurd (List.prefix_nil.mp front) nonempty
  | cons chunk rest ih =>
    rw [List.flatten_cons, List.length_append, ← Nat.add_assoc] at room
    have fits : off + chunk.length ≤ dataSize - metadataSize := by omega
    rw [writeCalls, Volume.performAll, perform_write searched fits] at done
    have named : Named path (withContent chunk off fnode) := by
      by_contra other
      have lost : Lost (volume.table.modify index (withContent chunk off)) path index :=
        ⟨_, modify_there there, zero_mem_withContent fits, other⟩
      exact (lost.writeCalls done).elsewhere found
    intro taken nonempty front
    cases taken with
    | nil => exact absurd rfl nonempty
    | cons first taken =>
      obtain ⟨rfl, later⟩ := List.cons_prefix_cons.mp front
      rw [List.flatten_cons, List.length_append, ← Nat.add_assoc]
      by_cases last : taken = []
      · rw [last]
        exact (named_withContent_iff fits).mp named
      · have size := flatten_prefix_le later
        have there' : (volume.table.modify index (withContent first off)).entries[index]? =
            some (withContent first off fnode) := modify_there there
        exact (named_withSize_withContent (by omega)).mp
          (ih (lookup_modify there named searched) there' room done taken last later)

/-! ## Reports -/

/-- `kvfs_getattr` of a path that finds a record reports its stat. -/
theorem kvfsGetattr_found (file : path.bytes ≠ "/".toUTF8.toList) (lstat : Int × Option Stat)
    (searched : lookup volume.table path = .ok (some index))
    (there : volume.table.entries[index]? = some fnode) :
    kvfsGetattr lstat volume path = .ok (0, some (statOf fnode)) := by
  rw [kvfsGetattr, if_neg file, searched, Except.map, Option.bind_some, there]

/-- A size that is not negative is stored as it is. -/
theorem getStat_of_stSize {st : Stat} (size : stSize st = n) : getStat st .size = n := by
  have bound := LittleEndian.decode_lt (st.slice StatField.size.offset StatField.size.width)
  rw [length_slice (by decide)] at bound
  have width : 256 ^ StatField.size.width = 2 ^ 64 := by decide
  rw [width, ← getStat] at bound
  unfold stSize at size
  generalize getStat st .size = stored at size bound
  unfold Int.bmod at size
  simp only at size
  split at size <;> omega

/-- A short path stays the name of the record with any size. -/
theorem names_of_short (short : Short path) (denotes : Denotes volume.table path fnode) :
    Named path (withSize size fnode) := by
  obtain ⟨left, right, first, _⟩ := (denotes_iff short).mp denotes
  exact (named_withStat short).mpr first.named

/-- Where a file is cut and rewritten there is a chunk or nothing to cut off, and the path stays its
name. -/
theorem Rewrites.replaces (rewrites : Rewrites volume path n chunks fnode)
    (denotes : Denotes volume.table path fnode)
    (room : n + chunks.flatten.length ≤ dataSize - metadataSize) :
    Replaces path n chunks fnode := by
  obtain ⟨index, searched, there⟩ := denotes
  obtain ⟨index', after, searched', done, found, rewritten⟩ := rewrites
  obtain rfl : index = index' := by simpa [searched] using searched'
  -- `kvfs_truncate` leaves the volume to the writes.
  have written : volume.performAll (writeCalls path n chunks) = .ok after := done
  have file : path.bytes ≠ "/".toUTF8.toList := by
    intro root
    obtain ⟨st, got, _⟩ := rewritten.size (0, none)
    rw [kvfsGetattr, if_pos root] at got
    simp at got
  refine ⟨file, fun none => ?_, writeCalls_names searched there room written found⟩
  subst none
  obtain rfl : volume = after := Except.ok.inj written
  obtain ⟨st, got, size⟩ := rewritten.size (0, none)
  rw [kvfsGetattr_found file (0, none) searched there] at got
  obtain rfl : statOf fnode = st := by simpa using got
  exact size

/-- Where there is a chunk or nothing to cut off, and the path stays its name, a file is cut and
rewritten. -/
theorem Replaces.rewrites (replaces : Replaces path n chunks fnode)
    (denotes : Denotes volume.table path fnode)
    (room : n + chunks.flatten.length ≤ dataSize - metadataSize) :
    Rewrites volume path n chunks fnode := by
  obtain ⟨file, cut, names⟩ := replaces
  obtain ⟨index, searched, there⟩ := denotes
  obtain ⟨after, written, done, wrote⟩ := writeCalls_wrote searched there room names
  have size : getStat (statOf written) .size = n + chunks.flatten.length := by
    by_cases none : chunks = []
    · rw [wrote.nothing none, getStat_of_stSize (cut none), none]
      rfl
    · exact wrote.size none
  have asked : (UInt64.ofNat (n + chunks.flatten.length)).toNat = n + chunks.flatten.length := by
    apply UInt64.toNat_ofNat_of_lt'
    unfold UInt64.size
    unfold dataSize metadataSize at room
    omega
  have all : readCount (n + chunks.flatten.length) (n + chunks.flatten.length)
      (0 : Int64).toInt.toNat = n + chunks.flatten.length := Nat.min_self _
  have delivered := @kvfsRead_within after path written (UInt64.ofNat (n + chunks.flatten.length)) 0
    ⟨index, wrote.found, wrote.there⟩ (by rw [size]; exact room) (by decide) (.inr (.inl (by decide)))
  refine ⟨index, after, searched, done, wrote.found, fun lstat => ⟨_,
    kvfsGetattr_found file lstat wrote.found wrote.there, stSize_of_getStat size room⟩, ?_⟩
  rw [delivered, size, asked, all]
  exact congrArg (fun bytes => Except.ok (_, bytes)) wrote.content

/-- Truncating an existing file and writing chunks behind what should be left replaces the rest of
it by the chunks exactly when there is a chunk, or nothing to cut off, and the path stays its
name. -/
theorem rewrites_iff (denotes : Denotes volume.table path fnode)
    (room : n + chunks.flatten.length ≤ dataSize - metadataSize) :
    Rewrites volume path n chunks fnode ↔ Replaces path n chunks fnode :=
  ⟨fun rewrites => rewrites.replaces denotes room, fun replaces => replaces.rewrites denotes room⟩

/-- A file of four bytes that is truncated and not written to keeps them. -/
theorem truncate_keeps : ¬ ∀ (volume : Volume) (path : CString) (fnode : Fnode) (n : Nat)
    (chunks : List (List UInt8)), Denotes volume.table path fnode → (n : Int) ≤ stSize (statOf fnode) →
    n + chunks.flatten.length ≤ dataSize - metadataSize → Rewrites volume path n chunks fnode := by
  intro claim
  have rewrites := claim fourBytesVolume pathA fourBytes 0 [] fourBytes_denoted (by decide +kernel)
    (by decide)
  have replaces := rewrites.replaces fourBytes_denoted (by decide)
  exact absurd (replaces.cut rfl) (by decide +kernel)

/-- Its last two bytes are replaced by three in two chunks. -/
theorem rewrites_fourBytes : Rewrites fourBytesVolume pathA 2 [[120], [121, 122]] fourBytes :=
  (rewrites_iff fourBytes_denoted (by decide)).mpr
    ⟨by decide +kernel, by simp, fun _ _ _ => names_of_short (by decide) fourBytes_denoted⟩

end OsAssignments.Kvfs
