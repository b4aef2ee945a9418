import OsAssignments.Kvfs.Superblock
import OsAssignments.Library.Transition

/-!
# The operations

The FUSE operations of the KVFS over its two pieces of state, the table in memory and the
superblock file. `kvfs_mknod`, `kvfs_write` and `kvfs_utimens` change the table alone;
`kvfs_unlink`, `kvfs_rename` and `kvfs_flush` save it. A call that ends the process or that C
leaves undefined returns nothing here. `kvfs_read` and `kvfs_getattr` fill a buffer of their
caller and change neither piece.
-/

namespace OsAssignments.Kvfs

open ByteRecord

/-- The state of a mounted KVFS. -/
structure Volume where
  /-- The table that the global `kvfs` points to. -/
  table : Table
  /-- The superblock file, when there is one. -/
  superblock : Option (List UInt8)
  deriving DecidableEq

/-- What `kvfs_mknod` finds around it: the caller, three readings of the clock, and the bytes
that its uninitialised stack variables hold. -/
structure Surroundings where
  /-- `getuid()`. -/
  uid : UInt32
  /-- `getgid()`. -/
  gid : UInt32
  /-- `time(NULL)` for `st_atime`. -/
  atime : UInt64
  /-- `time(NULL)` for `st_mtime`. -/
  mtime : UInt64
  /-- `time(NULL)` for `st_ctime`. -/
  ctime : UInt64
  /-- The variable `st` before it is assigned. -/
  st : Stat
  /-- The variable `fnode` before it is assigned. -/
  fnode : Fnode
  deriving DecidableEq

/-- `-EACCES`. -/
def eacces : Int := -13

/-- `-ENOENT`. -/
def enoent : Int := -2

/-- `clear_superblock` and `write_superblock` at the end of an operation, with its result. -/
def Volume.saved (volume : Volume) (result : Int) : Except Halt (Int × Volume) :=
  (save volume.superblock volume.table).map fun file =>
    (result, { volume with superblock := some file })

/-- `kvfs_flush`. -/
def kvfsFlush (volume : Volume) : Except Halt (Int × Volume) := volume.saved 0

/-- `kvfs_open`. -/
def kvfsOpen (volume : Volume) (pathname : CString) : Except Halt Int :=
  (lookup volume.table pathname).map fun index => if index.isNone then eacces else 0

/-- `kvfs_getattr`, with the reply of `lstat(mountparent, stbuf)`: the result and what `stbuf`
holds then. -/
def kvfsGetattr (lstat : Int × Option Stat) (volume : Volume) (path : CString) :
    Except Halt (Int × Option Stat) :=
  if path.bytes = "/".toUTF8.toList then .ok lstat
  else
    (lookup volume.table path).map fun index =>
      match index.bind (volume.table.entries[·]?) with
      | some fnode => (0, some (statOf fnode))
      | none => (enoent, none)

/-- `kvfs_truncate`, which leaves the file as it is. -/
def kvfsTruncate (_volume : Volume) (_path : CString) (_size : Int64) : Int := 0

/-- `kvfs_write` of `data` at `off`. The sum in its guard is unsigned. -/
def kvfsWrite (volume : Volume) (filename : CString) (data : List UInt8) (off : Int64) :
    Except Halt (Int × Volume) :=
  let sum := ((off.toInt + data.length) % 2 ^ 64).toNat
  if sum > dataSize - metadataSize then .ok (0, volume)
  else
    match lookup volume.table filename with
    | .error halt => .error halt
    | .ok none => .ok (0, volume)
    | .ok (some index) =>
      let start := nameSize + metadataSize + off.toInt
      if start < 0 ∨ start + data.length > fnodeSize then .error .outOfBounds
      else
        let change (fnode : Fnode) : Fnode :=
          let st := statOf fnode
          let fnode := fnode.overwrite start.toNat data
          withStat fnode (setStat st .size sum)
        .ok (Int.bmod data.length (2 ^ 32),
          { volume with table := volume.table.modify index change })

/-- `kvfs_read`: the result and the bytes put in the buffer. The offset may reach beyond the
record into the records behind it, and a copy of no bytes touches nothing. -/
def kvfsRead (volume : Volume) (pathname : CString) (size : UInt64) (off : Int64) :
    Except Halt (Int × List UInt8) :=
  match lookup volume.table pathname with
  | .error halt => .error halt
  | .ok none => .ok (0, [])
  | .ok (some index) =>
    let memory := join volume.table.entries
    let maxCopySize := dataSize - metadataSize
    let sum := ((off.toInt + size.toNat) % 2 ^ 64).toNat
    let copySize :=
      if maxCopySize < sum then ((maxCopySize - off.toInt) % 2 ^ 64).toNat else size.toNat
    let stSize := ((volume.table.entries[index]?).map fun fnode =>
      getStat (statOf fnode) .size).getD 0
    let copySize := if copySize > stSize then stSize else copySize
    let start := index * fnodeSize + nameSize + metadataSize + off.toInt
    if copySize ≠ 0 ∧ (start < 0 ∨ start + copySize > memory.length) then .error .outOfBounds
    else .ok (Int.bmod copySize (2 ^ 32), (memory.drop start.toNat).take copySize)

/-- The `struct stat` that `kvfs_mknod` fills in. -/
def mknodStat (around : Surroundings) (mode : UInt32) (dev : UInt64) : Stat :=
  let st := setStat around.st .size 0
  let st := setStat st .mode mode.toNat
  let st := setStat st .dev dev.toNat
  let st := setStat st .uid around.uid.toNat
  let st := setStat st .gid around.gid.toNat
  let st := setStat st .nlink 1
  let st := setStat st .rdev 0
  let st := setStat st .blksize 1024
  let st := setStat st .blocks 4
  let st := setStat st .atime around.atime.toNat
  let st := setStat st .mtime around.mtime.toNat
  setStat st .ctime around.ctime.toNat

/-- The record that `kvfs_mknod` adds. -/
def mknodFnode (around : Surroundings) (pathname : CString) (mode : UInt32) (dev : UInt64) : Fnode :=
  let fnode := around.fnode.overwrite 0 pathname.stored
  let fnode := withStat fnode (mknodStat around mode dev)
  fnode.overwrite (nameSize + dataSize) (LittleEndian.encode 4 1)

/-- `kvfs_mknod`. -/
def kvfsMknod (around : Surroundings) (volume : Volume) (pathname : CString) (mode : UInt32)
    (dev : UInt64) : Except Halt (Int × Volume) :=
  if pathname.stored.length > fnodeSize then .error .outOfBounds
  else
    (volume.table.push (mknodFnode around pathname mode dev)).map fun table =>
      (0, { volume with table })

/-- A record with its times set as `kvfs_utimens` sets them. -/
def withTimes (atime mtime : UInt64) (fnode : Fnode) : Fnode :=
  let stbuf := setStat (statOf fnode) .atime atime.toNat
  let stbuf := setStat stbuf .mtime mtime.toNat
  withStat fnode (setStat stbuf .ctime mtime.toNat)

/-- `kvfs_utimens`, with the seconds of `tv[0]` and `tv[1]`. -/
def kvfsUtimens (volume : Volume) (pathname : CString) (atime mtime : UInt64) :
    Except Halt (Int × Volume) :=
  (lookup volume.table pathname).map fun index =>
    match index with
    | none => (0, volume)
    | some index => (0, { volume with table := volume.table.modify index (withTimes atime mtime) })

/-- The loop of `kvfs_unlink`: move the records from `i` on one place down. -/
def shiftDown : Nat → Nat → List Fnode → Except Halt (List Fnode)
  | 0, i, data => if i = intLimit then .error .overflow else .ok data
  | left + 1, i, data =>
    if i = intLimit then .error .overflow
    else
      match data[i]? with
      | none => .error .outOfBounds
      | some fnode => shiftDown left (i + 1) (data.set (i - 1) fnode)

/-- `kvfs->size - 1` records are kept of the array. -/
def Table.shrink (table : Table) (data : List Fnode) : Table where
  entries := data.take (table.entries.length - 1)
  counted := by
    have counted := table.counted
    rw [List.length_take]
    omega

/-- `kvfs_unlink`. -/
def kvfsUnlink (volume : Volume) (pathname : CString) : Except Halt (Int × Volume) :=
  match lookup volume.table pathname with
  | .error halt => .error halt
  | .ok none => .ok (eacces, volume)
  | .ok (some index) =>
    match shiftDown (volume.table.entries.length - (index + 1)) (index + 1)
        volume.table.entries with
    | .error halt => .error halt
    | .ok data => ({ volume with table := volume.table.shrink data } : Volume).saved 0

/-- A record with its name cleared and replaced. -/
def withName (newname : CString) (fnode : Fnode) : Fnode :=
  (fnode.overwrite 0 (List.replicate nameSize 0)).overwrite 0 newname.stored

/-- `kvfs_rename`. -/
def kvfsRename (volume : Volume) (name newname : CString) : Except Halt (Int × Volume) :=
  match lookup volume.table name with
  | .error halt => .error halt
  | .ok none => .ok (eacces, volume)
  | .ok (some index) =>
    if newname.stored.length > fnodeSize then .error .outOfBounds
    else
      ({ volume with table := volume.table.modify index (withName newname) } : Volume).saved 0

/-! ## Calls -/

/-- A call of one of the operations. -/
inductive Call
  /-- `kvfs_init`, at a mount. -/
  | init
  /-- `kvfs_getattr`. -/
  | getattr (lstat : Int × Option Stat) (path : CString)
  /-- `kvfs_truncate`. -/
  | truncate (path : CString) (size : Int64)
  /-- `kvfs_open`. -/
  | open (pathname : CString)
  /-- `kvfs_flush`. -/
  | flush
  /-- `kvfs_mknod`. -/
  | mknod (around : Surroundings) (pathname : CString) (mode : UInt32) (dev : UInt64)
  /-- `kvfs_utimens`. -/
  | utimens (pathname : CString) (atime mtime : UInt64)
  /-- `kvfs_write`. -/
  | write (filename : CString) (data : List UInt8) (off : Int64)
  /-- `kvfs_read`. -/
  | read (pathname : CString) (size : UInt64) (off : Int64)
  /-- `kvfs_unlink`. -/
  | unlink (pathname : CString)
  /-- `kvfs_rename`. -/
  | rename (name newname : CString)
  deriving DecidableEq

/-- The result of a call and the state it leaves. -/
def Volume.perform (volume : Volume) : Call → Except Halt (Int × Volume)
  | .init => (kvfsInit volume.superblock).map fun mounted => (0, ⟨mounted.1, mounted.2⟩)
  | .getattr lstat path => (kvfsGetattr lstat volume path).map fun got => (got.1, volume)
  | .truncate path size => .ok (kvfsTruncate volume path size, volume)
  | .open pathname => (kvfsOpen volume pathname).map fun result => (result, volume)
  | .flush => kvfsFlush volume
  | .mknod around pathname mode dev => kvfsMknod around volume pathname mode dev
  | .utimens pathname atime mtime => kvfsUtimens volume pathname atime mtime
  | .write filename data off => kvfsWrite volume filename data off
  | .read pathname size off => (kvfsRead volume pathname size off).map fun got => (got.1, volume)
  | .unlink pathname => kvfsUnlink volume pathname
  | .rename name newname => kvfsRename volume name newname

/-- A call that returns, with its result. -/
def Step (volume : Volume) (label : Call × Int) (after : Volume) : Prop :=
  volume.perform label.1 = .ok (label.2, after)

/-- Perform a call, when it returns with the result expected. -/
def Volume.attempt (volume : Volume) (label : Call × Int) : Option Volume :=
  match volume.perform label.1 with
  | .ok (result, after) => if result = label.2 then some after else none
  | .error _ => none

/-- A call performed takes a step. -/
theorem attempt_step {volume after : Volume} {label : Call × Int}
    (performed : volume.attempt label = some after) : Step volume label after := by
  rw [Volume.attempt] at performed
  split at performed
  · rename_i result target done
    split at performed
    · rename_i expected
      obtain rfl := Option.some.inj performed
      rw [Step, done, expected]
    · contradiction
  · contradiction

end OsAssignments.Kvfs
