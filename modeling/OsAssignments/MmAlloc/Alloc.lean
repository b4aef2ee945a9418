import OsAssignments.Library.LinkedList
import OsAssignments.MmAlloc.Header

/-!
# The allocator of hw3

`mm_malloc` and `mm_free` with the functions they call, over a process whose memory holds the
headers and the payloads alike. A `size_t` or pointer sum is reduced to 64 bits. Reading and
writing are total: nothing here assumes that the list is well formed.

The source does not declare `sbrk`, so C takes its result for an `int`. It is taken here to return the
whole break, as it does for breaks below 2³¹.

A walk of the block list writes nothing, so one that has taken 2⁶⁴ steps has come back to an
address it has been at and never ends; the walks here answer `none` then.
-/

namespace OsAssignments.MmAlloc

open MachineWord

/-- The part of a process the allocator works on. -/
structure Process where
  /-- The memory. -/
  memory : ByteMemory
  /-- The global `block_list_head`. -/
  blockListHead : Nat
  /-- The program break. -/
  brk : Nat

/-- `(void *) -1`. -/
def sbrkFailed : Nat := 2 ^ 64 - 1

/-- `sbrk`: move the break by a signed increment and return the previous break. The call fails,
changing nothing, when the system refuses it or the new break would be no address. -/
def sbrk (granted : Bool) (process : Process) (increment : Nat) : Nat × Process :=
  let target := (process.brk : Int) + toSigned increment
  if granted = true ∧ 0 ≤ target ∧ target < 2 ^ 64 then
    (process.brk, { process with brk := target.toNat })
  else (sbrkFailed, process)

/-- Steps after which a walk is known not to end. -/
def walkFuel : Nat := 2 ^ 64

/-- `get_block`: the header behind a payload address. -/
def getBlock (p : Nat) : Nat := sub p blockSize

/-- `split_block`: cut block `b` to `s` bytes, with a free block made of the rest. The header of
the new block is laid out in a stack variable, whose padding is given, and copied. -/
def splitBlock (padding : UInt32) (memory : ByteMemory) (b s : Nat) : ByteMemory :=
  let thirdBlock := readField memory b .next
  let sb : SBlock :=
    { size := sub (sub (readField memory b .size) s) blockSize
      next := readField memory b .next
      prev := readField memory b .ptr
      free := 1
      ptr := add (add (readField memory b .ptr) s) blockSize
      padding }
  let memory := writeField memory b .size s
  let memory := writeField memory b .next sb.ptr
  let memory := if thirdBlock ≠ null then writeField memory thirdBlock .prev sb.ptr else memory
  let memory := storeHeader memory sb.ptr sb
  let memory := memory.fill (dataOf sb.ptr) (readField memory sb.ptr .size) 0
  memory.fill (dataOf b) (readField memory b .size) 0

/-- `extend_heap`: a new used block of `s` bytes at the program break, after block `last`; the
null pointer when `sbrk` fails. -/
def extendHeap (granted : Bool) (padding : UInt32) (process : Process) (last s : Nat) :
    Nat × Process :=
  let (p, process) := sbrk granted process (add s blockSize)
  if p = sbrkFailed then (null, process)
  else
    let (prev, process) :=
      if last ≠ null then
        (readField process.memory last .ptr,
          { process with memory := writeField process.memory last .next p })
      else (null, { process with blockListHead := p })
    let sb : SBlock := { size := s, next := null, prev, free := 0, ptr := p, padding }
    let memory := storeHeader process.memory p sb
    let memory := memory.fill (dataOf p) s 0
    (p, { process with memory })

/-- `fusion`: absorb the next block into block `b` when there is one and it is free. The next
block need not lie right behind `b`; only the list links are looked at. -/
def fusion (memory : ByteMemory) (b : Nat) : Nat × ByteMemory :=
  if b = null then (null, memory)
  else
    let curBlock := readField memory b .ptr
    if readField memory b .next ≠ null then
      let nextBlock := readField memory b .next
      if readField memory nextBlock .free ≠ 0 then
        let memory := writeField memory curBlock .size
          (add (add (readField memory curBlock .size) (readField memory nextBlock .size)) blockSize)
        let memory := writeField memory curBlock .next (readField memory nextBlock .next)
        let memory :=
          if readField memory curBlock .next ≠ null then
            writeField memory (readField memory curBlock .next) .prev
              (readField memory curBlock .ptr)
          else memory
        let memory := memory.fill (dataOf curBlock) (readField memory curBlock .size) 0
        (curBlock, memory)
      else (curBlock, memory)
    else (curBlock, memory)

/-- How the walk of `mm_malloc` ends. -/
inductive Fit
  /-- At a free block with more than a header to spare, which is split. -/
  | split (iter : Nat)
  /-- At a free block with exactly a header to spare, which is taken whole. -/
  | whole (iter : Nat)
  /-- At the end of the list, after the given block. -/
  | absent (lastBlock : Nat)
  deriving DecidableEq, Repr

/-- The `for` loop of `mm_malloc`, up to the block it breaks at. -/
def findFit (memory : ByteMemory) (size : Nat) : Nat → Nat → Nat → Option Fit
  | 0, _, _ => none
  | fuel + 1, iter, lastBlock =>
    if iter = null then some (.absent lastBlock)
    else if readField memory iter .free ≠ 1 then
      findFit memory size fuel (readField memory iter .next) iter
    else if readField memory iter .size > add size blockSize then some (.split iter)
    else if readField memory iter .size = add size blockSize then some (.whole iter)
    else findFit memory size fuel (readField memory iter .next) iter

/-- The walk of `mm_malloc` from the head of the list. -/
def Process.findFit (process : Process) (size : Nat) : Option Fit :=
  MmAlloc.findFit process.memory size walkFuel process.blockListHead process.blockListHead

/-- `mm_malloc`: the payload address handed out, and the process afterwards. -/
def mmMalloc (granted : Bool) (padding : UInt32) (process : Process) (size : Nat) :
    Option (Nat × Process) :=
  if process.blockListHead = null then
    let (sp, process) := extendHeap granted padding process process.blockListHead size
    some (dataOf sp, process)
  else
    match process.findFit size with
    | none => none
    | some (.split iter) =>
      let memory := splitBlock padding process.memory iter size
      let memory := writeField memory (readField memory iter .next) .free 1
      let memory := writeField memory iter .free 0
      some (dataOf iter, { process with memory })
    | some (.whole iter) =>
      some (dataOf iter, { process with memory := writeField process.memory iter .free 0 })
    | some (.absent lastBlock) =>
      let (sp, process) := extendHeap granted padding process lastBlock size
      some (dataOf sp, process)

/-- The two ways `mm_free` ends the process instead of returning. -/
inductive Exit
  /-- "Tried to free a pointer you don't own! Exiting." -/
  | notOwned
  /-- "Tried to free a pointer you don't own but its in my list! Exiting." -/
  | alreadyFree
  deriving DecidableEq, Repr

/-- The `for` loop of `mm_free`: whether block `sbp` is on the list. -/
def onList (memory : ByteMemory) (sbp : Nat) : Nat → Nat → Option Bool
  | 0, _ => none
  | fuel + 1, iter =>
    if iter = null then some false
    else if sbp = iter then some true
    else onList memory sbp fuel (readField memory iter .next)

/-- The fusions at the end of `mm_free`, once block `sbp` is marked free. -/
def fuseAround (memory : ByteMemory) (sbp : Nat) : ByteMemory :=
  if readField memory sbp .prev ≠ null then
    if readField memory (readField memory sbp .prev) .free ≠ 0 then
      let (newPtr, memory) := fusion memory (readField memory sbp .prev)
      if newPtr ≠ null then (fusion memory newPtr).2 else memory
    else (fusion memory sbp).2
  else (fusion memory sbp).2

/-- `mm_free`, with the process as it is when the call returns or takes an exit. -/
def mmFreeUntil (process : Process) (p : Nat) : Option (Option Exit × Process) :=
  let sbp := getBlock p
  match onList process.memory sbp walkFuel process.blockListHead with
  | none => none
  | some false => some (some .notOwned, process)
  | some true =>
    if readField process.memory sbp .free = 1 then some (some .alreadyFree, process)
    else
      let memory := writeField process.memory sbp .free 1
      some (none, { process with memory := fuseAround memory sbp })

/-- `mm_free`: the process afterwards, or the exit taken. -/
def mmFree (process : Process) (p : Nat) : Option (Except Exit Process) :=
  (mmFreeUntil process p).map fun ended =>
    match ended.1 with
    | some exit => .error exit
    | none => .ok ended.2

/-- The addresses of the blocks on the list, by a walk from `block_list_head`. -/
def Process.blocks (process : Process) : Option (List Nat) :=
  LinkedList.walk null (readField process.memory · .next) walkFuel process.blockListHead

end OsAssignments.MmAlloc
