import OsAssignments.Library.LinkedList
import OsAssignments.Shell.CommandLine

/-!
# The process list

The list from `first_process` and the functions that change it, over a store of processes by
address. The store keeps what it held where a process has been freed: `purge_proc_list` reads
`next` there once more before anything else is allocated.

A loop along the list changes nothing on its way but in `purge_proc_list`, where it changes links
of other entries only. One that has taken 2⁶⁴ steps has come back to an address it has been at and
never ends; the loops here answer `none` then, and where a null pointer would be followed.
-/

namespace OsAssignments.Shell

open LinkedList Text

/-- The processes in memory, by address. -/
def Store : Type := Nat → Process

/-- Record what has been learnt about a process: it has stopped, or else it is completed. -/
def Process.record (status : Status) (process : Process) : Process :=
  match status with
  | .stopped _ => { process with status := some status, stopped := true }
  | _ => { process with status := some status, completed := true }

/-- Steps after which a loop along the list is known not to end. -/
def loopBound : Nat := 2 ^ 64

namespace Store

/-- Change the process at an address. -/
def modify (store : Store) (p : Nat) (change : Process → Process) : Store :=
  fun other => if other = p then change (store other) else store other

/-- `p->next`. -/
def next (store : Store) (p : Nat) : Nat := (store p).next

/-- `p->prev`. -/
def prev (store : Store) (p : Nat) : Nat := (store p).prev

/-- `p->next = value`. -/
def setNext (store : Store) (p value : Nat) : Store :=
  store.modify p fun process => { process with next := value }

/-- `p->prev = value`. -/
def setPrev (store : Store) (p value : Nat) : Store :=
  store.modify p fun process => { process with prev := value }

/-- The first process of the list that passes a test. -/
def find (store : Store) (firstProcess : Nat) (test : Process → Bool) : Option (Option Nat) :=
  search null store.next (fun p => test (store p)) loopBound firstProcess

/-- The first process of the list that passes a test or is the last one. -/
def findLast (store : Store) (firstProcess : Nat) (test : Process → Bool) : Option Nat :=
  searchLast null store.next (fun p => test (store p)) loopBound firstProcess

/-- `add_process`. -/
def addProcess (store : Store) (firstProcess p : Nat) : Option Store :=
  (store.findLast firstProcess fun _ => false).map fun q => (store.setNext q p).setPrev p q

/-- `mark_process_status`, for the status of a child: the return value with the store. -/
def markProcessStatus (store : Store) (firstProcess pid : Nat) (status : Status) :
    Option (Int × Store) :=
  (store.find firstProcess fun process => process.pid = pid).map fun found =>
    match found with
    | some p => (0, store.modify p (Process.record status))
    | none => (-1, store)

/-- Take a process out of the list, as `purge_proc_list` does before it frees the process. -/
def unlink (store : Store) (p : Nat) : Option Store :=
  let pPrev := store.prev p
  let pNext := store.next p
  if pPrev = null then none
  else
    let store := store.setNext pPrev pNext
    some (if pNext = null then store else store.setPrev pNext pPrev)

/-- The loop of `purge_proc_list`. -/
def purgeFrom : Nat → Store → Nat → Option Store
  | 0, _, _ => none
  | fuel + 1, store, p =>
    if p = null then some store
    else if (store p).completed then
      (store.unlink p).bind fun store => purgeFrom fuel store (store.next p)
    else purgeFrom fuel store (store.next p)

/-- `purge_proc_list`. -/
def purgeProcList (store : Store) (firstProcess : Nat) : Option Store :=
  store.purgeFrom loopBound firstProcess

/-- Whether `num_active_proc` counts a process. -/
def isActive (store : Store) (firstProcess p : Nat) : Option Bool :=
  if p = firstProcess then some false
  else if (store p).stopped then some false
  else if (store p).completed then some false
  else (store p).argv.head?.map (· ≠ ascii "wait")

/-- The number of processes among some that are counted. -/
def countActive (store : Store) (firstProcess : Nat) : List Nat → Option Nat
  | [] => some 0
  | p :: rest => do
    let active ← store.isActive firstProcess p
    let numActive ← store.countActive firstProcess rest
    some (active.toNat + numActive)

/-- `num_active_proc`. -/
def numActiveProc (store : Store) (firstProcess : Nat) : Option Nat :=
  (walk null store.next loopBound firstProcess).bind (store.countActive firstProcess)

end Store

/-! ## The commands for jobs -/

/-- The process that `cmd_fg` and `cmd_bg` act on: the one with the given number, or without an
argument the last but one, unless that is the first. -/
def selectJob (store : Store) (firstProcess : Nat) : List (List UInt8) → Option (Option Nat)
  | arg :: _ => store.find firstProcess fun process => process.pid = strtol arg
  | [] => do
    let last ← store.findLast firstProcess fun _ => false
    let p := store.prev last
    if p = firstProcess then some none
    else if p = null then none
    else some (some p)

end OsAssignments.Shell
