import Mathlib.Data.Finset.Erase
import OsAssignments.Library.Transition
import OsAssignments.Shell.ProcessList

/-!
# Interactive sessions

`shell` as a machine that goes from one call of the system to the next: a line is read, the entry
found for it is run as a builtin or by `fork`, and `waitpid` is called as long as a loop waits.
What the system answers is part of the step: any pid that is not in use for a `fork`, or its
failure; any child that has not been reaped for a `waitpid`, and `ECHILD` when there is none.

A line, or an entry, for which C leaves open what happens has no step. Printing is left out.
-/

namespace OsAssignments.Shell

open LinkedList Text Transition

/-! ## Builtins -/

/-- The functions of `cmd_table`. -/
inductive Builtin
  /-- `cmd_help`. -/
  | help
  /-- `cmd_quit`. -/
  | quit
  /-- `cmd_cd`. -/
  | cd
  /-- `cmd_plist`. -/
  | plist
  /-- `cmd_fg`. -/
  | fg
  /-- `cmd_bg`. -/
  | bg
  /-- `cmd_wait`. -/
  | wait
  deriving DecidableEq, Repr

/-- `cmd_table`. -/
def cmdTable : List (List UInt8 × Builtin) :=
  [(ascii "?", .help), (ascii "quit", .quit), (ascii "cd", .cd), (ascii "plist", .plist),
    (ascii "fg", .fg), (ascii "bg", .bg), (ascii "wait", .wait)]

/-- `lookup`, of a first word that may be the null pointer. -/
def lookup (cmd : Option (List UInt8)) : Option Builtin := cmd.bind fun name => cmdTable.lookup name

/-! ## The shell -/

/-- What the shell does to other processes and to the terminal. -/
inductive Effect
  /-- `kill(pid, SIGCONT)`. -/
  | signal (pid : Int)
  /-- `tcsetpgrp(shell_terminal, pgid)`. -/
  | terminal (pgid : Int)
  deriving DecidableEq, Repr

/-- Where the shell is. -/
inductive Control
  /-- At the prompt. -/
  | prompt
  /-- Before the search for the entry to run, with the process just added. -/
  | dispatch (p : Nat)
  /-- In `wait_for_process(p)`, with the entry of the builtin that called it, if there is one. -/
  | foreground (p : Nat) (builtin : Option Nat)
  /-- In the loop of `cmd_wait`, with the entry of the builtin. -/
  | waiting (builtin : Nat)
  /-- Behind `exit`. -/
  | exited
  deriving DecidableEq, Repr

/-- The shell and what the system knows about its children. -/
structure Session where
  /-- The processes in memory. -/
  store : Store
  /-- `first_process`. -/
  firstProcess : Nat
  /-- `shell_pgid`. -/
  shellPgid : Int
  /-- The children that have not been reaped. -/
  children : Finset Nat
  /-- The descriptors. -/
  descriptors : Descriptors
  /-- The signals sent and the groups put in the foreground, so far. -/
  effects : List Effect
  /-- Where the shell is. -/
  control : Control

/-- What `waitpid` returns. -/
inductive Reply
  /-- A child and its status. -/
  | child (pid : Nat) (status : Status)
  /-- −1, with `ECHILD`. -/
  | noChild
  /-- −1, with `EINTR`. -/
  | interrupted
  deriving DecidableEq, Repr

/-- The children left after a reply, when the system can give it. -/
def Reply.remaining (children : Finset Nat) : Reply → Option (Finset Nat)
  | .child pid (.stopped _) => if pid ∈ children then some children else none
  | .child pid _ => if pid ∈ children then some (children.erase pid) else none
  | .noChild => if children = ∅ then some children else none
  | .interrupted => some children

/-- What happens next. -/
inductive Event
  /-- `freadln` returns a line, and `malloc` an address for its process. -/
  | line (env : Environment) (inputString : List UInt8) (p : Nat)
  /-- The entry found is a builtin or has no words. -/
  | builtin
  /-- The process is launched, and `fork` returns a pid or −1. -/
  | fork (reply : Option Nat)
  /-- `waitpid` returns. -/
  | waitpid (reply : Reply)

namespace Session

/-- Change the process at an address. -/
def modify (session : Session) (p : Nat) (change : Process → Process) : Session :=
  { session with store := session.store.modify p change }

/-- The end of the loop of `shell`: completed processes are purged, and the prompt is printed. -/
def finish (session : Session) : Option Session :=
  (session.store.purgeProcList session.firstProcess).map fun store =>
    { session with store, control := .prompt }

/-- The entry of a builtin is completed when it returns. -/
def complete (session : Session) (nextP : Nat) : Option Session :=
  (session.modify nextP fun process => { process with completed := true }).finish

/-- `put_process_in_foreground`, up to the loop that waits. -/
def putProcessInForeground (session : Session) (p : Nat) (cont : Bool) (builtin : Option Nat) : Session :=
  let pid := (session.store p).pid
  let effects := .terminal pid :: if cont then [Effect.signal (-pid)] else []
  let session := session.modify p fun process =>
    { process with stopped := process.stopped && !cont, background := false }
  { session with effects := session.effects ++ effects, control := .foreground p builtin }

/-- `put_process_in_background`. -/
def putProcessInBackground (session : Session) (p : Nat) (cont : Bool) : Session :=
  let pid := (session.store p).pid
  let session := session.modify p fun process =>
    { process with stopped := process.stopped && !cont, background := true }
  { session with effects := session.effects ++ if cont then [.signal (-pid)] else [] }

@[simp]
theorem store_modify (session : Session) (p : Nat) (change : Process → Process) :
    (session.modify p change).store = session.store.modify p change := rfl

@[simp]
theorem store_foreground (session : Session) (p : Nat) (cont : Bool) (builtin : Option Nat) :
    (session.putProcessInForeground p cont builtin).store = session.store.modify p fun process =>
      { process with stopped := process.stopped && !cont, background := false } := rfl

@[simp]
theorem store_background (session : Session) (p : Nat) (cont : Bool) :
    (session.putProcessInBackground p cont).store = session.store.modify p fun process =>
      { process with stopped := process.stopped && !cont, background := true } := rfl

/-- `num_active_proc`. -/
def numActiveProc (session : Session) : Option Nat := session.store.numActiveProc session.firstProcess

/-- The head of the loop of `cmd_wait`. -/
def waitLoop (session : Session) (nextP : Nat) : Option Session :=
  session.numActiveProc.bind fun numActive =>
    if 0 < numActive then some { session with control := .waiting nextP } else session.complete nextP

/-- `cmd_fg`, up to the loop that waits. -/
def cmdFg (session : Session) (args : List (List UInt8)) (nextP : Nat) : Option Session :=
  (selectJob session.store session.firstProcess args).bind fun job =>
    match job with
    | some p => some (session.putProcessInForeground p (session.store p).stopped (some nextP))
    | none => session.complete nextP

/-- `cmd_bg`. -/
def cmdBg (session : Session) (args : List (List UInt8)) (nextP : Nat) : Option Session :=
  (selectJob session.store session.firstProcess args).bind fun job =>
    match job with
    | some p => (session.putProcessInBackground p true).complete nextP
    | none => session.complete nextP

/-- A builtin, with the arguments of its entry. -/
def runBuiltin (session : Session) (builtin : Builtin) (nextP : Nat) : Option Session :=
  let args := (session.store nextP).argv.tail
  match builtin with
  | .help => session.complete nextP
  | .quit => some { session with control := .exited }
  | .cd => session.complete nextP
  | .plist => session.complete nextP
  | .fg => session.cmdFg args nextP
  | .bg => session.cmdBg args nextP
  | .wait => session.waitLoop nextP

/-- `launch_process`, in the parent. -/
def launchProcess (session : Session) (p : Nat) : Option Nat → Option Session
  | none => session.finish
  | some pid =>
    let session := { session with children := insert pid session.children }
    let session := session.modify p fun process => { process with pid }
    if (session.store p).background then (session.putProcessInBackground p false).finish
    else some (session.putProcessInForeground p false none)

/-- The entry that is run: the first with pid 0, or the last one. -/
def dispatched (session : Session) : Option Nat :=
  session.store.findLast session.firstProcess fun process => process.pid = 0

/-- Leave `wait_for_process`, give the terminal back, and end the command. -/
def leaveForeground (session : Session) (builtin : Option Nat) : Option Session :=
  let session := { session with effects := session.effects ++ [Effect.terminal session.shellPgid] }
  match builtin with
  | some nextP => session.complete nextP
  | none => session.finish

/-- `mark_process_status` of what `waitpid` has returned, with its return value. -/
def mark (session : Session) : Reply → Option (Int × Session)
  | .child pid status =>
    if 0 < pid then
      (session.store.markProcessStatus session.firstProcess pid status).map fun marked =>
        (marked.1, { session with store := marked.2 })
    else some (-1, session)
  | .noChild => some (-1, session)
  | .interrupted => some (-1, session)

/-- The line is made a process at a new address, which is added to the list. -/
def readLine (session : Session) (env : Environment) (inputString : List UInt8) (p : Nat) :
    Option Session :=
  (walk null session.store.next loopBound session.firstProcess).bind fun nodes =>
    if p = null ∨ 2 ^ 64 ≤ p ∨ p ∈ nodes then none
    else
      match createProcess env session.descriptors inputString with
      | (.error _, _) => none
      | (.ok process, descriptors) =>
        ((session.store.modify p fun _ => process).addProcess session.firstProcess p).map fun store =>
          { session with store, descriptors, control := .dispatch p }

/-- One step of the shell, when the event can happen. -/
def step (session : Session) (event : Event) : Option Session :=
  match session.control, event with
  | .prompt, .line env inputString p => session.readLine env inputString p
  | .dispatch _, .builtin =>
    session.dispatched.bind fun nextP =>
      match lookup (session.store nextP).argv.head? with
      | some builtin => session.runBuiltin builtin nextP
      | none => if (session.store nextP).argv = [] then session.complete nextP else none
  | .dispatch p, .fork reply =>
    session.dispatched.bind fun nextP =>
      if lookup (session.store nextP).argv.head? = none ∧ (session.store nextP).argv ≠ [] ∧
          ∀ pid ∈ reply, 0 < pid ∧ pid ∉ session.children then
        session.launchProcess p reply
      else none
  | .foreground p builtin, .waitpid reply =>
    (reply.remaining session.children).bind fun children =>
      ({ session with children }.mark reply).bind fun (returned, session) =>
        if returned = 0 ∧ (session.store p).completed = false ∧ (session.store p).stopped = false then
          some session
        else session.leaveForeground builtin
  | .waiting nextP, .waitpid reply =>
    (reply.remaining session.children).bind fun children =>
      ({ session with children }.mark reply).bind fun (_, session) => session.waitLoop nextP
  | _, _ => none

end Session

/-- A step of the shell. -/
def Step (session : Session) (event : Event) (after : Session) : Prop := session.step event = some after

/-- The sentinel that `init_process_list` makes. -/
def sentinel : Process where
  argv := [ascii "first"]
  argc := 1
  pid := -1
  completed := false
  stopped := false
  background := false
  status := none
  stdin := 0
  stdout := 1
  stderr := 2
  next := null
  prev := null

/-- A shell at its first prompt. -/
structure Initial (session : Session) : Prop where
  /-- The list has been initialised. -/
  list : session.store session.firstProcess = sentinel
  /-- The sentinel has an address. -/
  proper : session.firstProcess ≠ null
  /-- Addresses have 64 bits. -/
  bounded : session.firstProcess < 2 ^ 64
  /-- The first line is about to be read. -/
  prompt : session.control = .prompt

/-- A shell at its first prompt without children. -/
def freshSession : Session where
  store := fun _ => sentinel
  firstProcess := 4096
  shellPgid := 100
  children := ∅
  descriptors := standardDescriptors
  effects := []
  control := .prompt

/-- The fresh shell is at its first prompt. -/
theorem freshSession_initial : Initial freshSession := ⟨rfl, by decide, by decide, rfl⟩

end OsAssignments.Shell
