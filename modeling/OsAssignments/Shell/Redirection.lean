import Mathlib.Logic.Function.Basic
import OsAssignments.Shell.Leaks
import OsAssignments.Shell.RoundTrip
import OsAssignments.Shell.TokenArrays

/-!
# Where the streams of a program lead

The child's side of `launch_process`. The files that `create_process` has opened for a line are put
in the places of the standard streams and closed in the child, while the shell keeps them open. In
every session the program of a line gets exactly the files that `create_process` cuts out of the line for
its streams, and the streams of the shell where there is none or the file cannot be opened. For the line of
a command they are the files that the command names, as long as no 2 stands in the way. Of the descriptors
above those the program has the ones that earlier lines have left open in the shell, and no others.
-/

namespace OsAssignments.Shell

open Text Transition

/-- What a descriptor refers to. -/
inductive Referent
  /-- A file that the shell was started with. -/
  | inherited (fd : Nat)
  /-- A file that was opened. -/
  | file (path : List UInt8) (mode : OpenMode)
  deriving DecidableEq, Repr

/-- What the open descriptors of a process refer to. -/
abbrev OpenFiles := Nat → Option Referent

/-- What the descriptors of the shell refer to: the file of the last call of `open` that returned
one, as no descriptor is ever closed. -/
def Descriptors.refers (table : Descriptors) : OpenFiles := fun fd =>
  if fd ∈ table.opened then
    match table.calls.reverse.find? fun (call : Call) => call.reply = (fd : Int) with
    | some call => some (.file call.path call.mode)
    | none => some (.inherited fd)
  else none

/-- `dup2`. -/
def dup2 (files : OpenFiles) (old new : Nat) : OpenFiles :=
  if (files old).isSome then Function.update files new (files old) else files

/-- Put a descriptor in the place of a standard one, unless it is that one or −1. -/
def redirect (files : OpenFiles) (fd : Int) (standard : Nat) : OpenFiles :=
  if fd = -1 then files
  else if fd ≠ standard then Function.update (dup2 files fd.toNat standard) fd.toNat none
  else files

/-- `launch_process`, in the child, up to `execv`: the descriptors of the program. -/
def childFiles (process : Process) (files : OpenFiles) : OpenFiles :=
  redirect (redirect (redirect files process.stdin 0) process.stdout 1) process.stderr 2

/-- The descriptor of a stream. -/
def Stream.number : Stream → Nat
  | .error => 2
  | .output => 1
  | .input => 0

/-- The descriptor of a process for a stream. -/
def Process.descriptor (process : Process) : Stream → Int
  | .error => process.stderr
  | .output => process.stdout
  | .input => process.stdin

/-- What a stream of a program should refer to, given the file named for it and what `open`
returned. -/
def referent (stream : Stream) (target : Option (List UInt8)) (fd : Int) : Referent :=
  match target with
  | some path => if fd = -1 then .inherited stream.number else .file path stream.mode
  | none => .inherited stream.number

/-- What the pass for a stream returns and leaves behind, after the passes before it. -/
def openPass (env : Environment) (table : Descriptors) (inputString : List UInt8) (stream : Stream) :
    Int × Descriptors :=
  let target stream := (cutLine env.below inputString stream).1
  let error := openTarget env table .error (target .error)
  let output := openTarget env error.2 .output (target .output)
  let input := openTarget env output.2 .input (target .input)
  match stream with
  | .error => error
  | .output => output
  | .input => input

/-- What the pass for a stream finds. -/
def beforePass (env : Environment) (table : Descriptors) (inputString : List UInt8) : Stream → Descriptors
  | .error => table
  | .output => (openPass env table inputString .error).2
  | .input => (openPass env table inputString .output).2

/-- A program has the files that are meant for its streams. -/
structure Wired (session : Session) (target : Stream → Option (List UInt8)) (process : Process)
    (files : OpenFiles) : Prop where
  /-- Its standard streams lead to them. -/
  streams : ∀ stream, files stream.number =
    some (referent stream (target stream) (process.descriptor stream))
  /-- Its other descriptors are those that the shell had before the line. -/
  others : ∀ fd, 3 ≤ fd → files fd = session.descriptors.refers fd

/-- The standard streams are open, and no call of `open` has returned one of them. -/
structure Standard (table : Descriptors) : Prop where
  /-- They are open. -/
  opened : ∀ fd < 3, fd ∈ table.opened
  /-- What `open` returned lies above them and is open. -/
  replies : ∀ call ∈ table.calls, ∀ fd : Nat, call.reply = fd → 3 ≤ fd ∧ fd ∈ table.opened

/-- What the pass for a stream does. -/
inductive Outcome (table table' : Descriptors) (stream : Stream) : Option (List UInt8) → Int → Prop
  /-- The stream is not redirected. -/
  | kept (same : table'.refers = table.refers) : Outcome table table' stream none stream.standard
  /-- The file cannot be opened. -/
  | refused {path : List UInt8} (same : table'.refers = table.refers) :
      Outcome table table' stream (some path) (-1)
  /-- The file is opened under a descriptor that was not in use. -/
  | opened {path : List UInt8} {fd : Nat} (above : 3 ≤ fd) (unused : table.refers fd = none)
      (put : table'.refers =
        Function.update table.refers fd (some (.file path stream.mode))) :
      Outcome table table' stream (some path) fd

variable {env : Environment} {table table' : Descriptors} {stream : Stream}
  {target : Option (List UInt8)} {files : OpenFiles} {fd : Int} {standard place : Nat}
  {entry : Option Referent} {start session prepared : Session} {inputString : List UInt8} {p : Nat}
  {event : Event} {after : Session}

/-! ## Opening -/

/-- The standard streams of the shell refer to what it was started with. -/
theorem Standard.refers (standards : Standard table) (below : place < 3) :
    table.refers place = some (.inherited place) := by
  have none : (table.calls.reverse.find? fun (call : Call) => call.reply = (place : Int)) = none := by
    rw [List.find?_eq_none]
    intro call member returned
    have above := (standards.replies call (List.mem_reverse.mp member) place
      (by simpa using returned)).1
    omega
  rw [Descriptors.refers, if_pos (standards.opened place below), none]

/-- Opening a file puts it under an unused descriptor above the standard ones, or fails. -/
theorem Standard.openTarget (standards : Standard table) :
    Standard (openTarget env table stream target).2 ∧
      Outcome table (openTarget env table stream target).2 stream target
        (openTarget env table stream target).1 := by
  cases target with
  | none => exact ⟨standards, .kept rfl⟩
  | some path =>
    rw [Shell.openTarget, Descriptors.open_]
    split
    · rename_i fd unused
      have found : table.unused env.limit = some fd := by
        split at unused
        · exact unused
        · contradiction
      have free : fd ∉ table.opened := by simpa using List.find?_some found
      have above : 3 ≤ fd := by
        by_contra low
        exact free (standards.opened fd (not_le.mp low))
      refine ⟨⟨fun low below => Finset.mem_insert_of_mem (standards.opened low below), ?_⟩,
        .opened above (if_neg free) ?_⟩
      · intro call member other returned
        rcases List.mem_append.mp member with old | new
        · obtain ⟨higher, there⟩ := standards.replies call old other returned
          exact ⟨higher, Finset.mem_insert_of_mem there⟩
        · obtain rfl := List.mem_singleton.mp new
          obtain rfl : fd = other := Int.natCast_inj.mp returned
          exact ⟨above, Finset.mem_insert_self _ _⟩
      · funext other
        by_cases same : other = fd
        · subst same
          simp [Descriptors.refers]
        · rw [Function.update_of_ne same]
          simp [Descriptors.refers, same, Ne.symm same]
    · refine ⟨⟨standards.opened, ?_⟩, .refused ?_⟩
      · intro call member other returned
        rcases List.mem_append.mp member with old | new
        · exact standards.replies call old other returned
        · obtain rfl := List.mem_singleton.mp new
          simp only at returned
          omega
      · funext other
        simp [Descriptors.refers]

/-! ## Redirecting -/

/-- The place of a standard stream is not touched by the redirection of another. -/
theorem redirect_update (other : place ≠ standard) (low : place < 3)
    (sound : fd = -1 ∨ fd = standard ∨ 3 ≤ fd) :
    redirect (Function.update files place entry) fd standard =
      Function.update (redirect files fd standard) place entry := by
  unfold redirect
  by_cases failed : fd = -1
  · rw [if_pos failed, if_pos failed]
  · rw [if_neg failed, if_neg failed]
    by_cases same : fd = standard
    · rw [if_neg (not_not.mpr same), if_neg (not_not.mpr same)]
    · have apart : fd.toNat ≠ place := by omega
      rw [if_pos same, if_pos same, dup2, dup2, Function.update_of_ne apart]
      split
      · rw [Function.update_comm other, Function.update_comm apart.symm]
      · rw [Function.update_comm apart.symm]

/-- Redirecting after a pass puts what the stream should refer to in its place, and closes the
descriptor it had. -/
theorem Outcome.redirect (outcome : Outcome table table' stream target fd)
    (standards : Standard table) :
    Shell.redirect table'.refers fd stream.number =
      Function.update table.refers stream.number (some (referent stream target fd)) := by
  have number : stream.standard = (stream.number : Int) := by cases stream <;> rfl
  have low : stream.number < 3 := by cases stream <;> decide
  have own : Function.update table.refers stream.number (some (.inherited stream.number)) =
      table.refers := by
    rw [← standards.refers low, Function.update_eq_self]
  cases outcome with
  | kept same =>
    have proper : stream.standard ≠ -1 := by omega
    rw [Shell.redirect, if_neg proper, if_neg (not_not.mpr number), same]
    exact own.symm
  | refused same =>
    rw [Shell.redirect, if_pos rfl, same, referent, if_pos rfl]
    exact own.symm
  | @opened path fd above unused put =>
    have proper : (fd : Int) ≠ -1 := by omega
    have other : (fd : Int) ≠ stream.number := by omega
    have apart : fd ≠ stream.number := by omega
    have there : (Function.update table.refers fd (some (.file path stream.mode)) fd).isSome := by
      rw [Function.update_self]
      rfl
    rw [Shell.redirect, if_neg proper, if_pos other, Int.toNat_natCast, put, dup2, if_pos there,
      Function.update_self, referent, if_neg proper, Function.update_comm apart, Function.update_idem,
      ← unused, Function.update_comm apart.symm, Function.update_eq_self]

/-- What `open` returns is −1, the stream's own descriptor, or one above the standard ones. -/
theorem Outcome.sound (outcome : Outcome table table' stream target fd) :
    fd = -1 ∨ fd = stream.number ∨ 3 ≤ fd := by
  cases outcome with
  | kept same => cases stream <;> decide
  | refused same => exact .inl rfl
  | opened above unused put => exact .inr (.inr (by omega))

/-! ## Lines -/

/-- The passes keep the standard streams open. -/
theorem Standard.openTargets (standards : Standard table) (target : Stream → Option (List UInt8)) :
    Standard (openTargets env table target) :=
  standards.openTarget.1.openTarget.1.openTarget.1

/-- So does every step of the shell. -/
theorem standard_step (standards : Standard session.descriptors) (taken : Step session event after) :
    Standard after.descriptors := by
  rw [step_descriptors taken]
  cases event with
  | line env inputString p => exact standards.openTargets _
  | builtin => exact standards
  | fork reply => exact standards
  | waitpid reply => exact standards

/-- The process made of a line has what the passes returned, and the shell is left with what the
last one left. -/
theorem createProcess_openPass {process : Process} {descriptors : Descriptors}
    (created : createProcess env table inputString = (.ok process, descriptors)) :
    (∀ stream, process.descriptor stream = (openPass env table inputString stream).1) ∧
      descriptors = (openPass env table inputString .input).2 := by
  have made := congrArg Prod.fst created
  obtain ⟨_, rfl⟩ := createProcess_ok_iff.mp made
  rw [createProcess_fits (fits_of_made made), Prod.mk.injEq] at created
  refine ⟨fun stream => ?_, created.2.symm⟩
  cases stream <;> rfl

/-- The entry of a line that has been read has what the passes returned. -/
theorem readLine_openPass (read : session.readLine env inputString p = some prepared) :
    (∀ stream, (prepared.store p).descriptor stream =
      (openPass env session.descriptors inputString stream).1) ∧
      prepared.descriptors = (openPass env session.descriptors inputString .input).2 := by
  obtain ⟨nodes, _, taken⟩ := Option.bind_eq_some_iff.mp read
  split at taken
  · contradiction
  split at taken
  · contradiction
  rename_i process descriptors created
  obtain ⟨store, added, same⟩ := Option.map_eq_some_iff.mp taken
  obtain ⟨q, _, rfl⟩ := Option.map_eq_some_iff.mp added
  subst same
  obtain ⟨own, left⟩ := createProcess_openPass created
  refine ⟨fun stream => ?_, left⟩
  rw [← own stream]
  cases stream <;>
    simp only [Process.descriptor, Store.setNext, Store.setPrev, Store.modify, if_pos] <;>
    split <;> simp

/-- A line is read at the prompt. -/
theorem readLine_of_step (taken : Step session (.line env inputString p) prepared) :
    session.readLine env inputString p = some prepared := by
  unfold Step Session.step at taken
  cases place : session.control with
  | prompt => simpa only [place] using taken
  | dispatch q => simp [place] at taken
  | foreground q builtin => simp [place] at taken
  | waiting nextP => simp [place] at taken
  | exited => simp [place] at taken

/-- The pass for a stream finds the standard streams open and opens what the line names. -/
theorem openPass_outcome (standards : Standard table) (stream : Stream) :
    Standard (beforePass env table inputString stream) ∧
      Outcome (beforePass env table inputString stream) (openPass env table inputString stream).2
        stream (cutLine env.below inputString stream).1
        (openPass env table inputString stream).1 := by
  cases stream with
  | error => exact ⟨standards, standards.openTarget.2⟩
  | output => exact ⟨standards.openTarget.1, standards.openTarget.1.openTarget.2⟩
  | input =>
    exact ⟨standards.openTarget.1.openTarget.1, standards.openTarget.1.openTarget.1.openTarget.2⟩

/-- The descriptors of the program are those before the passes, with what the streams should refer
to in their places. -/
theorem childFiles_passes {process : Process} (standards : Standard table)
    (own : ∀ stream, process.descriptor stream = (openPass env table inputString stream).1) :
    childFiles process (openPass env table inputString .input).2.refers =
      let wanted stream := some (referent stream (cutLine env.below inputString stream).1
        (process.descriptor stream))
      Function.update (Function.update (Function.update table.refers 2 (wanted .error)) 1
        (wanted .output)) 0 (wanted .input) := by
  have outcome : ∀ stream, Standard (beforePass env table inputString stream) ∧
      Outcome (beforePass env table inputString stream) (openPass env table inputString stream).2
        stream (cutLine env.below inputString stream).1 (process.descriptor stream) := by
    intro stream
    rw [own stream]
    exact openPass_outcome standards stream
  have input : redirect (openPass env table inputString .input).2.refers process.stdin 0 = _ :=
    (outcome .input).2.redirect (outcome .input).1
  have output : redirect (openPass env table inputString .output).2.refers process.stdout 1 = _ :=
    (outcome .output).2.redirect (outcome .output).1
  have error : redirect (openPass env table inputString .error).2.refers process.stderr 2 = _ :=
    (outcome .error).2.redirect (outcome .error).1
  have errorSound : process.stderr = -1 ∨ process.stderr = (2 : Nat) ∨ 3 ≤ process.stderr :=
    (outcome .error).2.sound
  have outputSound : process.stdout = -1 ∨ process.stdout = (1 : Nat) ∨ 3 ≤ process.stdout :=
    (outcome .output).2.sound
  -- What one redirection has put in place stays there in the later ones.
  rw [childFiles, input, redirect_update (by decide) (by decide) outputSound,
    redirect_update (by decide) (by decide) errorSound]
  simp only [beforePass]
  rw [output, redirect_update (by decide) (by decide) errorSound]
  simp only [beforePass]
  rw [error]
  rfl

/-- The program of a line has the files that the passes cut out of it for its streams, and beside them
what earlier lines have left open. -/
theorem Standard.wired (kept : Standard session.descriptors)
    (taken : Step session (.line env inputString p) prepared) :
    Wired session (fun stream => (cutLine env.below inputString stream).1) (prepared.store p)
      (childFiles (prepared.store p) prepared.descriptors.refers) := by
  obtain ⟨own, left⟩ := readLine_openPass (readLine_of_step taken)
  rw [left, childFiles_passes kept own]
  constructor
  · intro stream
    cases stream <;> rfl
  · intro fd above
    simp only
    rw [Function.update_of_ne (by omega), Function.update_of_ne (by omega),
      Function.update_of_ne (by omega)]

/-- In every session that was started with its standard streams open, the program of a command, whose
files for standard output and standard input are named without the digit 2, has the files that the
command names for its streams, and beside them what earlier lines have left open. -/
theorem child_wired {start : Session} {command : Command} (standards : Standard start.descriptors)
    (reached : Reachable Step start session) (avoid : command.NamesAvoidTwo)
    (taken : Step session (.line env command.print p) prepared) :
    Wired session command.target (prepared.store p)
      (childFiles (prepared.store p) prepared.descriptors.refers) := by
  have kept : Standard session.descriptors := reached.invariant standards fun _ _ _ => standard_step
  have wired := kept.wired taken
  rwa [funext (command.cutLine_target env.below avoid)] at wired

/-- The command `/bin/ls 2> log < src`. -/
def logAndSource : Command := { listToOut2 with
  clauses := [⟨.error, ⟨ascii "log", by decide, List.all_eq_true.mp (by decide)⟩⟩,
    ⟨.input, ⟨ascii "src", by decide, List.all_eq_true.mp (by decide)⟩⟩]
  distinct := by decide
  short := by decide }

/-- The program of a second command gets the two files that it names, the output of the shell, and the
file that the first line has left open. -/
theorem child_wired_redirectedRun :
    ∃ prepared, Step (final freshSession redirectedRun) (.line binEnvironment logAndSource.print 12288)
        prepared ∧
      Wired (final freshSession redirectedRun) logAndSource.target (prepared.store 12288)
        (childFiles (prepared.store 12288) prepared.descriptors.refers) := by
  have standards : Standard freshSession.descriptors :=
    ⟨by decide, by simp [freshSession, standardDescriptors]⟩
  have steps : IsRun Step freshSession redirectedRun :=
    isRun_trace (fun _ _ _ performed => performed) _ _
  have able : ((final freshSession redirectedRun).step
      (.line binEnvironment logAndSource.print 12288)).isSome := by decide +kernel
  obtain ⟨prepared, taken⟩ := Option.isSome_iff_exists.mp able
  have avoid : logAndSource.NamesAvoidTwo := by
    unfold Command.NamesAvoidTwo
    decide
  exact ⟨prepared, taken, child_wired standards steps.reachable avoid taken⟩

end OsAssignments.Shell
