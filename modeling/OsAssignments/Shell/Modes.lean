import Mathlib.Logic.Function.Basic
import OsAssignments.Shell.Session

/-!
# Terminal modes

What `put_process_in_foreground` does with the modes of the terminal. The job in the foreground may
change them, and it alone: a process in the background that tries is stopped, unless it ignores
`SIGTTOU`, which none is taken to do here. Nor does a call of `tcgetattr` or `tcsetattr` fail. When the
shell takes the terminal back it keeps them in `tmodes` of the job and sets its
own again, and a job that is continued in the foreground gets its modes back from there. At every
prompt the terminal has the modes of the shell, and a job that is continued has the modes with which it
left the foreground. But `tmodes` of a job that has never been there is not initialised: one that is
stopped in the background is continued with whatever stands in its memory.
-/

namespace OsAssignments.Shell

open Text Transition

variable {Termios : Type}

/-- A session with its terminal. -/
structure Console (Termios : Type) where
  /-- The session. -/
  session : Session
  /-- The modes of the terminal. -/
  modes : Termios
  /-- `shell_tmodes`. -/
  shellTmodes : Termios
  /-- `tmodes` of the process at each address, once something has been stored there. -/
  tmodes : Nat → Option Termios

/-- What happens next. -/
inductive Move (Termios : Type)
  /-- A step of the session. -/
  | session (event : Event)
  /-- The job in the foreground sets the modes. -/
  | job (modes : Termios)

/-- The job that the shell waits for in the foreground. -/
def Control.foregroundJob : Control → Option Nat
  | .foreground p _ => some p
  | _ => none

/-- One step, when the move can happen. For a job that is stopped and whose `tmodes` nobody has set, C
leaves open what modes the terminal gets. -/
def Console.next (console : Console Termios) (move : Move Termios) : Option (Console Termios) :=
  match move with
  | .job modes =>
    match console.session.control with
    | .foreground _ _ => some { console with modes }
    | _ => none
  | .session event =>
    (console.session.step event).bind fun session =>
      match console.session.control, event, session.control with
      | .prompt, .line _ _ p, _ =>
        some { console with session, tmodes := Function.update console.tmodes p none }
      | .dispatch _, .builtin, .foreground p _ =>
        if (console.session.store p).stopped then
          (console.tmodes p).map fun modes => { console with session, modes }
        else some { console with session }
      | .foreground _ _, _, .foreground _ _ => some { console with session }
      | .foreground p _, _, _ =>
        some { console with
          session
          modes := console.shellTmodes
          tmodes := Function.update console.tmodes p (some console.modes) }
      | _, _, _ => some { console with session }

/-- A step of the session with its terminal. -/
def ConsoleStep (console : Console Termios) (move : Move Termios) (after : Console Termios) : Prop :=
  console.next move = some after

/-- The shell takes the terminal back from a job. -/
def Leaves (p : Nat) (console after : Console Termios) : Prop :=
  console.session.control.foregroundJob = some p ∧ after.session.control.foregroundJob = none

instance (p : Nat) (console after : Console Termios) : Decidable (Leaves p console after) :=
  inferInstanceAs (Decidable (_ ∧ _))

/-- The process at an address is made of a line. -/
def Allocates (p : Nat) : Move Termios → Prop
  | .session (.line _ _ q) => q = p
  | _ => False

instance (p : Nat) : (move : Move Termios) → Decidable (Allocates p move)
  | .session (.line _ _ q) => inferInstanceAs (Decidable (q = p))
  | .session .builtin => isFalse id
  | .session (.fork _) => isFalse id
  | .session (.waitpid _) => isFalse id
  | .job _ => isFalse id

/-- In a run the job at an address has left the foreground with these modes and has not been there
since. -/
def LeftWith (start : Console Termios) (run : List (Move Termios × Console Termios)) (p : Nat)
    (modes : Termios) : Prop :=
  ∃ before move behind, run = before ++ move :: behind ∧ Leaves p (final start before) move.2 ∧
    (final start before).modes = modes ∧
    Each (fun source move after => ¬ Leaves p source after ∧ ¬ Allocates p move) move.2 behind

/-- The shell has its own modes, and so has the terminal where no job is in the foreground. -/
structure OwnModes (own : Termios) (console : Console Termios) : Prop where
  /-- The shell never changes them. -/
  shell : console.shellTmodes = own
  /-- The terminal has them. -/
  terminal : console.session.control.foregroundJob = none → console.modes = own

/-- What a session does with the modes of its terminal. -/
structure ModesKept (start : Console Termios) (run : List (Move Termios × Console Termios)) : Prop where
  /-- Where no job is in the foreground the terminal has the modes of the shell. -/
  shell : (final start run).session.control.foregroundJob = none →
    (final start run).modes = start.shellTmodes
  /-- A job that is not stopped is put in the foreground with the modes of the shell. -/
  begun : ∀ move after p, (final start run).next move = some after →
    (final start run).session.control.foregroundJob = none →
      after.session.control.foregroundJob = some p →
        ((final start run).session.store p).stopped = false → after.modes = start.shellTmodes
  /-- A stopped one is continued there with the modes with which it left it. -/
  continued : ∀ session p builtin modes, (final start run).session.step .builtin = some session →
    session.control = .foreground p builtin → ((final start run).session.store p).stopped = true →
      ((∃ after, (final start run).next (.session .builtin) = some after ∧ after.modes = modes) ↔
        LeftWith start run p modes)

variable {console after start : Console Termios} {move : Move Termios} {event : Event} {p : Nat}
  {run : List (Move Termios × Console Termios)}

/-- A process is made of a line, at the prompt. -/
theorem line_of_allocates {session session' : Session} (taken : session.step event = some session')
    (allocates : Allocates p (.session event : Move Termios)) :
    session.control = .prompt ∧ ∃ env inputString, event = .line env inputString p := by
  cases event with
  | line env inputString q =>
    obtain rfl : q = p := allocates
    refine ⟨?_, env, inputString, rfl⟩
    unfold Session.step at taken
    cases place : session.control with
    | prompt => rfl
    | dispatch _ | foreground _ _ | waiting _ | exited =>
      rw [place] at taken
      cases taken
  | builtin | fork _ | waitpid _ => exact absurd allocates id

/-- Another place than the foreground has no job. -/
theorem foregroundJob_eq_none {control : Control} :
    control.foregroundJob = none ↔ ∀ p builtin, control ≠ .foreground p builtin := by
  cases control with
  | foreground p builtin =>
    exact ⟨fun none => absurd none (Option.some_ne_none p), fun other => absurd rfl (other p builtin)⟩
  | prompt | dispatch _ | waiting _ | exited =>
    exact ⟨fun _ _ _ same => Control.noConfusion same, fun _ => rfl⟩

/-- What a step can do to the modes. -/
inductive Console.Call (console : Console Termios) : Move Termios → Console Termios → Prop
  /-- The job in the foreground sets those of the terminal. -/
  | sets {p : Nat} (modes : Termios) (place : console.session.control.foregroundJob = some p) :
      Call console (.job modes) { console with modes }
  /-- A process is made, with `tmodes` uninitialised. -/
  | allocates {env : Environment} {inputString : List UInt8} {p : Nat} {session : Session}
      (place : console.session.control.foregroundJob = none) :
      Call console (.session (.line env inputString p))
        { console with session, tmodes := Function.update console.tmodes p none }
  /-- A job is continued with its own. -/
  | resumes {p : Nat} {modes : Termios} {session : Session}
      (from' : console.session.control.foregroundJob = none)
      (place : session.control.foregroundJob = some p)
      (stopped : (console.session.store p).stopped = true) (kept : console.tmodes p = some modes) :
      Call console (.session .builtin) { console with session, modes }
  /-- The shell keeps those of a job and sets its own. -/
  | leaves {p : Nat} {event : Event} {session : Session}
      (notLine : ∀ q, ¬ Allocates q (.session event : Move Termios))
      (from' : console.session.control.foregroundJob = some p)
      (place : session.control.foregroundJob = none) :
      Call console (.session event)
        { console with
          session
          modes := console.shellTmodes
          tmodes := Function.update console.tmodes p (some console.modes) }
  /-- They stay as they are. -/
  | keeps {event : Event} {session : Session} (notLine : ∀ p, ¬ Allocates p (.session event : Move Termios))
      (place : ∀ p, console.session.control.foregroundJob = some p →
        session.control.foregroundJob ≠ none) :
      Call console (.session event) { console with session }

/-- Every step does one of these. -/
theorem ConsoleStep.call (taken : ConsoleStep console move after) : console.Call move after := by
  unfold ConsoleStep Console.next at taken
  cases move with
  | job modes =>
    simp only at taken
    split at taken
    · rename_i place
      obtain rfl := Option.some.inj taken
      exact .sets modes (congrArg Control.foregroundJob place)
    · contradiction
  | session event =>
    obtain ⟨session, stepped, goes⟩ := Option.bind_eq_some_iff.mp taken
    split at goes
    · rename_i place
      obtain rfl := Option.some.inj goes
      exact .allocates (congrArg Control.foregroundJob place)
    · rename_i place target
      split at goes
      · rename_i stopped
        obtain ⟨modes, kept, rfl⟩ := Option.map_eq_some_iff.mp goes
        exact .resumes (congrArg Control.foregroundJob place)
          (congrArg Control.foregroundJob target) stopped kept
      · obtain rfl := Option.some.inj goes
        refine .keeps (fun _ allocates => allocates) ?_
        intro q job
        rw [place] at job
        cases job
    · rename_i place target
      obtain rfl := Option.some.inj goes
      refine .keeps ?_ ?_
      · intro r allocates
        rw [(line_of_allocates stepped allocates).1] at place
        cases place
      · intro r _
        rw [target]
        exact Option.some_ne_none _
    · rename_i place other
      obtain rfl := Option.some.inj goes
      refine .leaves ?_ (congrArg Control.foregroundJob place) (foregroundJob_eq_none.mpr other)
      intro r allocates
      rw [(line_of_allocates stepped allocates).1] at place
      cases place
    · rename_i notForeground notLine _ _
      obtain rfl := Option.some.inj goes
      refine .keeps ?_ ?_
      · intro r allocates
        obtain ⟨place, env, inputString, line⟩ := line_of_allocates stepped allocates
        exact notLine env inputString r place line
      · intro r job
        rw [foregroundJob_eq_none.mpr notForeground] at job
        cases job

/-! ## Steps -/

/-- What a step stores in `tmodes` of a process, or that it is made anew. -/
def Console.stores (p : Nat) (console : Console Termios) (move : Move Termios) (after : Console Termios) :
    Option (Option Termios) :=
  if Leaves p console after then some (some console.modes)
  else if Allocates p move then some none else none

/-- A step changes `tmodes` of a process only when the job leaves the foreground, or when the process
is made. -/
theorem ConsoleStep.tmodes (taken : ConsoleStep console move after) (p : Nat) :
    after.tmodes p = (console.stores p move after).getD (console.tmodes p) := by
  unfold Console.stores
  cases taken.call with
  | sets modes place => simp [Leaves, place, Allocates]
  | @allocates env inputString q session place =>
    by_cases same : q = p
    · simp [Leaves, place, Allocates, same]
    · simp [Leaves, place, Allocates, same, Function.update_of_ne (Ne.symm same)]
  | resumes from' place stopped kept => simp [Leaves, from', Allocates]
  | @leaves q event session notLine from' place =>
    by_cases same : q = p
    · simp [Leaves, from', place, same]
    · simp [Leaves, from', notLine p, same, Function.update_of_ne (Ne.symm same)]
  | @keeps event session notLine place =>
    have stays : ¬ Leaves p console { console with session } := fun left => place p left.1 left.2
    rw [if_neg stays, if_neg (notLine p)]
    rfl

/-- A step stores modes where the job leaves with them. -/
theorem stores_eq_some {modes : Termios} :
    console.stores p move after = some (some modes) ↔ Leaves p console after ∧ console.modes = modes := by
  unfold Console.stores
  split
  · rename_i left
    simp [left]
  · rename_i stays
    split <;> simp [stays]

/-- It stores nothing where the job does not leave and the process is not made. -/
theorem stores_eq_none :
    console.stores p move after = none ↔ ¬ Leaves p console after ∧ ¬ Allocates p move := by
  unfold Console.stores
  split
  · rename_i left
    simp [left]
  · rename_i stays
    split <;> rename_i allocates <;> simp [stays, allocates]

/-- Every step leaves the terminal with the modes of the shell where no job is in the foreground. -/
theorem OwnModes.step {own : Termios} (holds : OwnModes own console)
    (taken : ConsoleStep console move after) : OwnModes own after := by
  obtain ⟨shell, terminal⟩ := holds
  cases taken.call with
  | sets modes place =>
    exact ⟨shell, fun none => absurd (place.symm.trans none) (Option.some_ne_none _)⟩
  | allocates place => exact ⟨shell, fun _ => terminal place⟩
  | resumes from' place stopped kept =>
    exact ⟨shell, fun none => absurd (place.symm.trans none) (Option.some_ne_none _)⟩
  | leaves notLine from' place => exact ⟨shell, fun _ => shell⟩
  | keeps notLine place =>
    refine ⟨shell, fun none => terminal ?_⟩
    cases job : console.session.control.foregroundJob with
    | none => rfl
    | some p => exact absurd none (place p job)

/-- A job that is not stopped is put in the foreground with the modes of the shell. -/
theorem ConsoleStep.begins {own : Termios} (taken : ConsoleStep console move after)
    (holds : OwnModes own console) (idle : console.session.control.foregroundJob = none)
    (job : after.session.control.foregroundJob = some p)
    (running : (console.session.store p).stopped = false) : after.modes = own := by
  cases taken.call with
  | sets modes place => exact absurd (place.symm.trans idle) (Option.some_ne_none _)
  | allocates place => exact holds.terminal idle
  | resumes from' place stopped kept =>
    obtain rfl := Option.some.inj (place.symm.trans job)
    exact absurd (stopped.symm.trans running) Bool.noConfusion
  | leaves notLine from' place => exact absurd (from'.symm.trans idle) (Option.some_ne_none _)
  | keeps notLine place => exact holds.terminal idle

/-! ## Sessions -/

/-- Continuing a job in the foreground gives the terminal what `tmodes` of the job holds. -/
theorem Console.next_stopped {session : Session} {builtin : Option Nat} {modes : Termios}
    (taken : console.session.step .builtin = some session)
    (place : session.control = .foreground p builtin)
    (stopped : (console.session.store p).stopped = true) :
    (∃ after, console.next (.session .builtin) = some after ∧ after.modes = modes) ↔
      console.tmodes p = some modes := by
  have next : console.next (.session .builtin) =
      (console.tmodes p).map fun modes => { console with session, modes } := by
    unfold Console.next
    simp only [taken, Option.bind_some]
    unfold Session.step at taken
    cases dispatch : console.session.control with
    | dispatch q => simp only [place, stopped, if_true]
    | prompt | foreground _ _ | waiting _ | exited =>
      rw [dispatch] at taken
      cases taken
  rw [next]
  constructor
  · rintro ⟨after, given, rfl⟩
    obtain ⟨kept, isKept, rfl⟩ := Option.map_eq_some_iff.mp given
    exact isKept
  · intro kept
    rw [kept]
    exact ⟨_, rfl, rfl⟩

/-- In every session that the shell begins with its own modes, the terminal has them wherever no job is
in the foreground; and a stopped job that is put there again gets the modes with which it was there
last, while for one that never was there C leaves open what the terminal gets. -/
theorem modes_kept (own : start.modes = start.shellTmodes) (unset : start.tmodes = fun _ => none)
    (steps : IsRun ConsoleStep start run) : ModesKept start run := by
  have kept : OwnModes start.shellTmodes (final start run) :=
    steps.reachable.invariant ⟨rfl, fun _ => own⟩ fun _ _ _ holds taken => holds.step taken
  constructor
  · exact kept.terminal
  · intro move after p taken idle job running
    exact ConsoleStep.begins taken kept idle job running
  · intro session p builtin modes taken place stopped
    rw [Console.next_stopped taken place stopped,
      steps.cell_eq_iff (fun _ _ _ taken => taken.tmodes p) (some modes)]
    have unknown : start.tmodes p ≠ some modes := by
      rw [unset]
      exact (Option.some_ne_none modes).symm
    simp only [unknown, false_and, or_false, stores_eq_some, stores_eq_none, and_assoc]
    rfl

/-- A fresh shell, and a terminal whose modes are numbers. -/
def freshConsole : Console Nat where
  session := freshSession
  modes := 1
  shellTmodes := 1
  tmodes := fun _ => none

/-- A job that changes the modes and is stopped in the foreground, up to the search for the builtin
that puts it there again. -/
def changedModes : List (Move Nat × Console Nat) :=
  trace Console.next freshConsole
    [.session (.line binEnvironment (ascii "/bin/ls\n") 8192), .session (.fork (some 7)), .job 5,
      .session (.waitpid (.child 7 (.stopped 20))),
      .session (.line binEnvironment (ascii "fg 7\n") 12288)]

/-- The terminal has the modes of the shell at the end of it, and then the job gets its own. -/
theorem modes_kept_changedModes :
    changedModes.length = 5 ∧ (final freshConsole changedModes).modes = 1 ∧
      ((final freshConsole changedModes).next (.session .builtin)).map (·.modes) = some 5 ∧
        ModesKept freshConsole changedModes := by
  have steps : IsRun ConsoleStep freshConsole changedModes :=
    isRun_trace (fun _ _ _ performed => performed) _ _
  exact ⟨by decide +kernel, by decide +kernel, by decide +kernel, modes_kept rfl rfl steps⟩

/-- A job that is stopped in the background, up to the same place. -/
def neverThere : List (Move Nat × Console Nat) :=
  trace Console.next freshConsole
    [.session (.line binEnvironment (ascii "/bin/ls &\n") 8192), .session (.fork (some 7)),
      .session (.line binEnvironment (ascii "/bin/ls\n") 12288), .session (.fork (some 8)),
      .session (.waitpid (.child 7 (.stopped 20))), .session (.waitpid (.child 8 (.exited 0))),
      .session (.line binEnvironment (ascii "fg 7\n") 16384)]

-- the session goes on, but what the terminal gets is not initialised
example : neverThere.length = 7 ∧
    ((final freshConsole neverThere).session.step .builtin).isSome = true ∧
      ((final freshConsole neverThere).next (.session .builtin)).isSome = false := by decide +kernel

end OsAssignments.Shell
