import OsAssignments.Shell.Session

/-!
# Descriptors of a session

`create_process` opens the files of a line in the shell, and what it opens is used and closed only
in the child. Nothing the shell does closes a descriptor, so the set it has open grows with every
redirection that can be opened, and is the same from prompt to prompt exactly when none can.
-/

namespace OsAssignments.Shell

open Text Transition

/-- The descriptors at a prompt are those the shell was started with. -/
def DescriptorsKept (start session : Session) : Prop :=
  session.control = .prompt → session.descriptors.opened = start.descriptors.opened

/-- The file that a line redirects a stream to, if there is one, cannot be opened: it is refused,
or no descriptor is left. -/
def Refused (env : Environment) (table : Descriptors) (inputString : List UInt8) (stream : Stream) :
    Prop :=
  ∀ path ∈ (cutLine env.below inputString stream).1,
    env.permits path stream.mode = false ∨ table.unused env.limit = none

/-- None of the files that a line redirects to can be opened. -/
def LeavesClosed (session : Session) (event : Event) (_ : Session) : Prop :=
  match event with
  | .line env inputString _ => ∀ stream, Refused env session.descriptors inputString stream
  | _ => True

instance (env : Environment) (table : Descriptors) (inputString : List UInt8) (stream : Stream) :
    Decidable (Refused env table inputString stream) :=
  inferInstanceAs (Decidable (∀ path ∈ (cutLine env.below inputString stream).1,
    env.permits path stream.mode = false ∨ table.unused env.limit = none))

instance (session after : Session) (event : Event) : Decidable (LeavesClosed session event after) :=
  match event with
  | .line env inputString _ =>
    decidable_of_iff (Refused env session.descriptors inputString .error ∧
      Refused env session.descriptors inputString .output ∧
      Refused env session.descriptors inputString .input)
      ⟨fun ⟨error, output, input⟩ stream => by cases stream <;> assumption,
        fun closed => ⟨closed .error, closed .output, closed .input⟩⟩
  | .builtin => isTrue trivial
  | .fork _ => isTrue trivial
  | .waitpid _ => isTrue trivial

variable {env : Environment} {table table' : Descriptors} {stream : Stream} {session after : Session}
  {event : Event} {p nextP : Nat}

/-! ## Opening -/

/-- What is not in use depends on what is open only. -/
theorem Descriptors.unused_congr (same : table'.opened = table.opened) (limit : Nat) :
    table'.unused limit = table.unused limit := by
  rw [Descriptors.unused, same, Descriptors.unused]

/-- Opening a file closes none. -/
theorem openTarget_subset (env : Environment) (table : Descriptors) (stream : Stream)
    (target : Option (List UInt8)) : table.opened ⊆ (openTarget env table stream target).2.opened := by
  cases target with
  | none => exact subset_rfl
  | some path =>
    rw [openTarget, Descriptors.open_]
    split
    · exact Finset.subset_insert _ _
    · exact subset_rfl

/-- The descriptors stay as they are exactly when the file cannot be opened. -/
theorem openTarget_kept_iff (env : Environment) (table : Descriptors) (stream : Stream)
    (target : Option (List UInt8)) :
    (openTarget env table stream target).2.opened = table.opened ↔
      ∀ path, target = some path →
        env.permits path stream.mode = false ∨ table.unused env.limit = none := by
  cases target with
  | none => simp [openTarget]
  | some path =>
    rw [openTarget, Descriptors.open_]
    cases permitted : env.permits path stream.mode with
    | false => simp [permitted]
    | true =>
      cases unused : table.unused env.limit with
      | none => simp
      | some fd =>
        have free : fd ∉ table.opened := by simpa using List.find?_some unused
        have grows : insert fd table.opened ≠ table.opened := fun same =>
          free (Finset.insert_eq_self.mp same)
        simp [permitted, grows]

/-- The three files leave the descriptors as they are exactly when none of them can be opened. -/
theorem openTargets_kept_iff (env : Environment) (table : Descriptors)
    (target : Stream → Option (List UInt8)) :
    (openTargets env table target).opened = table.opened ↔
      ∀ stream path, target stream = some path →
        env.permits path stream.mode = false ∨ table.unused env.limit = none := by
  have error := openTarget_kept_iff env table .error (target .error)
  have errorSubset := openTarget_subset env table .error (target .error)
  rw [openTargets]
  generalize (openTarget env table .error (target .error)).2 = first at error errorSubset
  have output := openTarget_kept_iff env first .output (target .output)
  have outputSubset := openTarget_subset env first .output (target .output)
  generalize (openTarget env first .output (target .output)).2 = second at output outputSubset
  have input := openTarget_kept_iff env second .input (target .input)
  have inputSubset := openTarget_subset env second .input (target .input)
  generalize (openTarget env second .input (target .input)).2 = third at input inputSubset
  constructor
  · intro same
    have secondSame : second.opened = table.opened :=
      (inputSubset.trans same.subset).antisymm (errorSubset.trans outputSubset)
    have firstSame : first.opened = table.opened :=
      (outputSubset.trans secondSame.subset).antisymm errorSubset
    intro stream path named
    cases stream with
    | error => exact error.mp firstSame path named
    | output =>
      rw [← Descriptors.unused_congr firstSame]
      exact output.mp (secondSame.trans firstSame.symm) path named
    | input =>
      rw [← Descriptors.unused_congr secondSame]
      exact input.mp (same.trans secondSame.symm) path named
  · intro refused
    have firstSame := error.mpr (refused .error)
    have secondSame : second.opened = first.opened := by
      apply output.mpr
      rw [Descriptors.unused_congr firstSame]
      exact refused .output
    have thirdSame : third.opened = second.opened := by
      apply input.mpr
      rw [Descriptors.unused_congr (secondSame.trans firstSame)]
      exact refused .input
    exact thirdSame.trans (secondSame.trans firstSame)

/-! ## Steps -/

/-- The end of a command leaves the descriptors alone. -/
theorem finish_descriptors (finished : session.finish = some after) :
    after.descriptors = session.descriptors := by
  obtain ⟨store, _, rfl⟩ := Option.map_eq_some_iff.mp finished
  rfl

/-- So does the end of a builtin. -/
theorem complete_descriptors (completed : session.complete p = some after) :
    after.descriptors = session.descriptors :=
  (finish_descriptors completed).trans rfl

/-- So does the loop of `cmd_wait`. -/
theorem waitLoop_descriptors (taken : session.waitLoop nextP = some after) :
    after.descriptors = session.descriptors := by
  obtain ⟨numActive, _, goes⟩ := Option.bind_eq_some_iff.mp taken
  split at goes
  · cases goes
    rfl
  · exact complete_descriptors goes

/-- So does every builtin. -/
theorem runBuiltin_descriptors {builtin : Builtin}
    (taken : session.runBuiltin builtin nextP = some after) :
    after.descriptors = session.descriptors := by
  cases builtin with
  | help => exact complete_descriptors taken
  | quit =>
    cases taken
    rfl
  | cd => exact complete_descriptors taken
  | plist => exact complete_descriptors taken
  | fg =>
    obtain ⟨job, _, goes⟩ := Option.bind_eq_some_iff.mp taken
    cases job with
    | none => exact complete_descriptors goes
    | some q =>
      cases goes
      rfl
  | bg =>
    obtain ⟨job, _, goes⟩ := Option.bind_eq_some_iff.mp taken
    cases job with
    | none => exact complete_descriptors goes
    | some q => exact (complete_descriptors goes).trans rfl
  | wait => exact waitLoop_descriptors taken

/-- So does the parent of a `fork`. -/
theorem launchProcess_descriptors {reply : Option Nat}
    (taken : session.launchProcess p reply = some after) :
    after.descriptors = session.descriptors := by
  cases reply with
  | none => exact finish_descriptors taken
  | some pid =>
    rw [Session.launchProcess] at taken
    split at taken
    · exact (finish_descriptors taken).trans rfl
    · cases taken
      rfl

/-- So does what `waitpid` returns. -/
theorem mark_descriptors {reply : Reply} {returned : Int}
    (marked : session.mark reply = some (returned, after)) :
    after.descriptors = session.descriptors := by
  cases reply with
  | noChild =>
    cases marked
    rfl
  | interrupted =>
    cases marked
    rfl
  | child pid status =>
    rw [Session.mark] at marked
    split at marked
    · obtain ⟨store, _, same⟩ := Option.map_eq_some_iff.mp marked
      cases same
      rfl
    · cases marked
      rfl

/-- So does leaving the foreground. -/
theorem leaveForeground_descriptors {builtin : Option Nat}
    (taken : session.leaveForeground builtin = some after) :
    after.descriptors = session.descriptors := by
  unfold Session.leaveForeground at taken
  generalize session.effects ++ [Effect.terminal session.shellPgid] = effects at taken
  cases builtin with
  | none => exact @finish_descriptors { session with effects } after taken
  | some nextP => exact @complete_descriptors { session with effects } after nextP taken

/-- Reading a line opens what it redirects to. -/
theorem readLine_descriptors {inputString : List UInt8}
    (read : session.readLine env inputString p = some after) :
    after.descriptors = openTargets env session.descriptors fun stream =>
      (cutLine env.below inputString stream).1 := by
  obtain ⟨nodes, _, taken⟩ := Option.bind_eq_some_iff.mp read
  split at taken
  · contradiction
  split at taken
  · contradiction
  rename_i process descriptors created
  obtain ⟨store, _, same⟩ := Option.map_eq_some_iff.mp taken
  cases same
  have fits : (CString.read inputString).length < bufferSize := by
    by_contra long
    rw [createProcess, if_pos (Nat.le_of_not_lt long)] at created
    cases created
  rw [← createProcess_opens fits, created]

/-- A step opens what a line redirects to, and nothing else opens or closes. -/
theorem step_descriptors (taken : Step session event after) :
    after.descriptors =
      match event with
      | .line env inputString _ => openTargets env session.descriptors fun stream =>
          (cutLine env.below inputString stream).1
      | _ => session.descriptors := by
  unfold Step Session.step at taken
  split at taken
  · exact readLine_descriptors taken
  · obtain ⟨nextP, _, goes⟩ := Option.bind_eq_some_iff.mp taken
    split at goes
    · exact runBuiltin_descriptors goes
    · split at goes
      · exact complete_descriptors goes
      · contradiction
  · obtain ⟨nextP, _, goes⟩ := Option.bind_eq_some_iff.mp taken
    split at goes
    · exact launchProcess_descriptors goes
    · contradiction
  · obtain ⟨children, _, goes⟩ := Option.bind_eq_some_iff.mp taken
    obtain ⟨⟨returned, marked⟩, isMarked, goes⟩ := Option.bind_eq_some_iff.mp goes
    have same := mark_descriptors isMarked
    simp only at goes
    split at goes
    · cases goes
      exact same
    · exact (leaveForeground_descriptors goes).trans same
  · obtain ⟨children, _, goes⟩ := Option.bind_eq_some_iff.mp taken
    obtain ⟨⟨returned, marked⟩, isMarked, goes⟩ := Option.bind_eq_some_iff.mp goes
    have same := mark_descriptors isMarked
    exact (waitLoop_descriptors goes).trans same
  · contradiction

/-- No step closes a descriptor. -/
theorem step_opened_subset (taken : Step session event after) :
    session.descriptors.opened ⊆ after.descriptors.opened := by
  rw [step_descriptors taken]
  cases event with
  | line env inputString p =>
    exact ((openTarget_subset _ _ _ _).trans (openTarget_subset _ _ _ _)).trans
      (openTarget_subset _ _ _ _)
  | builtin => exact subset_rfl
  | fork reply => exact subset_rfl
  | waitpid reply => exact subset_rfl

/-- A step keeps the descriptors exactly when no file that a line redirects to can be opened. -/
theorem step_kept_iff (taken : Step session event after) :
    after.descriptors.opened = session.descriptors.opened ↔ LeavesClosed session event after := by
  rw [step_descriptors taken]
  cases event with
  | line env inputString p => exact openTargets_kept_iff _ _ _
  | builtin => exact iff_of_true rfl trivial
  | fork reply => exact iff_of_true rfl trivial
  | waitpid reply => exact iff_of_true rfl trivial

/-- In every session that has come to a prompt, the descriptors at each prompt are those at the
start if and only if no file that one of its lines redirects to could be opened. -/
theorem descriptorsKept_iff_leavesClosed {start : Session} {run : List (Event × Session)}
    (steps : IsRun Step start run) (prompt : (final start run).control = .prompt) :
    Always (DescriptorsKept start) start run ↔ Each LeavesClosed start run := by
  have ends : (final start run).descriptors.opened = start.descriptors.opened ↔
      Each LeavesClosed start run :=
    @IsRun.final_eq_iff_each _ _ Step LeavesClosed _ _ (fun session => session.descriptors.opened)
      start run steps (fun _ _ _ => step_opened_subset) (fun _ _ _ => step_kept_iff)
  constructor
  · intro always
    exact ends.mp (always.final prompt)
  · intro each
    have always := @IsRun.always_eq_of_each _ _ Step LeavesClosed _
      (fun session => session.descriptors.opened) start run steps
      (fun _ _ _ taken closed => (step_kept_iff taken).mpr closed) each
    exact always.imp fun _ same _ => same

/-- A session in which a program is run with its output redirected. -/
def redirectedRun : List (Event × Session) :=
  trace Session.step freshSession [.line binEnvironment (ascii "/bin/ls > out\n") 8192, .fork (some 7),
    .waitpid (.child 7 (.exited 0))]

/-- A system like the other one, in which no file can be opened for a redirection. -/
def readOnlyEnvironment : Environment := { binEnvironment with permits := fun _ _ => false }

/-- A session with a redirection that is refused, a background job and a builtin. -/
def closedRun : List (Event × Session) :=
  trace Session.step freshSession [.line readOnlyEnvironment (ascii "/bin/ls > out\n") 8192,
    .fork (some 7), .waitpid (.child 7 (.exited 0)), .line binEnvironment (ascii "/bin/ls &\n") 8192,
    .fork (some 8), .line binEnvironment (ascii "wait\n") 12288, .builtin,
    .waitpid (.child 8 (.signaled 9))]

/-- A redirection leaves a descriptor open at the next prompt. -/
theorem redirectedRun_leaks : ¬ ∀ (start : Session) (run : List (Event × Session)), Initial start →
    IsRun Step start run → Always (DescriptorsKept start) start run := by
  intro claim
  have always := claim freshSession redirectedRun freshSession_initial
    (isRun_trace (fun _ _ _ performed => performed) _ _)
  have kept := always.final
  revert kept
  unfold DescriptorsKept
  decide +kernel

/-- The session without redirections that can be opened keeps its descriptors. -/
theorem descriptorsKept_closedRun :
    closedRun.length = 8 ∧ Always (DescriptorsKept freshSession) freshSession closedRun :=
  ⟨by decide +kernel, (descriptorsKept_iff_leavesClosed
    (isRun_trace (fun _ _ _ performed => performed) _ _) (by decide +kernel)).mpr (by decide +kernel)⟩

end OsAssignments.Shell
