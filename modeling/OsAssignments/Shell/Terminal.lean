import OsAssignments.Shell.Leaks
import OsAssignments.Shell.Waiting

/-!
# Who has the terminal

`put_process_in_foreground` calls `tcsetpgrp` with the pid of a job, waits, and calls it with the group of
the shell. In every session the calls come in such pairs, but for one that is still open while the shell
waits for a job in the foreground. The first call of a pair may fail, as it does for pid 0: then the
terminal stays with the shell. Whatever the replies to these are, the terminal is the shell's wherever it
does not wait for a job in the foreground, provided that it is always allowed to take the terminal back.
-/

namespace OsAssignments.Shell

open Text Transition

/-- The groups that `tcsetpgrp` has been called with, one after another. -/
def terminals (effects : List Effect) : List Int :=
  effects.filterMap fun effect =>
    match effect with
    | .terminal pgid => some pgid
    | .signal _ => none

/-- Each call with a borrower's group is followed by one with the group of the shell. -/
def TakenBack (shellPgid : Int) (moves : List Int) : Prop :=
  ∃ borrowers : List Int, moves = borrowers.flatMap fun pgid => [pgid, shellPgid]

/-- The calls come in pairs, but for the last one while the shell waits for a job: that is with its pid. -/
def CallsPaired (session : Session) : Prop :=
  match session.control with
  | .foreground p _ => ∃ before, TakenBack session.shellPgid before ∧
      terminals session.effects = before ++ [(session.store p).pid]
  | _ => TakenBack session.shellPgid (terminals session.effects)

/-- Who has the terminal after some calls of `tcsetpgrp` with their replies: a call that fails changes
nothing. -/
def holder (own : Int) (calls : List (Int × Bool)) : Int :=
  calls.foldl (fun pgid (call : Int × Bool) => if call.2 then call.1 else pgid) own

/-- The terminal is with the shell wherever it waits for no job in the foreground, and with that job
otherwise, unless the call that should give it the terminal has failed. The calls have any replies, but
the shell is always allowed to take the terminal back. -/
structure TerminalHolds (session : Session) : Prop where
  /-- The calls. -/
  paired : CallsPaired session
  /-- The terminal. -/
  held : ∀ replies : List Bool, replies.length = (terminals session.effects).length →
    (∀ call ∈ (terminals session.effects).zip replies, call.1 = session.shellPgid → call.2 = true) →
      holder session.shellPgid ((terminals session.effects).zip replies) =
        match session.control with
        | .foreground p _ =>
          if replies.getLast? = some true then (session.store p).pid else session.shellPgid
        | _ => session.shellPgid

/-- A command that is over, or waits for no job in the foreground, has not called `tcsetpgrp`. -/
structure Idle (session after : Session) : Prop where
  /-- There are no new calls. -/
  moved : terminals after.effects = terminals session.effects
  /-- The shell has its group. -/
  shellPgid : after.shellPgid = session.shellPgid
  /-- It does not wait for a job in the foreground. -/
  control : ∀ p builtin, after.control ≠ .foreground p builtin

variable {session after : Session} {event : Event} {p nextP : Nat} {shellPgid pgid : Int}
  {moves : List Int}

/-! ## Lending -/

/-- The terminals moved by two lists of effects. -/
theorem terminals_append (effects effects' : List Effect) :
    terminals (effects ++ effects') = terminals effects ++ terminals effects' :=
  List.filterMap_append

/-- Lending the terminal once more and taking it back. -/
theorem TakenBack.lend (taken : TakenBack shellPgid moves) (pgid : Int) :
    TakenBack shellPgid (moves ++ [pgid] ++ [shellPgid]) := by
  obtain ⟨borrowers, rfl⟩ := taken
  exact ⟨borrowers ++ [pgid], by simp⟩

/-- Where no job is in the foreground the terminal is the shell's. -/
theorem callsPaired_idle (idle : ∀ p builtin, session.control ≠ .foreground p builtin) :
    CallsPaired session ↔ TakenBack session.shellPgid (terminals session.effects) := by
  unfold CallsPaired
  cases place : session.control with
  | foreground p builtin => exact absurd place (idle p builtin)
  | prompt | dispatch _ | waiting _ | exited => exact Iff.rfl

/-- Behind such a command the terminal is the shell's when it was before. -/
theorem Idle.holds (idle : Idle session after)
    (taken : TakenBack session.shellPgid (terminals session.effects)) : CallsPaired after := by
  rw [callsPaired_idle idle.control, idle.moved, idle.shellPgid]
  exact taken

/-! ## Commands -/

/-- The end of a command moves no terminal. -/
theorem finish_idle (finished : session.finish = some after) : Idle session after := by
  obtain ⟨store, _, rfl⟩ := Option.map_eq_some_iff.mp finished
  exact ⟨rfl, rfl, by simp⟩

/-- Neither does the end of a builtin. -/
theorem complete_idle (completed : session.complete nextP = some after) : Idle session after := by
  obtain ⟨moved, shellPgid, control⟩ := finish_idle completed
  exact ⟨moved, shellPgid, control⟩

/-- Nor the loop of `cmd_wait`. -/
theorem waitLoop_idle (taken : session.waitLoop nextP = some after) : Idle session after := by
  obtain ⟨numActive, _, goes⟩ := Option.bind_eq_some_iff.mp taken
  split at goes
  · cases goes
    exact ⟨rfl, rfl, by simp⟩
  · exact complete_idle goes

/-- Putting a job in the background moves no terminal. -/
theorem background_terminals (session : Session) (p : Nat) (cont : Bool) :
    terminals (session.putProcessInBackground p cont).effects = terminals session.effects := by
  cases cont <;> simp [Session.putProcessInBackground, Session.modify, terminals]

/-- Putting one in the foreground lends it the terminal. -/
theorem foreground_holds (taken : TakenBack session.shellPgid (terminals session.effects))
    (p : Nat) (cont : Bool) (builtin : Option Nat) :
    CallsPaired (session.putProcessInForeground p cont builtin) := by
  refine ⟨terminals session.effects, taken, ?_⟩
  have pid : ((session.putProcessInForeground p cont builtin).store p).pid = (session.store p).pid := by
    rw [Session.store_foreground, Store.modify_same]
  have given : (session.putProcessInForeground p cont builtin).effects =
      session.effects ++ .terminal (session.store p).pid ::
        if cont then [.signal (-(session.store p).pid)] else [] := rfl
  rw [given, terminals_append, pid]
  cases cont <;> rfl

/-- A builtin moves the terminal when it puts a job in the foreground only. -/
theorem runBuiltin_holds {builtin : Builtin}
    (held : TakenBack session.shellPgid (terminals session.effects))
    (taken : session.runBuiltin builtin nextP = some after) : CallsPaired after := by
  cases builtin with
  | help => exact (complete_idle taken).holds held
  | quit =>
    cases taken
    exact held
  | cd => exact (complete_idle taken).holds held
  | plist => exact (complete_idle taken).holds held
  | fg =>
    obtain ⟨job, _, goes⟩ := Option.bind_eq_some_iff.mp taken
    cases job with
    | none => exact (complete_idle goes).holds held
    | some q =>
      cases goes
      exact foreground_holds held q _ _
  | bg =>
    obtain ⟨job, _, goes⟩ := Option.bind_eq_some_iff.mp taken
    cases job with
    | none => exact (complete_idle goes).holds held
    | some q =>
      apply (complete_idle goes).holds
      rw [background_terminals]
      exact held
  | wait => exact (waitLoop_idle taken).holds held

/-- So does the parent of a `fork`. -/
theorem launchProcess_holds {reply : Option Nat}
    (held : TakenBack session.shellPgid (terminals session.effects))
    (taken : session.launchProcess p reply = some after) : CallsPaired after := by
  cases reply with
  | none => exact (finish_idle taken).holds held
  | some pid =>
    rw [Session.launchProcess] at taken
    split at taken
    · apply (finish_idle taken).holds
      rw [background_terminals]
      exact held
    · obtain rfl := Option.some.inj taken
      refine foreground_holds ?_ p false none
      exact held

/-! ## Waiting -/

/-- What `waitpid` returns moves no terminal and changes no pid. -/
theorem mark_keeps {reply : Reply} {returned : Int}
    (marked : session.mark reply = some (returned, after)) :
    after.effects = session.effects ∧ after.shellPgid = session.shellPgid ∧
      after.control = session.control ∧ ∀ q, (after.store q).pid = (session.store q).pid := by
  cases reply with
  | noChild | interrupted =>
    cases marked
    exact ⟨rfl, rfl, rfl, fun _ => rfl⟩
  | child pid status =>
    rw [Session.mark] at marked
    split at marked
    · obtain ⟨⟨value, store⟩, found, same⟩ := Option.map_eq_some_iff.mp marked
      obtain ⟨entry, _, recorded⟩ := Option.map_eq_some_iff.mp found
      cases same
      refine ⟨rfl, rfl, rfl, fun q => ?_⟩
      cases entry with
      | none =>
        cases recorded
        rfl
      | some p =>
        cases recorded
        exact pid_record session.store p status q
    · cases marked
      exact ⟨rfl, rfl, rfl, fun _ => rfl⟩

/-- Leaving the foreground takes the terminal back. -/
theorem leaveForeground_holds {builtin : Option Nat} {before : List Int}
    (taken : TakenBack session.shellPgid before)
    (lent : terminals session.effects = before ++ [pgid])
    (left : session.leaveForeground builtin = some after) : CallsPaired after := by
  have back : terminals (session.effects ++ [Effect.terminal session.shellPgid]) =
      before ++ [pgid] ++ [session.shellPgid] := by
    rw [terminals_append, lent]
    rfl
  have idle : Idle { session with effects := session.effects ++ [.terminal session.shellPgid] } after := by
    cases builtin with
    | none => exact finish_idle left
    | some nextP => exact complete_idle left
  apply idle.holds
  rw [back]
  exact taken.lend pgid

/-! ## Sessions -/

/-- Every step moves the terminal as it should. -/
theorem CallsPaired.step (holds : CallsPaired session) (taken : Step session event after) :
    CallsPaired after := by
  have idle : (∀ p builtin, session.control ≠ .foreground p builtin) →
      TakenBack session.shellPgid (terminals session.effects) := fun idle =>
    (callsPaired_idle idle).mp holds
  unfold Step Session.step at taken
  split at taken
  · rename_i env inputString p prompt
    have held := idle (by simp [prompt])
    obtain ⟨nodes, _, read⟩ := Option.bind_eq_some_iff.mp taken
    split at read
    · contradiction
    split at read
    · contradiction
    · obtain ⟨store, _, rfl⟩ := Option.map_eq_some_iff.mp read
      exact held
  · rename_i p dispatch
    have held := idle (by simp [dispatch])
    obtain ⟨nextP, _, goes⟩ := Option.bind_eq_some_iff.mp taken
    split at goes
    · exact runBuiltin_holds held goes
    · split at goes
      · exact (complete_idle goes).holds held
      · contradiction
  · rename_i p dispatch
    have held := idle (by simp [dispatch])
    obtain ⟨nextP, _, goes⟩ := Option.bind_eq_some_iff.mp taken
    split at goes
    · exact launchProcess_holds held goes
    · contradiction
  · rename_i p builtin reply foreground
    obtain ⟨children, _, goes⟩ := Option.bind_eq_some_iff.mp taken
    obtain ⟨⟨returned, marked⟩, isMarked, goes⟩ := Option.bind_eq_some_iff.mp goes
    obtain ⟨effects, group, control, pids⟩ := mark_keeps isMarked
    rw [CallsPaired, foreground] at holds
    obtain ⟨before, back, lent⟩ := holds
    simp only at goes effects group control pids
    rw [← effects] at lent
    rw [← group] at back
    split at goes
    · obtain rfl := Option.some.inj goes
      rw [CallsPaired, control, foreground]
      exact ⟨before, back, by rw [pids]; exact lent⟩
    · exact leaveForeground_holds back lent goes
  · rename_i nextP reply waiting
    have held := idle (by simp [waiting])
    obtain ⟨children, _, goes⟩ := Option.bind_eq_some_iff.mp taken
    obtain ⟨⟨returned, marked⟩, isMarked, goes⟩ := Option.bind_eq_some_iff.mp goes
    obtain ⟨effects, group, _, _⟩ := mark_keeps isMarked
    apply (waitLoop_idle goes).holds
    simp only at effects group ⊢
    rw [effects, group]
    exact held
  · contradiction

/-- The last call has the last reply. -/
theorem zip_concat {replies : List Bool} (each : replies.length = (moves ++ [pgid]).length) :
    ∃ front reply, replies = front ++ [reply] ∧ front.length = moves.length ∧
      (moves ++ [pgid]).zip replies = moves.zip front ++ [(pgid, reply)] := by
  obtain ⟨front, reply, rfl⟩ := (List.eq_nil_or_concat' replies).resolve_left fun none => by
    rw [none] at each
    simp at each
  have lengths : front.length = moves.length := by simpa using each
  exact ⟨front, reply, rfl, lengths, List.zip_append lengths.symm⟩

/-- Calls that come in pairs leave the terminal with the shell. -/
theorem TakenBack.holder (taken : TakenBack shellPgid moves) {replies : List Bool}
    (each : replies.length = moves.length)
    (allowed : ∀ call ∈ moves.zip replies, call.1 = shellPgid → call.2 = true) :
    holder shellPgid (moves.zip replies) = shellPgid := by
  obtain ⟨borrowers, rfl⟩ := taken
  rcases List.eq_nil_or_concat' borrowers with rfl | ⟨before, borrower, rfl⟩
  · rfl
  · -- The last call is the shell's own.
    rw [List.flatMap_append, List.flatMap_singleton, List.append_cons] at each allowed ⊢
    obtain ⟨front, reply, rfl, _, calls⟩ := zip_concat each
    rw [calls] at allowed ⊢
    have granted : reply = true := allowed (shellPgid, reply) (by simp) rfl
    rw [Shell.holder, List.foldl_append, granted]
    rfl

/-- Where the calls come in pairs the terminal is where it should be. -/
theorem CallsPaired.holds (paired : CallsPaired session) : TerminalHolds session := by
  refine ⟨paired, fun replies each allowed => ?_⟩
  unfold CallsPaired at paired
  cases place : session.control with
  | foreground p builtin =>
    rw [place] at paired
    obtain ⟨before, taken, calls⟩ := paired
    rw [calls] at each allowed ⊢
    obtain ⟨front, reply, rfl, lengths, ends⟩ := zip_concat each
    rw [ends] at allowed ⊢
    have back := taken.holder lengths fun call member own =>
      allowed call (List.mem_append_left _ member) own
    rw [holder] at back
    rw [holder, List.foldl_append, back, List.getLast?_concat]
    cases reply <;> rfl
  | prompt | dispatch _ | waiting _ | exited =>
    rw [place] at paired
    exact paired.holder each allowed

end OsAssignments.Shell
