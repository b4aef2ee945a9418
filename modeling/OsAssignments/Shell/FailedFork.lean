import OsAssignments.Shell.Jobs

/-!
# After a failed fork

The search for the entry to run stops at the first one with pid 0, and a process that could not be
launched keeps pid 0 and is never completed. From the first `fork` that fails on it is the entry
found for every line, so every line is launched as a program: no builtin is run any more, `quit`
among them.
-/

namespace OsAssignments.Shell

open LinkedList Text Transition

/-- A program that has not been launched. -/
structure Unlaunched (process : Process) : Prop where
  /-- It has no pid. -/
  pid : process.pid = 0
  /-- It is not completed. -/
  pending : process.completed = false
  /-- It has a first word. -/
  words : process.argv ≠ []
  /-- That is not the name of a builtin. -/
  program : lookup process.argv.head? = none

/-- The first entry of the list without a pid is a program that has not been launched. -/
structure Blocked (store : Store) (firstProcess q : Nat) (before behind : List Nat) : Prop where
  /-- The entries are linked both ways. -/
  listed : Listed store (firstProcess :: (before ++ q :: behind))
  /-- The sentinel has pid −1 and is not completed. -/
  sentinel : (store firstProcess).pid = -1 ∧ (store firstProcess).completed = false
  /-- Those before have pids. -/
  pids : ∀ other ∈ before, (store other).pid ≠ 0
  /-- It has not been launched. -/
  stale : Unlaunched (store q)

/-- The same entry is found for every line, wherever the shell is. -/
def Jammed (q : Nat) (session : Session) : Prop :=
  match session.control with
  | .prompt | .foreground _ none =>
    ∃ before behind, Blocked session.store session.firstProcess q before behind
  | .dispatch p =>
    ∃ before behind, Blocked session.store session.firstProcess q before (behind ++ [p])
  | _ => False

/-- The list has a program that has not been launched. -/
def LeftOver (session : Session) : Prop :=
  ∃ nodes, Listed session.store (session.firstProcess :: nodes) ∧
    ∃ q ∈ nodes, Unlaunched (session.store q)

variable {store store' : Store} {session after : Session} {event : Event} {reply : Reply}
  {firstProcess p q : Nat} {before behind before' behind' jobs : List Nat}
  {change : Process → Process}

/-! ## Blocked lists -/

/-- The entry is found for dispatch. -/
theorem Blocked.dispatched (blocked : Blocked session.store session.firstProcess q before behind) :
    session.dispatched = some q := by
  have listed : Listed session.store ((session.firstProcess :: before) ++ q :: behind) :=
    blocked.listed
  apply listed.findLast_found rfl
  · intro other member
    rw [decide_eq_false_iff_not]
    rcases List.mem_cons.mp member with rfl | inner
    · have sentinel := blocked.sentinel.1
      omega
    · exact blocked.pids other inner
  · exact decide_eq_true blocked.stale.pid

/-- A list with the same contents is blocked by the same entry. -/
theorem Blocked.of_content (blocked : Blocked store firstProcess q before behind)
    (listed : Listed store' (firstProcess :: (before' ++ q :: behind')))
    (fewer : ∀ other ∈ before', other ∈ before)
    (same : ∀ other ∈ firstProcess :: (before ++ q :: behind),
      (store' other).content = (store other).content) :
    Blocked store' firstProcess q before' behind' := by
  obtain ⟨_, firstPid, firstCompleted⟩ := Process.content_eq (same firstProcess List.mem_cons_self)
  obtain ⟨argv, pid, completed⟩ := Process.content_eq (same q (by simp))
  refine ⟨listed, ?_, ?_, ?_⟩
  · rw [firstPid, firstCompleted]
    exact blocked.sentinel
  · intro other member
    have old := fewer other member
    rw [(Process.content_eq (same other (by simp [old]))).2.1]
    exact blocked.pids other old
  · obtain ⟨noPid, pending, words, program⟩ := blocked.stale
    exact ⟨pid.trans noPid, completed.trans pending, argv ▸ words, argv ▸ program⟩

/-- Changing another entry than that one and the sentinel, to which no pid is given that is 0, keeps
the list blocked. -/
theorem Blocked.modify (blocked : Blocked store firstProcess q before behind)
    (links : ∀ process, (change process).next = process.next ∧ (change process).prev = process.prev)
    (pids : ∀ process, process.pid ≠ 0 → (change process).pid ≠ 0)
    (apart : p ≠ firstProcess ∧ p ≠ q) :
    Blocked (store.modify p change) firstProcess q before behind := by
  refine ⟨blocked.listed.congr fun other => ⟨?_, ?_⟩, ?_, ?_, ?_⟩
  · exact Store.modify_keeps Process.next (fun process => (links process).1) store p other
  · exact Store.modify_keeps Process.prev (fun process => (links process).2) store p other
  · rw [Store.modify_other (Ne.symm apart.1)]
    exact blocked.sentinel
  · intro other member
    by_cases same : other = p
    · subst same
      rw [Store.modify_same]
      exact pids _ (blocked.pids other member)
    · rw [Store.modify_other same]
      exact blocked.pids other member
  · rw [Store.modify_other (Ne.symm apart.2)]
    exact blocked.stale

/-- An entry with a positive pid is neither that one nor the sentinel. -/
theorem Blocked.apart (blocked : Blocked store firstProcess q before behind)
    (positive : 0 < (store p).pid) : p ≠ firstProcess ∧ p ≠ q := by
  constructor
  · rintro rfl
    have sentinel := blocked.sentinel.1
    omega
  · rintro rfl
    have noPid := blocked.stale.pid
    omega

/-! ## Commands -/

/-- Purging leaves the entry. -/
theorem Blocked.finish (blocked : Blocked session.store session.firstProcess q before behind)
    (finished : session.finish = some after) : Jammed q after := by
  obtain ⟨store', purged, listed, same⟩ := blocked.listed.purgeProcList blocked.sentinel.2
  rw [Session.finish, purged, Option.map_some, Option.some.injEq] at finished
  subst finished
  have stays : (q :: behind).filter (fun p => !(session.store p).completed) =
      q :: behind.filter fun p => !(session.store p).completed :=
    List.filter_cons_of_pos (by simp [blocked.stale.pending])
  rw [List.filter_append, stays] at listed
  exact ⟨_, _, blocked.of_content listed (fun other member => (List.mem_filter.mp member).1)
    fun other _ => same other⟩

/-- Reading a line puts another entry behind it. -/
theorem Blocked.readLine {env : Environment} {inputString : List UInt8}
    (blocked : Blocked session.store session.firstProcess q before behind)
    (read : session.readLine env inputString p = some after) : Jammed q after := by
  obtain ⟨process, descriptors, store', _, fresh, listed, same, rfl⟩ :=
    blocked.listed.readLine read
  rw [List.append_assoc, List.cons_append] at listed
  refine ⟨before, behind, blocked.of_content listed (fun _ member => member) fun other member => ?_⟩
  have apart : other ≠ p := fun same => fresh (same ▸ member)
  rw [same other, Store.modify_other apart]

/-- Putting another entry in the foreground leaves it in its place. -/
theorem Blocked.foreground (blocked : Blocked session.store firstProcess q before behind)
    (apart : p ≠ firstProcess ∧ p ≠ q) (cont : Bool) (builtin : Option Nat) :
    Blocked (session.putProcessInForeground p cont builtin).store firstProcess q before
      behind := by
  rw [Session.store_foreground]
  exact blocked.modify (fun _ => ⟨rfl, rfl⟩) (fun _ nonzero => nonzero) apart

/-- So does putting one in the background. -/
theorem Blocked.background (blocked : Blocked session.store firstProcess q before behind)
    (apart : p ≠ firstProcess ∧ p ≠ q) (cont : Bool) :
    Blocked (session.putProcessInBackground p cont).store firstProcess q before behind := by
  rw [Session.store_background]
  exact blocked.modify (fun _ => ⟨rfl, rfl⟩) (fun _ nonzero => nonzero) apart

/-- A program that is launched behind it leaves it in its place. -/
theorem Blocked.launchProcess {reply : Option Nat}
    (blocked : Blocked session.store session.firstProcess q before (behind ++ [p]))
    (positive : ∀ pid ∈ reply, 0 < pid) (taken : session.launchProcess p reply = some after) :
    Jammed q after := by
  cases reply with
  | none => exact blocked.finish taken
  | some pid =>
    have apart : p ≠ session.firstProcess ∧ p ≠ q := by
      have distinct := blocked.listed.nodup
      constructor
      · rintro rfl
        exact (List.nodup_cons.mp distinct).1 (by simp)
      · rintro rfl
        have later := (List.nodup_append.mp (List.nodup_cons.mp distinct).2).2.1
        exact (List.nodup_cons.mp later).1 (by simp)
    have launched : Blocked (session.store.modify p fun process => { process with pid })
        session.firstProcess q before (behind ++ [p]) := by
      refine blocked.modify (fun _ => ⟨rfl, rfl⟩) (fun _ _ => ?_) apart
      exact Int.natCast_ne_zero.mpr (positive pid rfl).ne'
    rw [Session.launchProcess] at taken
    split at taken
    · refine @Blocked.finish _ after q before (behind ++ [p]) ?_ taken
      exact Blocked.background launched apart false
    · obtain rfl := Option.some.inj taken
      exact ⟨before, behind ++ [p], Blocked.foreground launched apart false none⟩

/-! ## Waiting -/

/-- What `waitpid` returns is marked in another entry. -/
theorem Blocked.mark {returned : Int} {children : Finset Nat}
    (blocked : Blocked session.store session.firstProcess q before behind)
    (marked : { session with children }.mark reply = some (returned, after)) :
    Blocked after.store after.firstProcess q before behind ∧ after.control = session.control := by
  cases reply with
  | noChild | interrupted =>
    cases marked
    exact ⟨blocked, rfl⟩
  | child pid status =>
    rw [Session.mark] at marked
    split at marked
    · rename_i positive
      rw [Store.markProcessStatus, blocked.listed.find, Option.map_some, Option.map_some,
        Option.some.injEq, Prod.mk.injEq] at marked
      obtain ⟨_, rfl⟩ := marked
      cases search : (session.firstProcess :: (before ++ q :: behind)).find? fun p =>
          decide ((session.store p).pid = (pid : Int)) with
      | none => exact ⟨blocked, rfl⟩
      | some p =>
        have passes := List.find?_some search
        have pidIs : (session.store p).pid = pid := of_decide_eq_true passes
        have keeps := Process.record_keeps status
        refine ⟨blocked.modify (fun process => ⟨(keeps process).1, (keeps process).2.1⟩)
          (fun process nonzero => ?_) (blocked.apart (by omega)), rfl⟩
        rw [(keeps process).2.2.1]
        exact nonzero
    · cases marked
      exact ⟨blocked, rfl⟩

/-- Leaving the foreground leaves the entry. -/
theorem Blocked.leaveForeground
    (blocked : Blocked session.store session.firstProcess q before behind)
    (left : session.leaveForeground none = some after) : Jammed q after := by
  unfold Session.leaveForeground at left
  generalize session.effects ++ [Effect.terminal session.shellPgid] = effects at left
  exact @Blocked.finish { session with effects } after q before behind blocked left

/-! ## Sessions -/

/-- A step from there is none of a builtin, and the entry stays. -/
theorem Jammed.step (jammed : Jammed q session) (taken : Step session event after) :
    event ≠ .builtin ∧ Jammed q after := by
  unfold Step Session.step at taken
  unfold Jammed at jammed
  cases control : session.control with
  | prompt =>
    rw [control] at taken jammed
    obtain ⟨before, behind, blocked⟩ := jammed
    cases event with
    | line env inputString p => exact ⟨by simp, blocked.readLine taken⟩
    | builtin => contradiction
    | fork reply => contradiction
    | waitpid reply => contradiction
  | dispatch p =>
    rw [control] at taken jammed
    obtain ⟨before, behind, blocked⟩ := jammed
    cases event with
    | line env inputString p => contradiction
    | builtin =>
      simp [blocked.dispatched, blocked.stale.program, blocked.stale.words] at taken
    | fork reply =>
      simp only [blocked.dispatched, Option.bind_some] at taken
      split at taken
      · rename_i guarded
        exact ⟨by simp, blocked.launchProcess (fun pid isReply => (guarded.2.2 pid isReply).1) taken⟩
      · contradiction
    | waitpid reply => contradiction
  | foreground p builtin =>
    rw [control] at taken jammed
    cases builtin with
    | some nextP => exact jammed.elim
    | none =>
      obtain ⟨before, behind, blocked⟩ := jammed
      cases event with
      | line env inputString p => contradiction
      | builtin => contradiction
      | fork reply => contradiction
      | waitpid reply =>
        refine ⟨by simp, ?_⟩
        obtain ⟨remaining, _, taken⟩ := Option.bind_eq_some_iff.mp taken
        obtain ⟨⟨returned, marked⟩, isMarked, goes⟩ := Option.bind_eq_some_iff.mp taken
        rw [← control] at isMarked
        obtain ⟨blocked', same⟩ := blocked.mark isMarked
        simp only at goes
        split at goes
        · cases goes
          unfold Jammed
          simp only [same, control]
          exact ⟨before, behind, blocked'⟩
        · exact blocked'.leaveForeground goes
  | waiting nextP =>
    rw [control] at jammed
    exact jammed.elim
  | exited =>
    rw [control] at jammed
    exact jammed.elim

/-- The process of a `fork` that fails, where all before have succeeded, blocks the list. -/
theorem Invariant.jams (inv : Invariant session) (taken : Step session (.fork none) after) :
    ∃ q, Jammed q after := by
  unfold Step Session.step at taken
  unfold Invariant at inv
  cases control : session.control with
  | dispatch p =>
    rw [control] at taken inv
    obtain ⟨jobs, table, uncompleted⟩ := inv
    simp only [table.dispatched, Option.bind_some] at taken
    split at taken
    · rename_i guarded
      have blocked : Blocked session.store session.firstProcess p jobs [] := by
        refine ⟨table.listed, table.sentinel, fun job member => ?_, ?_⟩
        · have positive := table.launched job member
          omega
        · exact ⟨table.own p List.mem_cons_self, uncompleted p (by simp), guarded.2.1, guarded.1⟩
      exact ⟨p, blocked.finish taken⟩
    · contradiction
  | prompt | foreground _ _ | waiting _ | exited =>
    rw [control] at taken
    contradiction

/-- A session in which every `fork` has succeeded, or one that an entry without a pid blocks. -/
theorem invariant_or_jammed (either : Invariant session ∨ ∃ q, Jammed q session)
    (taken : Step session event after) : Invariant after ∨ ∃ q, Jammed q after := by
  rcases either with inv | ⟨q, jammed⟩
  · by_cases forks : ForkSucceeds session event after
    · exact .inl (inv.step taken forks)
    · cases event with
      | fork reply =>
        obtain rfl : reply = none := not_not.mp forks
        exact .inr (inv.jams taken)
      | line _ _ _ | builtin | waitpid _ => exact absurd trivial forks
  · exact .inr ⟨q, (jammed.step taken).2⟩

/-- Where an entry blocks the list, it is left over and the shell has not ended. -/
theorem Jammed.leftOver (jammed : Jammed q session) :
    session.control ≠ .exited ∧ LeftOver session := by
  have left : ∀ {before behind}, Blocked session.store session.firstProcess q before behind →
      LeftOver session := fun blocked => ⟨_, blocked.listed, q, by simp, blocked.stale⟩
  unfold Jammed at jammed
  split at jammed
  · rename_i prompt
    obtain ⟨before, behind, blocked⟩ := jammed
    exact ⟨by simp [prompt], left blocked⟩
  · rename_i p foreground
    obtain ⟨before, behind, blocked⟩ := jammed
    exact ⟨by simp [foreground], left blocked⟩
  · rename_i p dispatch
    obtain ⟨before, behind, blocked⟩ := jammed
    exact ⟨by simp [dispatch], left blocked⟩
  · exact jammed.elim

/-- Once a `fork` has failed, the session runs no builtin any more, so that no command ends the
shell, and the list always has a program that has not been launched. -/
theorem failedFork_lasts {start failed : Session} {earlier later : List (Event × Session)}
    (initial : Initial start)
    (steps : IsRun Step start (earlier ++ (.fork none, failed) :: later)) :
    Always (fun session => session.control ≠ .exited ∧ LeftOver session) failed later ∧
      Each (fun _ event _ => event ≠ .builtin) failed later := by
  obtain ⟨before, fails, behind⟩ := isRun_append.mp steps
  have either : Invariant (final start earlier) ∨ ∃ q, Jammed q (final start earlier) :=
    before.reachable.invariant (.inl initial.invariant) fun _ _ _ => invariant_or_jammed
  obtain ⟨q, jammed⟩ : ∃ q, Jammed q failed := by
    rcases either with inv | ⟨q, jammed⟩
    · exact inv.jams fails
    · exact ⟨q, (jammed.step fails).2⟩
  obtain ⟨always, each⟩ := @IsRun.always_each _ _ _ (Jammed q)
    (fun _ event _ => event ≠ .builtin) _ _ behind jammed fun _ _ _ => Jammed.step
  exact ⟨always.imp fun _ => Jammed.leftOver, each⟩

/-- "ls" is read. -/
def readLs : List (Event × Session) :=
  trace Session.step freshSession [.line binEnvironment (ascii "/bin/ls\n") 8192]

/-- "quit" is read, launched, and waited for. -/
def quitEvents : List Event :=
  [.line binEnvironment (ascii "quit\n") 12288, .fork (some 7), .waitpid (.child 7 (.exited 1))]

/-- Where `fork` has failed for "ls", the shell goes on behind "quit". -/
theorem failedFork_lasts_quitEvents : ∃ failed, Step (final freshSession readLs) (.fork none) failed ∧
    (trace Session.step failed quitEvents).length = 3 ∧
    Always (fun session => session.control ≠ .exited ∧ LeftOver session) failed
      (trace Session.step failed quitEvents) ∧
    Each (fun _ event _ => event ≠ .builtin) failed (trace Session.step failed quitEvents) := by
  have able : ((final freshSession readLs).step (.fork none)).map
      (fun failed => (trace Session.step failed quitEvents).length) = some 3 := by decide +kernel
  obtain ⟨failed, fails, long⟩ := Option.map_eq_some_iff.mp able
  have steps : IsRun Step freshSession
      (readLs ++ (.fork none, failed) :: trace Session.step failed quitEvents) :=
    isRun_append.mpr ⟨isRun_trace (fun _ _ _ performed => performed) _ _, fails,
      isRun_trace (fun _ _ _ performed => performed) _ _⟩
  exact ⟨failed, fails, long, failedFork_lasts freshSession_initial steps⟩

end OsAssignments.Shell
