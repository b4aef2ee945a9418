import OsAssignments.Shell.Jobs

/-!
# Waiting for all processes

`cmd_wait` counts the active processes, waits for any child and counts again. Where every `fork` has
succeeded, each status that `waitpid` delivers takes its process out of the count and nothing else
does, so that the command returns when every process that was active has stopped or ended, and no
sooner.
-/

namespace OsAssignments.Shell

open LinkedList Text Transition

/-- A process that `num_active_proc` counts has the pid. -/
def Session.Active (session : Session) (pid : Int) : Prop :=
  ∃ q ∈ (walk null session.store.next loopBound session.firstProcess).getD [],
    session.store.isActive session.firstProcess q = some true ∧ (session.store q).pid = pid

/-- `waitpid` delivers a status of the pid. -/
def Reports (pid : Int) : Event → Prop
  | .waitpid (.child child _) => (child : Int) = pid
  | _ => False

instance (pid : Int) (event : Event) : Decidable (Reports pid event) :=
  match event with
  | .waitpid (.child child _) => inferInstanceAs (Decidable ((child : Int) = pid))
  | .waitpid .noChild | .waitpid .interrupted => isFalse id
  | .line _ _ _ | .builtin | .fork _ => isFalse id

variable {session after : Session} {store : Store} {reply : Reply} {status : Status}
  {firstProcess p q pid : Nat} {children remaining : Finset Nat} {jobs nodes : List Nat}

/-! ## Counting -/

/-- A count of none means that none is counted. -/
theorem countActive_zero (counted : store.countActive firstProcess nodes = some 0) :
    ∀ q ∈ nodes, store.isActive firstProcess q ≠ some true := by
  induction nodes with
  | nil => simp
  | cons q rest ih =>
    obtain ⟨active, isActive, counted⟩ := Option.bind_eq_some_iff.mp counted
    obtain ⟨others, countedRest, total⟩ := Option.bind_eq_some_iff.mp counted
    have zero : active.toNat + others = 0 := Option.some.inj total
    obtain ⟨notCounted, rfl⟩ := Nat.add_eq_zero_iff.mp zero
    intro other member
    rcases List.mem_cons.mp member with rfl | later
    · rw [isActive]
      cases active with
      | true => contradiction
      | false => simp
    · exact ih countedRest other later

/-- A process that is counted is neither stopped nor completed, and what is counted is told from
these and its words. -/
theorem isActive_iff (apart : q ≠ firstProcess) :
    store.isActive firstProcess q = some true ↔ (store q).stopped = false ∧
      (store q).completed = false ∧ ∃ word ∈ (store q).argv.head?, word ≠ ascii "wait" := by
  rw [Store.isActive, if_neg apart]
  cases (store q).stopped <;> cases (store q).completed <;> simp

/-- The sentinel is not counted. -/
theorem isActive_first : store.isActive firstProcess firstProcess = some false := if_pos rfl

/-- In a table the processes that are counted are jobs. -/
theorem Table.active_iff (table : Table session.store session.firstProcess session.children jobs [p])
    (isWait : (session.store p).argv.head? = some (ascii "wait")) (pid : Int) :
    session.Active pid ↔ ∃ job ∈ jobs, (session.store job).stopped = false ∧
      (session.store job).completed = false ∧
      (∃ word ∈ (session.store job).argv.head?, word ≠ ascii "wait") ∧
      (session.store job).pid = pid := by
  rw [Session.Active, table.listed.walked, Option.getD_some]
  constructor
  · rintro ⟨q, member, active, same⟩
    have isJob := (active_job isWait member active).1
    have apart : q ≠ session.firstProcess := by
      rintro rfl
      rw [isActive_first] at active
      contradiction
    obtain ⟨running, pending, word⟩ := (isActive_iff apart).mp active
    exact ⟨q, isJob, running, pending, word, same⟩
  · rintro ⟨job, isJob, running, pending, word, same⟩
    have apart : job ≠ session.firstProcess := by
      rintro rfl
      have positive := table.launched _ isJob
      have sentinel := table.sentinel.1
      omega
    exact ⟨job, by simp [isJob], (isActive_iff apart).mpr ⟨running, pending, word⟩, same⟩

/-! ## One turn -/

/-- A status recorded leaves a process stopped or completed. -/
theorem Process.record_ends (status : Status) (process : Process) :
    (process.record status).stopped = true ∨ (process.record status).completed = true := by
  cases status with
  | stopped signal => exact .inl rfl
  | exited code | signaled signal => exact .inr rfl

/-- What `waitpid` delivers is recorded in the job of that pid, and other jobs stay as they are. -/
theorem Table.mark_job {returned : Int} {job : Nat}
    (table : Table session.store session.firstProcess session.children jobs [p])
    (marked : { session with children := remaining }.mark reply = some (returned, after))
    (isJob : job ∈ jobs) :
    (after.store job = session.store job ∧ ¬ Reports (session.store job).pid (.waitpid reply)) ∨
      ∃ status, after.store job = (session.store job).record status ∧
        Reports (session.store job).pid (.waitpid reply) := by
  cases reply with
  | noChild | interrupted =>
    cases marked
    exact .inl ⟨rfl, id⟩
  | child pid status =>
    have launched := table.launched job isJob
    rw [Session.mark] at marked
    split at marked
    · rename_i positive
      obtain ⟨found, search, member, missing⟩ := table.find_pid positive
      rw [Store.markProcessStatus, search, Option.map_some, Option.map_some, Option.some.injEq,
        Prod.mk.injEq] at marked
      obtain ⟨_, rfl⟩ := marked
      cases found with
      | none => exact .inl ⟨rfl, fun same => missing rfl job isJob same.symm⟩
      | some q =>
        obtain ⟨isJob', pidIs⟩ := member q rfl
        by_cases same : job = q
        · subst same
          exact .inr ⟨status, Store.modify_same, pidIs.symm⟩
        · refine .inl ⟨Store.modify_other same, fun reported => ?_⟩
          exact same (table.job_unique isJob isJob' (reported.symm.trans pidIs.symm))
    · rename_i notPositive
      cases marked
      refine .inl ⟨rfl, fun reported => ?_⟩
      have zero : (pid : Int) = (session.store job).pid := reported
      omega

/-- It takes the process of that pid out of the count, and no other. -/
theorem Table.mark_active {returned : Int}
    (table : Table session.store session.firstProcess session.children jobs [p])
    (isWait : (session.store p).argv.head? = some (ascii "wait"))
    (allowed : reply.remaining session.children = some remaining)
    (marked : { session with children := remaining }.mark reply = some (returned, after))
    (pid : Int) : after.Active pid ↔ session.Active pid ∧ ¬ Reports pid (.waitpid reply) := by
  obtain ⟨table', _, argv⟩ := table.mark allowed marked
  rw [table'.active_iff (by rw [argv]; exact isWait), table.active_iff isWait]
  constructor
  · rintro ⟨job, isJob, running, pending, word, rfl⟩
    rcases table.mark_job marked isJob with ⟨same, unreported⟩ | ⟨status, recorded, _⟩
    · rw [same] at running pending word ⊢
      exact ⟨⟨job, isJob, running, pending, word, rfl⟩, unreported⟩
    · rw [recorded] at running pending
      rcases (session.store job).record_ends status with stopped | completed
      · rw [running] at stopped
        contradiction
      · rw [pending] at completed
        contradiction
  · rintro ⟨⟨job, isJob, running, pending, word, rfl⟩, unreported⟩
    rcases table.mark_job marked isJob with ⟨same, _⟩ | ⟨_, _, reported⟩
    · exact ⟨job, isJob, by rw [same]; exact ⟨running, pending, word, rfl⟩⟩
    · exact absurd reported unreported

/-- The loop of `cmd_wait` goes on exactly while some process is counted. -/
theorem Table.waitLoop_control
    (table : Table session.store session.firstProcess session.children jobs [p])
    (taken : session.waitLoop p = some after) :
    (after.control = .prompt ∧ ∀ pid, ¬ session.Active pid) ∨
      (after = { session with control := .waiting p } ∧ ∃ pid, session.Active pid) := by
  obtain ⟨numActive, counted, goes⟩ := Option.bind_eq_some_iff.mp taken
  have walked := table.listed.walked
  rw [Session.numActiveProc, Store.numActiveProc, walked, Option.bind_some] at counted
  unfold Session.Active
  rw [walked, Option.getD_some]
  split at goes
  · rename_i positive
    obtain ⟨q, member, active⟩ := countActive_pos counted positive
    exact .inr ⟨(Option.some.inj goes).symm, _, q, member, active, rfl⟩
  · rename_i notPositive
    obtain rfl : numActive = 0 := by omega
    refine .inl ⟨?_, ?_⟩
    · obtain ⟨store, _, rfl⟩ := Option.map_eq_some_iff.mp goes
      rfl
    · rintro pid ⟨q, member, active, _⟩
      exact countActive_zero counted q member active

/-! ## The command -/

/-- At the prompt `waitpid` is not called. -/
theorem waits_no_longer {run : List (Event × Session)} (prompt : session.control = .prompt)
    (steps : IsRun Step session run) (replies : ∀ move ∈ run, ∃ reply, move.1 = .waitpid reply) :
    run = [] := by
  cases run with
  | nil => rfl
  | cons move rest =>
    obtain ⟨event, target⟩ := move
    obtain ⟨reply, rfl⟩ := replies _ List.mem_cons_self
    have taken := steps.1
    unfold Step Session.step at taken
    rw [prompt] at taken
    contradiction

/-- While the command waits, it goes on with what `waitpid` delivers until every process counted has
been reported, and then the prompt is back. -/
theorem Table.waits {run : List (Event × Session)}
    (table : Table session.store session.firstProcess session.children jobs [p])
    (isWait : (session.store p).argv.head? = some (ascii "wait"))
    (control : session.control = .waiting p) (counted : ∃ pid, session.Active pid)
    (steps : IsRun Step session run) (replies : ∀ move ∈ run, ∃ reply, move.1 = .waitpid reply) :
    ((final session run).control = .prompt ∧
      ∀ pid, session.Active pid → ∃ move ∈ run, Reports pid move.1) ∨
    ((final session run).control = .waiting p ∧
      ∃ pid, session.Active pid ∧ ∀ move ∈ run, ¬ Reports pid move.1) := by
  induction run generalizing session with
  | nil =>
    obtain ⟨pid, active⟩ := counted
    exact .inr ⟨control, pid, active, by simp⟩
  | cons move rest ih =>
    obtain ⟨event, target⟩ := move
    obtain ⟨taken, later⟩ := steps
    obtain ⟨⟨reply, isReply⟩, replies'⟩ := List.forall_mem_cons.mp replies
    obtain rfl : event = .waitpid reply := isReply
    unfold Step Session.step at taken
    rw [control] at taken
    obtain ⟨remaining, allowed, taken⟩ := Option.bind_eq_some_iff.mp taken
    obtain ⟨⟨returned, marked⟩, isMarked, goes⟩ := Option.bind_eq_some_iff.mp taken
    rw [← control] at isMarked
    obtain ⟨table', _, argv⟩ := table.mark allowed isMarked
    have left := table.mark_active isWait allowed isMarked
    rcases table'.waitLoop_control goes with ⟨prompt, none⟩ | ⟨rfl, counted'⟩
    · have ended : rest = [] := waits_no_longer prompt later replies'
      subst ended
      refine .inl ⟨prompt, fun pid active => ⟨_, List.mem_cons_self, ?_⟩⟩
      by_contra unreported
      exact none pid ((left pid).mpr ⟨active, unreported⟩)
    · rcases @ih { marked with control := .waiting p } table' (by rw [argv]; exact isWait) rfl
          counted' later replies' with
        ⟨prompt, reported⟩ | ⟨waiting, pid, active, unreported⟩
      · refine .inl ⟨prompt, fun pid active => ?_⟩
        by_cases now : Reports pid (.waitpid reply)
        · exact ⟨_, List.mem_cons_self, now⟩
        · obtain ⟨move, member, then'⟩ := reported pid ((left pid).mpr ⟨active, now⟩)
          exact ⟨move, List.mem_cons_of_mem _ member, then'⟩
      · obtain ⟨active', now⟩ := (left pid).mp active
        exact .inr ⟨waiting, pid, active', List.forall_mem_cons.mpr ⟨now, unreported⟩⟩

/-- Where every `fork` has succeeded, the command "wait" returns to the prompt with the replies of
`waitpid` that make up a status of each process that was active, and waits on as long as one of them
has not been reported. -/
theorem cmdWait_returns_iff {start begun : Session} {earlier run : List (Event × Session)}
    (initial : Initial start)
    (steps : IsRun Step start (earlier ++ (.builtin, begun) :: run))
    (forks : Each ForkSucceeds start earlier)
    (isWait : ∀ nextP, (final start earlier).dispatched = some nextP →
      ((final start earlier).store nextP).argv.head? = some (ascii "wait"))
    (replies : ∀ move ∈ run, ∃ reply, move.1 = .waitpid reply) :
    ((final begun run).control = .prompt ↔
      ∀ pid, (final start earlier).Active pid → ∃ move ∈ run, Reports pid move.1) ∧
    ((final begun run).control ≠ .prompt → ∃ nextP, (final begun run).control = .waiting nextP) := by
  obtain ⟨before, taken, behind⟩ := isRun_append.mp steps
  have inv : Invariant (final start earlier) :=
    (before.always_of_each initial.invariant (fun _ _ _ inv taken forks => inv.step taken forks)
      forks).final
  generalize final start earlier = session at taken isWait inv ⊢
  unfold Step Session.step at taken
  unfold Invariant at inv
  cases control : session.control with
  | dispatch p =>
    rw [control] at taken inv
    obtain ⟨jobs, table, _⟩ := inv
    have head := isWait p table.dispatched
    have found : lookup (session.store p).argv.head? = some .wait := by
      rw [head]
      decide
    simp only [table.dispatched, Option.bind_some, found] at taken
    rcases table.waitLoop_control taken with ⟨prompt, none⟩ | ⟨rfl, counted⟩
    · obtain rfl := waits_no_longer prompt behind replies
      exact ⟨iff_of_true prompt fun pid active => absurd active (none pid),
        fun other => absurd prompt other⟩
    · rcases @Table.waits { session with control := .waiting p } p jobs run table head rfl counted
          behind replies with ⟨prompt, reported⟩ | ⟨waiting, pid, active, unreported⟩
      · exact ⟨iff_of_true prompt reported, fun other => absurd prompt other⟩
      · refine ⟨iff_of_false (by rw [waiting]; simp) fun reported => ?_, fun _ => ⟨p, waiting⟩⟩
        obtain ⟨move, member, isReport⟩ := reported pid active
        exact unreported move member isReport
  | prompt | foreground _ _ | waiting _ | exited =>
    rw [control] at taken
    contradiction

/-- Two jobs are put in the background, and "wait" is read. -/
def twoInBackground : List (Event × Session) :=
  trace Session.step freshSession [.line binEnvironment (ascii "/bin/ls &\n") 8192, .fork (some 7),
    .line binEnvironment (ascii "/bin/ls &\n") 12288, .fork (some 8),
    .line binEnvironment (ascii "wait\n") 16384]

/-- What `waitpid` delivers: the same job twice, and then the other one. -/
def threeReplies : List Event :=
  [.waitpid (.child 8 (.stopped 20)), .waitpid (.child 8 (.exited 0)), .waitpid (.child 7 (.exited 0))]

/-- The command returns with the third reply. -/
theorem cmdWait_returns_iff_threeReplies : ∃ begun,
    Step (final freshSession twoInBackground) .builtin begun ∧
    (final begun (trace Session.step begun threeReplies)).control = .prompt ∧
    ((final begun (trace Session.step begun threeReplies)).control = .prompt ↔
      ∀ pid, (final freshSession twoInBackground).Active pid →
        ∃ move ∈ trace Session.step begun threeReplies, Reports pid move.1) := by
  have able : ((final freshSession twoInBackground).step .builtin).map
      (fun begun => decide ((final begun (trace Session.step begun threeReplies)).control = .prompt)) =
      some true := by decide +kernel
  obtain ⟨begun, begins, ends⟩ := Option.map_eq_some_iff.mp able
  have steps : IsRun Step freshSession
      (twoInBackground ++ (.builtin, begun) :: trace Session.step begun threeReplies) :=
    isRun_append.mpr ⟨isRun_trace (fun _ _ _ performed => performed) _ _, begins,
      isRun_trace (fun _ _ _ performed => performed) _ _⟩
  have isWait : ∀ nextP, (final freshSession twoInBackground).dispatched = some nextP →
      ((final freshSession twoInBackground).store nextP).argv.head? = some (ascii "wait") := by
    have found : (final freshSession twoInBackground).dispatched = some 16384 := by decide +kernel
    intro nextP isNext
    obtain rfl := Option.some.inj (found.symm.trans isNext)
    decide +kernel
  refine ⟨begun, begins, of_decide_eq_true ends, (cmdWait_returns_iff freshSession_initial steps
    (by decide +kernel) isWait ?_).1⟩
  intro move member
  have label := mem_trace member
  unfold threeReplies at label
  simp only [List.mem_cons, List.not_mem_nil, or_false] at label
  rcases label with same | same | same <;> exact ⟨_, same⟩

end OsAssignments.Shell
