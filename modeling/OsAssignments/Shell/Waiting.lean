import OsAssignments.Shell.Jobs

/-!
# Waiting for the foreground

`wait_for_process` waits for any child while it is interested in one. Whatever `waitpid` delivers
in the meantime is marked in the entry of that child, so no status is lost, and the loop ends when
its own process has stopped or is completed, or when `waitpid` fails.
-/

namespace OsAssignments.Shell

open LinkedList Text

/-- `waitpid` returned −1. -/
def Reply.Fails : Reply → Prop
  | .child _ _ => False
  | .noChild | .interrupted => True

/-- A status tells of a stop. -/
def Status.isStop : Status → Bool
  | .stopped _ => true
  | _ => false

/-- The statuses that replies deliver of a pid, in their order. -/
def statusesOf (pid : Int) (replies : List Reply) : List Status :=
  replies.filterMap fun reply =>
    match reply with
    | .child child status => if (child : Int) = pid then some status else none
    | _ => none

/-- A process with statuses recorded: it has stopped when one of them tells of a stop, it is
completed when another one is among them, and the latest is kept. -/
def Process.recorded (statuses : List Status) (process : Process) : Process :=
  { process with
    status := statuses.getLast?.or process.status
    stopped := process.stopped || statuses.any Status.isStop
    completed := process.completed || statuses.any fun status => !status.isStop }

namespace Session

/-- One turn of the loop of `wait_for_process`: the reply is marked, and the loop goes on when its
child was found and the process has neither stopped nor is completed. -/
def waitTurn (session : Session) (p : Nat) (reply : Reply) : Option (Bool × Session) :=
  (reply.remaining session.children).bind fun children =>
    ({ session with children }.mark reply).map fun (marked : Int × Session) =>
      (decide (marked.1 = 0 ∧ (marked.2.store p).completed = false ∧
        (marked.2.store p).stopped = false), marked.2)

/-- `wait_for_process`, when it returns after exactly the given replies. -/
def waitForProcess (session : Session) (p : Nat) : List Reply → Option Session
  | [] => none
  | reply :: rest =>
    (session.waitTurn p reply).bind fun (goesOn, session) =>
      if goesOn then session.waitForProcess p rest
      else if rest = [] then some session
      else none

/-- The steps of a session in the foreground are the turns of the loop. -/
theorem step_foreground {session : Session} {p : Nat} {builtin : Option Nat} (reply : Reply)
    (control : session.control = .foreground p builtin) :
    session.step (.waitpid reply) = (session.waitTurn p reply).bind fun (goesOn, session) =>
      if goesOn then some session else session.leaveForeground builtin := by
  unfold step waitTurn
  rw [control]
  simp only
  rw [Option.bind_assoc]
  congr 1
  funext children
  rw [Option.bind_map]
  congr 1
  funext marked
  simp

end Session

/-- Every child that has not been reaped has a positive pid and exactly one entry with it. -/
def ChildrenListed (store : Store) (nodes : List Nat) (children : Finset Nat) : Prop :=
  ∀ child ∈ children, 0 < child ∧ ∃ q ∈ nodes, (store q).pid = (child : Int) ∧
    ∀ other ∈ nodes, (store other).pid = (child : Int) → other = q

/-- Every status delivered is that of a child with exactly one entry, the entries have the statuses of
their pids recorded, and nothing else has changed. -/
structure Recorded (store store' : Store) (nodes : List Nat) (replies : List Reply) : Prop where
  /-- The entries of the list have their statuses recorded. -/
  entries : ∀ q ∈ nodes, store' q = (store q).recorded (statusesOf (store q).pid replies)
  /-- Other processes in memory are as they were. -/
  others : ∀ q ∉ nodes, store' q = store q
  /-- The pid of every status delivered is that of one entry. -/
  owned : ∀ (pid : Nat) (status : Status), .child pid status ∈ replies → ∃ q ∈ nodes, (store q).pid = (pid : Int) ∧
    ∀ other ∈ nodes, (store other).pid = (pid : Int) → other = q

variable {store store' : Store} {session after : Session} {nodes rest : List Nat} {p q pid firstProcess : Nat}
  {children remaining : Finset Nat} {reply : Reply} {replies : List Reply} {status : Status}
  {process : Process}

/-! ## Recording -/

/-- Statuses are recorded one after the other. -/
theorem Process.recorded_cons (status : Status) (statuses : List Status) :
    process.recorded (status :: statuses) = (process.record status).recorded statuses := by
  have latest : (status :: statuses).getLast?.or process.status =
      statuses.getLast?.or (some status) := by
    rw [List.getLast?_cons]
    cases statuses.getLast? <;> rfl
  unfold Process.recorded
  rw [latest]
  cases status <;> simp [Process.record, Status.isStop]

/-- Nothing recorded leaves a process as it is. -/
theorem Process.recorded_nil : process.recorded [] = process := by
  simp [Process.recorded]

/-- A reply that delivers a status of the pid comes first among its statuses. -/
theorem statusesOf_child : statusesOf pid (.child pid status :: replies) = status :: statusesOf pid replies := by
  simp [statusesOf]

/-- Another reply delivers none. -/
theorem statusesOf_other {pid' : Int} (other : pid' ≠ pid) :
    statusesOf pid' (.child pid status :: replies) = statusesOf pid' replies := by
  simp [statusesOf, Ne.symm other]

/-- A failed `waitpid` delivers none. -/
theorem statusesOf_fails {pid' : Int} (fails : reply.Fails) :
    statusesOf pid' (reply :: replies) = statusesOf pid' replies := by
  cases reply with
  | child child status => exact fails.elim
  | noChild => rfl
  | interrupted => rfl

/-! ## One turn -/

/-- A failed `waitpid` changes nothing but ends the loop. -/
theorem Session.waitTurn_fails {goesOn : Bool} (fails : reply.Fails)
    (turn : session.waitTurn p reply = some (goesOn, after)) :
    goesOn = false ∧ after.store = session.store ∧ after.firstProcess = session.firstProcess ∧
      after.children = session.children := by
  obtain ⟨remaining, allowed, marked⟩ := Option.bind_eq_some_iff.mp turn
  cases reply with
  | child child status => exact fails.elim
  | noChild =>
    rw [Reply.remaining, Option.ite_none_right_eq_some] at allowed
    cases allowed.2
    cases marked
    exact ⟨rfl, rfl, rfl, rfl⟩
  | interrupted =>
    cases allowed
    cases marked
    exact ⟨rfl, rfl, rfl, rfl⟩

/-- A child that `waitpid` returns was one, and its status is recorded in its entry; the loop goes on
exactly when the process waited for has neither stopped nor is completed. -/
theorem Listed.waitTurn_child {goesOn : Bool}
    (listed : Listed session.store (session.firstProcess :: rest))
    (entries : ChildrenListed session.store (session.firstProcess :: rest) session.children)
    (turn : session.waitTurn p (.child pid status) = some (goesOn, after)) :
    ∃ q ∈ session.firstProcess :: rest, (session.store q).pid = pid ∧ 
      (∀ other ∈ session.firstProcess :: rest, (session.store other).pid = pid → other = q) ∧
      after.store = session.store.modify q (Process.record status) ∧
      after.firstProcess = session.firstProcess ∧ after.children ⊆ session.children ∧
      (goesOn = true ↔ (after.store p).completed = false ∧ (after.store p).stopped = false) := by
  obtain ⟨remaining, allowed, marked⟩ := Option.bind_eq_some_iff.mp turn
  have child : pid ∈ session.children ∧ remaining ⊆ session.children := by
    cases status with
    | stopped signal =>
      simp only [Reply.remaining, Option.ite_none_right_eq_some, Option.some.injEq] at allowed
      exact ⟨allowed.1, allowed.2 ▸ Finset.Subset.refl _⟩
    | exited code =>
      simp only [Reply.remaining, Option.ite_none_right_eq_some, Option.some.injEq] at allowed
      exact ⟨allowed.1, allowed.2 ▸ Finset.erase_subset _ _⟩
    | signaled signal =>
      simp only [Reply.remaining, Option.ite_none_right_eq_some, Option.some.injEq] at allowed
      exact ⟨allowed.1, allowed.2 ▸ Finset.erase_subset _ _⟩
  obtain ⟨positive, q, member, pidIs, only⟩ := entries pid child.1
  have found : (session.store.find session.firstProcess fun process => process.pid = (pid : Int)) =
      some (some q) := by
    rw [listed.find]
    cases search : (session.firstProcess :: rest).find? fun q => decide ((session.store q).pid = (pid : Int)) with
    | none => exact absurd (decide_eq_true pidIs) (List.find?_eq_none.mp search q member)
    | some other =>
      have passes := List.find?_some search
      rw [only other (List.mem_of_find?_eq_some search) (of_decide_eq_true passes)]
  rw [Session.mark, if_pos positive, Store.markProcessStatus, found] at marked
  cases marked
  exact ⟨q, member, pidIs, only, rfl, rfl, child.2, by simp⟩

/-! ## The loop -/

/-- A change that keeps pids keeps what is known of the children left. -/
theorem ChildrenListed.mono (entries : ChildrenListed store nodes children)
    (pids : ∀ q, (store' q).pid = (store q).pid) (fewer : remaining ⊆ children) :
    ChildrenListed store' nodes remaining := by
  intro child member
  simp only [pids]
  exact entries child (fewer member)

/-- Recording a status keeps the list. -/
theorem Listed.record (listed : Listed store nodes) (q : Nat) (status : Status) :
    Listed (store.modify q (Process.record status)) nodes := by
  have keeps := Process.record_keeps status
  apply listed.congr
  intro other
  exact ⟨Store.modify_keeps Process.next (fun process => (keeps process).1) store q other,
    Store.modify_keeps Process.prev (fun process => (keeps process).2.1) store q other⟩

/-- It keeps pids. -/
theorem pid_record (store : Store) (q : Nat) (status : Status) (other : Nat) :
    (store.modify q (Process.record status) other).pid = (store other).pid :=
  Store.modify_keeps Process.pid (fun process => (Process.record_keeps status process).2.2.1) store q other

/-- No reply changes nothing. -/
theorem Recorded.nil : Recorded store store nodes [] :=
  ⟨fun _ _ => Process.recorded_nil.symm, fun _ _ => rfl, fun _ _ member => absurd member List.not_mem_nil⟩

/-- A failed `waitpid` is recorded nowhere. -/
theorem Recorded.fails (fails : reply.Fails) (recorded : Recorded store store' nodes replies) :
    Recorded store store' nodes (reply :: replies) := by
  refine ⟨fun q member => ?_, recorded.others, fun pid status delivered => ?_⟩
  · rw [statusesOf_fails fails]
    exact recorded.entries q member
  · rcases List.mem_cons.mp delivered with rfl | later
    · exact fails.elim
    · exact recorded.owned pid status later

/-- A status is recorded in the one entry of its child before the later ones. -/
theorem Recorded.child (member : q ∈ nodes) (pidIs : (store q).pid = pid)
    (only : ∀ other ∈ nodes, (store other).pid = pid → other = q)
    (recorded : Recorded (store.modify q (Process.record status)) store' nodes replies) :
    Recorded store store' nodes (.child pid status :: replies) := by
  have pids := pid_record store q status
  refine ⟨fun other listed => ?_, fun other notListed => ?_, fun pid' status' delivered => ?_⟩
  · have later := recorded.entries other listed
    rw [pids] at later
    by_cases same : other = q
    · subst same
      rw [later, Store.modify_same, pidIs, statusesOf_child, Process.recorded_cons]
    · rw [later, Store.modify_other same, statusesOf_other fun isPid => same (only other listed isPid)]
  · have apart : other ≠ q := by
      rintro rfl
      exact notListed member
    rw [recorded.others other notListed, Store.modify_other apart]
  · rcases List.mem_cons.mp delivered with first | later
    · cases first
      exact ⟨q, member, pidIs, only⟩
    · have owned := recorded.owned pid' status' later
      simpa only [pids] using owned

/-- When `wait_for_process` returns, every status delivered has been recorded in the one entry of its
child, other entries are as they were, and the process has stopped or is completed unless the last
`waitpid` failed. -/
theorem waitForProcess_records (listed : Listed session.store (session.firstProcess :: rest))
    (entries : ChildrenListed session.store (session.firstProcess :: rest) session.children)
    (returned : session.waitForProcess p replies = some after) :
    Recorded session.store after.store (session.firstProcess :: rest) replies ∧
      ((after.store p).completed = true ∨ (after.store p).stopped = true ∨
        ∃ reply ∈ replies.getLast?, reply.Fails) := by
  induction replies generalizing session with
  | nil => contradiction
  | cons reply replies ih =>
    obtain ⟨⟨goesOn, next⟩, turn, returned⟩ := Option.bind_eq_some_iff.mp returned
    by_cases fails : reply.Fails
    · obtain ⟨rfl, storeIs, _, _⟩ := Session.waitTurn_fails fails turn
      simp only [Bool.false_eq_true, if_false, Option.ite_none_right_eq_some, Option.some.injEq] at returned
      obtain ⟨rfl, rfl⟩ := returned
      rw [storeIs]
      exact ⟨.fails fails .nil, .inr (.inr ⟨reply, rfl, fails⟩)⟩
    · obtain ⟨pid, status, rfl⟩ : ∃ pid status, reply = .child pid status := by
        cases reply with
        | child pid status => exact ⟨pid, status, rfl⟩
        | noChild => exact absurd trivial fails
        | interrupted => exact absurd trivial fails
      obtain ⟨q, member, pidIs, only, storeIs, firstIs, fewer, exits⟩ := listed.waitTurn_child entries turn
      have listed' : Listed next.store (next.firstProcess :: rest) := by
        rw [storeIs, firstIs]
        exact listed.record q status
      have entries' : ChildrenListed next.store (next.firstProcess :: rest) next.children := by
        rw [storeIs, firstIs]
        exact entries.mono (pid_record session.store q status) fewer
      cases goesOn with
      | true =>
        obtain ⟨recorded, ended⟩ := ih listed' entries' returned
        rw [storeIs, firstIs] at recorded
        refine ⟨.child member pidIs only recorded, ended.imp_right (Or.imp_right ?_)⟩
        rintro ⟨reply, last, fails⟩
        refine ⟨reply, ?_, fails⟩
        rw [List.getLast?_cons, Option.mem_def.mp last]
        rfl
      | false =>
        simp only [Bool.false_eq_true, if_false, Option.ite_none_right_eq_some, Option.some.injEq] at returned
        obtain ⟨rfl, rfl⟩ := returned
        refine ⟨.child member pidIs only (storeIs ▸ .nil), ?_⟩
        by_contra running
        simp only [not_or, Bool.not_eq_true] at running
        exact absurd (exits.mpr ⟨running.1, running.2.1⟩) Bool.false_ne_true

/-- A shell that waits for the second of two jobs. -/
def twoJobs : Session where
  store := fun p =>
    if p = 4096 then { sentinel with next := 8192 }
    else if p = 8192 then { sentinel with pid := 7, background := true, next := 12288, prev := 4096 }
    else { sentinel with pid := 8, prev := 8192 }
  firstProcess := 4096
  shellPgid := 100
  children := {7, 8}
  descriptors := standardDescriptors
  effects := []
  control := .foreground 12288 none

/-- The first job exits before the second one stops. -/
def twoReplies : List Reply := [.child 7 (.exited 0), .child 8 (.stopped 20)]

/-- Both statuses are recorded. -/
theorem waitForProcess_records_twoJobs : ∃ after, twoJobs.waitForProcess 12288 twoReplies = some after ∧
    Recorded twoJobs.store after.store [4096, 8192, 12288] twoReplies ∧
      ((after.store 12288).completed = true ∨ (after.store 12288).stopped = true ∨
        ∃ reply ∈ twoReplies.getLast?, reply.Fails) := by
  have listed : Listed twoJobs.store (twoJobs.firstProcess :: [8192, 12288]) :=
    ⟨⟨rfl, rfl, rfl, rfl, rfl, rfl, trivial⟩, by decide, by decide⟩
  have entries : ChildrenListed twoJobs.store (twoJobs.firstProcess :: [8192, 12288])
      twoJobs.children := by
    intro child member
    rcases Finset.mem_insert.mp member with rfl | second
    · exact ⟨by decide, 8192, by decide, rfl, by decide⟩
    · rw [Finset.mem_singleton.mp second]
      exact ⟨by decide, 12288, by decide, rfl, by decide⟩
  obtain ⟨after, returned⟩ := Option.isSome_iff_exists.mp
    (show (twoJobs.waitForProcess 12288 twoReplies).isSome by decide +kernel)
  exact ⟨after, returned, waitForProcess_records listed entries returned⟩

end OsAssignments.Shell
