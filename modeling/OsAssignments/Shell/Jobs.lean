import OsAssignments.Shell.JobList
import OsAssignments.Shell.Session
import OsAssignments.Shell.TokenArrays

/-!
# The jobs of a session

What the process list is from one prompt to the next. At a prompt it has the sentinel and an entry
for each of some children that have not been reaped; while a command runs, its own entry stands
last with pid 0 until the command is launched or completed. Every step keeps this but one: a
`fork` that fails leaves the entry with pid 0 in the list for good.
-/

namespace OsAssignments.Shell

open LinkedList Text Transition

/-- The entries of the list at a prompt are the sentinel and the given jobs. -/
structure Consistent (store : Store) (firstProcess : Nat) (children : Finset Nat)
    (jobs : List Nat) : Prop where
  /-- The entries are linked both ways. -/
  listed : Listed store (firstProcess :: jobs)
  /-- The sentinel has pid −1 and is not completed. -/
  sentinel : (store firstProcess).pid = -1 ∧ (store firstProcess).completed = false
  /-- A job has a positive pid, is not completed, and is a child that has not been reaped. -/
  alive : ∀ job ∈ jobs, 0 < (store job).pid ∧ (store job).completed = false ∧
    ∃ child ∈ children, (store job).pid = (child : Int)
  /-- No two jobs have one pid. -/
  distinct : (jobs.map fun job => (store job).pid).Nodup

/-- At a prompt the list is consistent; the entry found for dispatch is the command just read; and
while `cmd_wait` waits for an active process, there is a child to wait for. -/
def TableHolds (session : Session) : Prop :=
  match session.control with
  | .prompt => ∃ jobs, Consistent session.store session.firstProcess session.children jobs
  | .dispatch p => session.dispatched = some p
  | .waiting _ => ∀ numActive, session.numActiveProc = some numActive → 0 < numActive →
      session.children.Nonempty
  | _ => True

/-- A `fork` in the step succeeds. -/
def ForkSucceeds (_ : Session) (event : Event) (_ : Session) : Prop :=
  match event with
  | .fork reply => reply ≠ none
  | _ => True

instance (session after : Session) (event : Event) : Decidable (ForkSucceeds session event after) :=
  match event with
  | .fork reply => inferInstanceAs (Decidable (reply ≠ none))
  | .line .. => isTrue trivial
  | .builtin => isTrue trivial
  | .waitpid _ => isTrue trivial

/-- The list while a command runs: the sentinel, jobs that may be completed, and the entries that
have no pid yet. -/
structure Table (store : Store) (firstProcess : Nat) (children : Finset Nat) (jobs own : List Nat) :
    Prop where
  /-- The entries are linked both ways. -/
  listed : Listed store (firstProcess :: (jobs ++ own))
  /-- The sentinel has pid −1 and is not completed. -/
  sentinel : (store firstProcess).pid = -1 ∧ (store firstProcess).completed = false
  /-- A job has a positive pid. -/
  launched : ∀ job ∈ jobs, 0 < (store job).pid
  /-- No two jobs have one pid. -/
  distinct : (jobs.map fun job => (store job).pid).Nodup
  /-- A job that is not completed is a child that has not been reaped. -/
  alive : ∀ job ∈ jobs, (store job).completed = false →
    ∃ child ∈ children, (store job).pid = (child : Int)
  /-- The other entries have pid 0. -/
  own : ∀ p ∈ own, (store p).pid = 0

/-- What is known of the list wherever the shell is, as long as no `fork` has failed. -/
def Invariant (session : Session) : Prop :=
  match session.control with
  | .prompt => ∃ jobs, Consistent session.store session.firstProcess session.children jobs
  | .dispatch p => ∃ jobs, Table session.store session.firstProcess session.children jobs [p] ∧
      ∀ job ∈ jobs ++ [p], (session.store job).completed = false
  | .foreground _ none => ∃ jobs, Table session.store session.firstProcess session.children jobs []
  | .foreground _ (some nextP) =>
    ∃ jobs, Table session.store session.firstProcess session.children jobs [nextP]
  | .waiting nextP => ∃ jobs,
      Table session.store session.firstProcess session.children jobs [nextP] ∧
        (session.store nextP).argv.head? = some (ascii "wait")
  | .exited => True

variable {store store' : Store} {firstProcess p q pid : Nat} {children remaining : Finset Nat}
  {jobs own rest : List Nat} {session after : Session} {change : Process → Process} {reply : Reply}
  {builtin : Builtin}

/-! ## Tables -/

/-- The own entry is neither a job nor the sentinel. -/
theorem Table.own_apart (table : Table store firstProcess children jobs own) (member : p ∈ own) :
    p ∉ jobs ∧ p ≠ firstProcess := by
  have pid := table.own p member
  constructor
  · intro listed
    have positive := table.launched p listed
    omega
  · rintro rfl
    have sentinel := table.sentinel.1
    omega

/-- A change of other things than links and pids keeps the table, when the sentinel is not
completed and the jobs that are not completed are children. -/
theorem Table.changed (table : Table store firstProcess children jobs own)
    (links : ∀ other, store'.next other = store.next other ∧ store'.prev other = store.prev other)
    (pids : ∀ other, (store' other).pid = (store other).pid)
    (sentinel : (store' firstProcess).completed = false)
    (alive : ∀ job ∈ jobs, (store' job).completed = false →
      ∃ child ∈ remaining, (store job).pid = (child : Int)) :
    Table store' firstProcess remaining jobs own where
  listed := table.listed.congr links
  sentinel := ⟨(pids firstProcess).trans table.sentinel.1, sentinel⟩
  launched := by simpa only [pids] using table.launched
  distinct := by simpa only [pids] using table.distinct
  alive := by simpa only [pids] using alive
  own := by simpa only [pids] using table.own

/-- A change that keeps links, pids and completions keeps the table. -/
theorem Table.modify (table : Table store firstProcess children jobs own)
    (keeps : ∀ process, (change process).next = process.next ∧ (change process).prev = process.prev ∧
      (change process).pid = process.pid ∧ (change process).completed = process.completed)
    (p : Nat) : Table (store.modify p change) firstProcess children jobs own := by
  have next := Store.modify_keeps Process.next (fun process => (keeps process).1) store p
  have prev := Store.modify_keeps Process.prev (fun process => (keeps process).2.1) store p
  have pid := Store.modify_keeps Process.pid (fun process => (keeps process).2.2.1) store p
  have completed := Store.modify_keeps Process.completed (fun process => (keeps process).2.2.2) store p
  apply table.changed (fun other => ⟨next other, prev other⟩) pid
  · exact (completed firstProcess).trans table.sentinel.2
  · intro job member notCompleted
    exact table.alive job member ((completed job).symm.trans notCompleted)

/-- A table stays one when an entry that is not the sentinel is completed. -/
theorem Table.complete (table : Table store firstProcess children jobs own)
    (keeps : ∀ process, (change process).next = process.next ∧ (change process).prev = process.prev ∧
      (change process).pid = process.pid ∧ (change process).completed = true)
    (apart : p ≠ firstProcess)
    (left : ∀ job ∈ jobs, job ≠ p → ∀ child ∈ children, (store job).pid = (child : Int) →
      child ∈ remaining) :
    Table (store.modify p change) firstProcess remaining jobs own := by
  have next := Store.modify_keeps Process.next (fun process => (keeps process).1) store p
  have prev := Store.modify_keeps Process.prev (fun process => (keeps process).2.1) store p
  have pid := Store.modify_keeps Process.pid (fun process => (keeps process).2.2.1) store p
  apply table.changed (fun other => ⟨next other, prev other⟩) pid
  · rw [Store.modify_other (Ne.symm apart)]
    exact table.sentinel.2
  · intro job member notCompleted
    have other : job ≠ p := by
      rintro rfl
      rw [Store.modify_same, (keeps _).2.2.2] at notCompleted
      contradiction
    rw [Store.modify_other other] at notCompleted
    obtain ⟨child, inside, same⟩ := table.alive job member notCompleted
    exact ⟨child, left job member other child inside same, same⟩

/-! ## Marking -/

/-- The entry that `mark_process_status` finds is a job with the pid. -/
theorem Table.find_pid (table : Table store firstProcess children jobs own) (positive : 0 < pid) :
    ∃ found, (store.find firstProcess fun process => process.pid = (pid : Int)) = some found ∧
      (∀ p ∈ found, p ∈ jobs ∧ (store p).pid = pid) ∧
      (found = none → ∀ job ∈ jobs, (store job).pid ≠ pid) := by
  refine ⟨_, table.listed.find, ?_, ?_⟩
  · intro p isFound
    have passes := List.find?_some (Option.mem_def.mp isFound)
    have pidIs : (store p).pid = pid := of_decide_eq_true passes
    refine ⟨?_, pidIs⟩
    rcases List.mem_cons.mp (List.mem_of_find?_eq_some (Option.mem_def.mp isFound)) with rfl | inner
    · have sentinel := table.sentinel.1
      omega
    · apply (List.mem_append.mp inner).resolve_right
      intro isOwn
      have zero := table.own p isOwn
      omega
  · intro missing job member same
    have fails := List.find?_eq_none.mp missing job (List.mem_cons_of_mem _ (List.mem_append_left _ member))
    exact fails (decide_eq_true same)

/-- Two jobs with one pid are one. -/
theorem Table.job_unique (table : Table store firstProcess children jobs own) (first : p ∈ jobs)
    (second : q ∈ jobs) (same : (store p).pid = (store q).pid) : p = q :=
  List.inj_on_of_nodup_map table.distinct first second same

/-- A child that has no entry leaves the table as it is. -/
theorem Table.erase (table : Table store firstProcess children jobs own)
    (missing : ∀ job ∈ jobs, (store job).pid ≠ pid) :
    Table store firstProcess (children.erase pid) jobs own := by
  apply table.changed (fun _ => ⟨rfl, rfl⟩) (fun _ => rfl) table.sentinel.2
  intro job listed notCompleted
  obtain ⟨child, inside, same⟩ := table.alive job listed notCompleted
  refine ⟨child, Finset.mem_erase.mpr ⟨?_, inside⟩, same⟩
  rintro rfl
  exact missing job listed same

/-- A child that is reaped leaves the table, with its entry completed if it has one. -/
theorem Table.reap {found : Option Nat} (table : Table store firstProcess children jobs own)
    (keeps : ∀ process, (change process).next = process.next ∧ (change process).prev = process.prev ∧
      (change process).pid = process.pid ∧ (change process).completed = true)
    (member : ∀ p ∈ found, p ∈ jobs ∧ (store p).pid = pid)
    (missing : found = none → ∀ job ∈ jobs, (store job).pid ≠ pid) :
    Table (found.elim store (store.modify · change)) firstProcess (children.erase pid) jobs own := by
  cases found with
  | none => exact table.erase (missing rfl)
  | some p =>
    obtain ⟨isJob, pidIs⟩ := member p rfl
    apply table.complete keeps
    · rintro rfl
      have positive := table.launched p isJob
      have sentinel := table.sentinel.1
      omega
    · intro job listed other child inside same
      apply Finset.mem_erase.mpr ⟨_, inside⟩
      rintro rfl
      exact other (table.job_unique listed isJob (same.trans pidIs.symm))

/-- What has been learnt about a process leaves its links, its pid and its words alone. -/
theorem Process.record_keeps (status : Status) (process : Process) :
    (process.record status).next = process.next ∧ (process.record status).prev = process.prev ∧
      (process.record status).pid = process.pid ∧ (process.record status).argv = process.argv := by
  cases status <;> exact ⟨rfl, rfl, rfl, rfl⟩

/-- A child that `waitpid` returns has stopped and is not reaped, or is completed and is. -/
theorem Reply.remaining_child {status : Status}
    (allowed : (Reply.child pid status).remaining children = some remaining) :
    (remaining = children ∧ ∀ process : Process, (process.record status).completed = process.completed) ∨
      (remaining = children.erase pid ∧ ∀ process : Process, (process.record status).completed = true) := by
  cases status with
  | stopped signal =>
    simp only [Reply.remaining, Option.ite_none_right_eq_some, Option.some.injEq] at allowed
    exact .inl ⟨allowed.2.symm, fun _ => rfl⟩
  | exited code =>
    simp only [Reply.remaining, Option.ite_none_right_eq_some, Option.some.injEq] at allowed
    exact .inr ⟨allowed.2.symm, fun _ => rfl⟩
  | signaled signal =>
    simp only [Reply.remaining, Option.ite_none_right_eq_some, Option.some.injEq] at allowed
    exact .inr ⟨allowed.2.symm, fun _ => rfl⟩

/-- What `waitpid` returns is marked in the entry of that child, and the table goes on without the
child when it has been reaped. -/
theorem Table.mark {returned : Int}
    (table : Table session.store session.firstProcess session.children jobs own)
    (allowed : reply.remaining session.children = some remaining)
    (marked : { session with children := remaining }.mark reply = some (returned, after)) :
    Table after.store after.firstProcess after.children jobs own ∧
      after.control = session.control ∧
      ∀ p, (after.store p).argv = (session.store p).argv := by
  cases reply with
  | noChild =>
    rw [Reply.remaining, Option.ite_none_right_eq_some] at allowed
    cases allowed.2
    cases marked
    exact ⟨table, rfl, fun _ => rfl⟩
  | interrupted =>
    cases allowed
    cases marked
    exact ⟨table, rfl, fun _ => rfl⟩
  | child pid status =>
    have kinds := Reply.remaining_child allowed
    rw [Session.mark] at marked
    split at marked
    · rename_i positive
      obtain ⟨found, search, member, missing⟩ := table.find_pid positive
      rw [Store.markProcessStatus, search, Option.map_some, Option.map_some, Option.some.injEq,
        Prod.mk.injEq] at marked
      obtain ⟨_, rfl⟩ := marked
      have keeps := Process.record_keeps status
      cases kinds with
      | inl stopped =>
        obtain ⟨rfl, completed⟩ := stopped
        cases found with
        | none => exact ⟨table, rfl, fun _ => rfl⟩
        | some p =>
          refine ⟨table.modify (fun process => ?_) p, rfl,
            Store.modify_keeps Process.argv (fun process => (keeps process).2.2.2) session.store p⟩
          obtain ⟨next, prev, pidKept, _⟩ := keeps process
          exact ⟨next, prev, pidKept, completed process⟩
      | inr reaped =>
        obtain ⟨rfl, completed⟩ := reaped
        have left := table.reap (fun process => by
          obtain ⟨next, prev, pidKept, _⟩ := keeps process
          exact ⟨next, prev, pidKept, completed process⟩) member missing
        cases found with
        | none => exact ⟨left, rfl, fun _ => rfl⟩
        | some p =>
          exact ⟨left, rfl,
            Store.modify_keeps Process.argv (fun process => (keeps process).2.2.2) session.store p⟩
    · rename_i notPositive
      cases marked
      refine ⟨?_, rfl, fun _ => rfl⟩
      cases kinds with
      | inl stopped =>
        obtain ⟨rfl, _⟩ := stopped
        exact table
      | inr reaped =>
        obtain ⟨rfl, _⟩ := reaped
        apply table.erase
        intro job listed
        -- No job has pid 0.
        have positive := table.launched job listed
        omega

/-! ## The prompt -/

/-- When the other entries are completed, purging leaves a consistent list. -/
theorem Table.finish (table : Table session.store session.firstProcess session.children jobs own)
    (done : ∀ p ∈ own, (session.store p).completed = true) (finished : session.finish = some after) :
    Invariant after := by
  obtain ⟨store', purged, listed, same⟩ := table.listed.purgeProcList table.sentinel.2
  rw [Session.finish, purged, Option.map_some, Option.some.injEq] at finished
  subst finished
  have fields := fun p => Process.content_eq (same p)
  have others : own.filter (fun p => !(session.store p).completed) = [] := by
    rw [List.filter_eq_nil_iff]
    intro p member
    simp [done p member]
  rw [List.filter_append, others, List.append_nil] at listed
  refine ⟨_, listed, ?_, ?_, ?_⟩
  · rw [(fields session.firstProcess).2.1, (fields session.firstProcess).2.2]
    exact table.sentinel
  · intro job member
    obtain ⟨isJob, left⟩ := List.mem_filter.mp member
    have notCompleted : (session.store job).completed = false := by simpa using left
    rw [(fields job).2.1, (fields job).2.2]
    exact ⟨table.launched job isJob, notCompleted, table.alive job isJob notCompleted⟩
  · have pids : ∀ job, (store' job).pid = (session.store job).pid := fun job => (fields job).2.1
    simp only [pids]
    exact table.distinct.sublist (List.filter_sublist.map _)

/-- Completing the entry of a builtin leads to a prompt with a consistent list. -/
theorem Table.completes (table : Table session.store session.firstProcess session.children jobs [p])
    (completed : session.complete p = some after) : Invariant after := by
  have finished : (session.modify p fun process => { process with completed := true }).finish =
    some after := completed
  apply Table.finish _ _ finished
  · exact jobs
  · exact [p]
  · rw [Session.store_modify]
    apply table.complete
    · exact fun _ => ⟨rfl, rfl, rfl, rfl⟩
    · exact (table.own_apart (List.mem_singleton.mpr rfl)).2
    · exact fun _ _ _ _ inside _ => inside
  · intro other member
    rw [List.mem_singleton.mp member]
    exact congrArg Process.completed Store.modify_same

/-- A process that `create_process` makes has no pid, is not completed and is not linked. -/
theorem createProcess_fresh {env : Environment} {table descriptors : Descriptors}
    {inputString : List UInt8} {process : Process}
    (created : createProcess env table inputString = (.ok process, descriptors)) :
    process.pid = 0 ∧ process.completed = false ∧ process.next = null := by
  obtain ⟨_, rfl⟩ := createProcess_ok_iff.mp (congrArg Prod.fst created)
  exact ⟨rfl, rfl, rfl⟩

/-- Writing to a block that is not in the list keeps the list. -/
theorem Listed.fill {nodes : List Nat} (listed : Listed store nodes)
    (change : Process → Process) (fresh : p ∉ nodes) : Listed (store.modify p change) nodes := by
  have apart : ∀ other ∈ nodes, other ≠ p := fun other member same => fresh (same ▸ member)
  apply Listed.mk _ listed.nodup listed.proper
  apply listed.chain.congr
  · intro other member
    rw [Store.next, Store.modify_other (apart other member), Store.next]
  · intro other member
    rw [Store.prev, Store.modify_other (apart other member), Store.prev]

/-- Reading a line makes a process of it, with an entry of its own behind the others; the rest of the
list and of the session stays. -/
theorem Listed.readLine {env : Environment} {inputString : List UInt8} {rest : List Nat}
    (listed : Listed session.store (session.firstProcess :: rest))
    (read : session.readLine env inputString p = some after) :
    ∃ process descriptors store',
      createProcess env session.descriptors inputString = (.ok process, descriptors) ∧
      p ∉ session.firstProcess :: rest ∧ Listed store' (session.firstProcess :: (rest ++ [p])) ∧
      (∀ other, (store' other).content =
        (session.store.modify p (fun _ => process) other).content) ∧
      { session with store := store', descriptors, control := .dispatch p } = after := by
  rw [Session.readLine, listed.walked, Option.bind_some] at read
  split at read
  · contradiction
  rename_i proper
  obtain ⟨notNull, small, fresh⟩ := by simpa only [not_or, Nat.not_le] using proper
  split at read
  · contradiction
  rename_i process descriptors created
  obtain ⟨_, _, loose⟩ := createProcess_fresh created
  have filled := listed.fill (fun _ => process) fresh
  obtain ⟨store', added, behind, same⟩ := filled.addProcess fresh ⟨notNull, small⟩ (by
    rw [Store.next, Store.modify_same]
    exact loose)
  rw [added, Option.map_some, Option.some.injEq] at read
  exact ⟨process, descriptors, store', created, fresh, behind, same, read⟩

/-- An entry that has no pid and is not completed joins the jobs of a consistent list. -/
theorem Consistent.joined {process : Process}
    (consistent : Consistent store firstProcess children jobs) (fresh : p ∉ firstProcess :: jobs)
    (listed : Listed store' (firstProcess :: jobs ++ [p]))
    (same : ∀ other, (store' other).content = (store.modify p (fun _ => process) other).content)
    (noPid : process.pid = 0) (notCompleted : process.completed = false) :
    Table store' firstProcess children jobs [p] ∧
      ∀ job ∈ jobs ++ [p], (store' job).completed = false := by
  have apart : ∀ other ∈ firstProcess :: jobs, other ≠ p := fun other member same =>
    fresh (same ▸ member)
  have old : ∀ other ∈ firstProcess :: jobs, (store' other).pid = (store other).pid ∧
      (store' other).completed = (store other).completed := by
    intro other member
    obtain ⟨_, pid, completed⟩ := Process.content_eq (same other)
    rw [Store.modify_other (apart other member)] at pid completed
    exact ⟨pid, completed⟩
  obtain ⟨_, newPid, newCompleted⟩ := Process.content_eq (same p)
  rw [Store.modify_same] at newPid newCompleted
  have isJob : ∀ job ∈ jobs, job ∈ firstProcess :: jobs := fun _ => List.mem_cons_of_mem _
  have jobPids : jobs.map (fun job => (store' job).pid) = jobs.map fun job => (store job).pid :=
    List.map_congr_left fun job member => (old job (isJob job member)).1
  refine ⟨⟨listed, ?_, ?_, ?_, ?_, ?_⟩, ?_⟩
  · obtain ⟨pid, completed⟩ := old firstProcess List.mem_cons_self
    rw [pid, completed]
    exact consistent.sentinel
  · intro job member
    rw [(old job (isJob job member)).1]
    exact (consistent.alive job member).1
  · rw [jobPids]
    exact consistent.distinct
  · intro job member _
    rw [(old job (isJob job member)).1]
    exact (consistent.alive job member).2.2
  · intro other member
    rw [List.mem_singleton.mp member]
    exact newPid.trans noPid
  · intro other member
    rcases List.mem_append.mp member with inner | isNew
    · rw [(old other (isJob other inner)).2]
      exact (consistent.alive other inner).2.1
    · rw [List.mem_singleton.mp isNew]
      exact newCompleted.trans notCompleted

/-- Reading a line puts its process behind the jobs. -/
theorem Consistent.readLine {env : Environment} {inputString : List UInt8}
    (consistent : Consistent session.store session.firstProcess session.children jobs)
    (read : session.readLine env inputString p = some after) :
    Invariant after ∧ after.control = .dispatch p := by
  obtain ⟨process, descriptors, store', created, fresh, listed, same, rfl⟩ :=
    consistent.listed.readLine read
  obtain ⟨noPid, notCompleted, _⟩ := createProcess_fresh created
  exact ⟨⟨jobs, consistent.joined fresh listed same noPid notCompleted⟩, rfl⟩

/-! ## Dispatch -/

/-- The entry found for dispatch is the only one with pid 0. -/
theorem Table.dispatched (table : Table session.store session.firstProcess session.children jobs [p]) :
    session.dispatched = some p := by
  have listed : Listed session.store ((session.firstProcess :: jobs) ++ [p]) := table.listed
  apply listed.findLast rfl
  intro other member
  rw [decide_eq_false_iff_not]
  intro zero
  rcases List.mem_cons.mp member with rfl | isJob
  · have sentinel := table.sentinel.1
    omega
  · have positive := table.launched other isJob
    omega

/-- The foreground gets a process of the table. -/
theorem Table.foreground (table : Table session.store session.firstProcess session.children jobs own)
    (q : Nat) (cont : Bool) (builtin : Option Nat) :
    Table (session.putProcessInForeground q cont builtin).store session.firstProcess
      session.children jobs own := by
  rw [Session.store_foreground]
  apply table.modify
  exact fun _ => ⟨rfl, rfl, rfl, rfl⟩

/-- So does the background. -/
theorem Table.background (table : Table session.store session.firstProcess session.children jobs own)
    (q : Nat) (cont : Bool) :
    Table (session.putProcessInBackground q cont).store session.firstProcess session.children jobs
      own := by
  rw [Session.store_background]
  apply table.modify
  exact fun _ => ⟨rfl, rfl, rfl, rfl⟩

/-- The loop of `cmd_wait` goes on waiting or completes its entry. -/
theorem Table.waitLoop (table : Table session.store session.firstProcess session.children jobs [p])
    (isWait : (session.store p).argv.head? = some (ascii "wait"))
    (taken : session.waitLoop p = some after) : Invariant after := by
  obtain ⟨numActive, _, goes⟩ := Option.bind_eq_some_iff.mp taken
  split at goes
  · cases goes
    exact ⟨jobs, table, isWait⟩
  · exact table.completes goes

/-- The builtin found for a word is the one of that name. -/
theorem lookup_wait {cmd : Option (List UInt8)} (found : lookup cmd = some .wait) :
    cmd = some (ascii "wait") := by
  obtain ⟨name, rfl, isWait⟩ := Option.bind_eq_some_iff.mp found
  obtain ⟨before, behind, split, _⟩ := List.lookup_eq_some_iff.mp isWait
  have member : (name, Builtin.wait) ∈ cmdTable := by
    rw [split]
    exact List.mem_append_right before List.mem_cons_self
  have named : name = ascii "wait" := by simpa [cmdTable] using member
  rw [named]

/-- A builtin keeps the invariant. -/
theorem Table.runBuiltin (table : Table session.store session.firstProcess session.children jobs [p])
    (found : lookup (session.store p).argv.head? = some builtin)
    (taken : session.runBuiltin builtin p = some after) : Invariant after := by
  cases builtin with
  | help => exact table.completes taken
  | quit =>
    cases taken
    trivial
  | cd => exact table.completes taken
  | plist => exact table.completes taken
  | fg =>
    obtain ⟨job, _, goes⟩ := Option.bind_eq_some_iff.mp taken
    cases job with
    | none => exact table.completes goes
    | some q =>
      cases goes
      exact ⟨jobs, table.foreground q _ _⟩
  | bg =>
    obtain ⟨job, _, goes⟩ := Option.bind_eq_some_iff.mp taken
    cases job with
    | none => exact table.completes goes
    | some q => exact Table.completes (table.background q true) goes
  | wait => exact table.waitLoop (lookup_wait found) taken

/-! ## Launching -/

/-- A process that is given a pid not in use becomes a job. -/
theorem Table.launched_job (table : Table store firstProcess children jobs [p])
    (uncompleted : ∀ job ∈ jobs ++ [p], (store job).completed = false) (positive : 0 < pid)
    (unused : pid ∉ children) :
    Table (store.modify p fun process => { process with pid }) firstProcess (insert pid children)
      (jobs ++ [p]) [] := by
  obtain ⟨notJob, notFirst⟩ := table.own_apart (List.mem_singleton.mpr rfl)
  have apart : ∀ job ∈ jobs, job ≠ p := fun job member same => notJob (same ▸ member)
  have completed : ∀ other, (store.modify p (fun process => { process with pid }) other).completed =
      (store other).completed := by
    apply Store.modify_keeps Process.completed
    exact fun _ => rfl
  have alive : ∀ job ∈ jobs, ∃ child ∈ children, (store job).pid = (child : Int) :=
    fun job member => table.alive job member (uncompleted job (List.mem_append_left _ member))
  constructor
  · rw [List.append_nil]
    apply table.listed.congr
    intro other
    constructor
    · apply Store.modify_keeps Process.next
      exact fun _ => rfl
    · apply Store.modify_keeps Process.prev
      exact fun _ => rfl
  · rw [Store.modify_other (Ne.symm notFirst)]
    exact table.sentinel
  · intro job member
    rcases List.mem_append.mp member with isJob | isNew
    · rw [Store.modify_other (apart job isJob)]
      exact table.launched job isJob
    · rw [List.mem_singleton.mp isNew, Store.modify_same]
      exact Int.natCast_pos.mpr positive
  · have old : jobs.map (fun job => (store.modify p (fun process => { process with pid }) job).pid) =
        jobs.map fun job => (store job).pid := by
      apply List.map_congr_left
      intro job member
      rw [Store.modify_other (apart job member)]
    rw [List.map_append, old, List.map_singleton, Store.modify_same, List.nodup_append]
    refine ⟨table.distinct, List.nodup_singleton _, ?_⟩
    intro pid' member new isNew same
    obtain ⟨job, isJob, rfl⟩ := List.mem_map.mp member
    obtain ⟨child, inside, isChild⟩ := alive job isJob
    have equal : (child : Int) = pid := isChild.symm.trans (same.trans (List.mem_singleton.mp isNew))
    exact unused (Int.ofNat_inj.mp equal ▸ inside)
  · intro job member _
    rcases List.mem_append.mp member with isJob | isNew
    · obtain ⟨child, inside, isChild⟩ := alive job isJob
      rw [Store.modify_other (apart job isJob)]
      exact ⟨child, Finset.mem_insert_of_mem inside, isChild⟩
    · rw [List.mem_singleton.mp isNew, Store.modify_same]
      exact ⟨pid, Finset.mem_insert_self pid children, rfl⟩
  · simp

/-- A successful `fork` keeps the invariant. -/
theorem Table.launchProcess (table : Table session.store session.firstProcess session.children jobs [p])
    (uncompleted : ∀ job ∈ jobs ++ [p], (session.store job).completed = false) (positive : 0 < pid)
    (unused : pid ∉ session.children) (taken : session.launchProcess p (some pid) = some after) :
    Invariant after := by
  have table' := table.launched_job uncompleted positive unused
  rw [Session.launchProcess] at taken
  split at taken
  · exact Table.finish (Table.background table' p false) (by simp) taken
  · cases taken
    exact ⟨jobs ++ [p], Table.foreground table' p false none⟩

/-- A `fork` that fails leaves an entry with pid 0 at the next prompt. -/
theorem Table.launch_fails (table : Table session.store session.firstProcess session.children jobs [p])
    (uncompleted : ∀ job ∈ jobs ++ [p], (session.store job).completed = false)
    (taken : session.launchProcess p none = some after) : ¬ TableHolds after := by
  obtain ⟨store', purged, listed, same⟩ := table.listed.purgeProcList table.sentinel.2
  rw [Session.launchProcess, Session.finish, purged, Option.map_some, Option.some.injEq] at taken
  subst taken
  intro holds
  obtain ⟨jobs', consistent⟩ := holds
  have remains : p ∈ jobs' := by
    rw [← listed.unique consistent.listed, List.mem_filter]
    exact ⟨by simp, by simp [uncompleted p (by simp)]⟩
  have positive := (consistent.alive p remains).1
  have zero := table.own p (List.mem_singleton.mpr rfl)
  rw [← (Process.content_eq (same p)).2.1] at zero
  exact absurd positive (by rw [zero]; decide)

/-! ## Steps -/

/-- A counted process is a job that is not completed. -/
theorem active_job (isWait : (store p).argv.head? = some (ascii "wait"))
    (member : q ∈ firstProcess :: (jobs ++ [p])) (active : store.isActive firstProcess q = some true) :
    q ∈ jobs ∧ (store q).completed = false := by
  unfold Store.isActive at active
  split at active
  · contradiction
  rename_i notFirst
  split at active
  · contradiction
  split at active
  · contradiction
  rename_i notCompleted
  refine ⟨?_, by simpa using notCompleted⟩
  have inner := (List.mem_cons.mp member).resolve_left notFirst
  apply (List.mem_append.mp inner).resolve_right
  intro isOwn
  rw [List.mem_singleton.mp isOwn, isWait] at active
  simp at active

/-- A positive count has a process that is counted. -/
theorem countActive_pos {nodes : List Nat} {numActive : Nat}
    (counted : store.countActive firstProcess nodes = some numActive) (positive : 0 < numActive) :
    ∃ q ∈ nodes, store.isActive firstProcess q = some true := by
  induction nodes generalizing numActive with
  | nil =>
    cases counted
    contradiction
  | cons q rest ih =>
    obtain ⟨active, isActive, counted⟩ := Option.bind_eq_some_iff.mp counted
    obtain ⟨others, countedRest, total⟩ := Option.bind_eq_some_iff.mp counted
    cases total
    cases active with
    | true => exact ⟨q, List.mem_cons_self, isActive⟩
    | false =>
      obtain ⟨found, member, foundActive⟩ := ih countedRest (by simpa using positive)
      exact ⟨found, List.mem_cons_of_mem q member, foundActive⟩

/-- Where the invariant holds, so does what is said of the list. -/
theorem Invariant.holds (inv : Invariant session) : TableHolds session := by
  unfold Invariant at inv
  unfold TableHolds
  cases control : session.control with
  | prompt =>
    rw [control] at inv
    exact inv
  | dispatch p =>
    rw [control] at inv
    obtain ⟨jobs, table, _⟩ := inv
    exact table.dispatched
  | foreground p builtin => trivial
  | waiting nextP =>
    rw [control] at inv
    obtain ⟨jobs, table, isWait⟩ := inv
    intro numActive counted positive
    rw [Session.numActiveProc, Store.numActiveProc, table.listed.walked, Option.bind_some] at counted
    obtain ⟨q, member, active⟩ := countActive_pos counted positive
    obtain ⟨isJob, notCompleted⟩ := active_job isWait member active
    obtain ⟨child, inside, _⟩ := table.alive q isJob notCompleted
    exact ⟨child, inside⟩
  | exited => trivial

/-- The list of a shell at its first prompt is the sentinel. -/
theorem Initial.listed (initial : Initial session) : Listed session.store [session.firstProcess] := by
  have sentinel := initial.list
  refine ⟨⟨?_, ?_, trivial⟩, List.nodup_singleton _, fun p member => ?_⟩
  · rw [Store.prev, sentinel]
    rfl
  · rw [Store.next, sentinel]
    rfl
  · rw [List.mem_singleton.mp member]
    exact ⟨initial.proper, initial.bounded⟩

/-- A shell at its first prompt has a list without jobs. -/
theorem Initial.invariant (initial : Initial session) : Invariant session := by
  unfold Invariant
  rw [initial.prompt]
  refine ⟨[], initial.listed, ?_, by simp, by simp⟩
  rw [initial.list]
  exact ⟨rfl, rfl⟩

/-- Leaving the foreground keeps the invariant. -/
theorem leaveForeground_invariant {builtin : Option Nat}
    (table : Table session.store session.firstProcess session.children jobs builtin.toList)
    (taken : session.leaveForeground builtin = some after) : Invariant after := by
  unfold Session.leaveForeground at taken
  generalize session.effects ++ [Effect.terminal session.shellPgid] = effects at taken
  cases builtin with
  | none => exact @Table.finish jobs [] { session with effects } after table (by simp) taken
  | some nextP => exact @Table.completes nextP jobs { session with effects } after table taken

/-- What `waitpid` returns in the foreground is marked, and the shell waits on or leaves it. -/
theorem Table.foregroundWaits {builtin : Option Nat}
    (table : Table session.store session.firstProcess session.children jobs builtin.toList)
    (control : session.control = .foreground p builtin)
    (taken : session.step (.waitpid reply) = some after) : Invariant after := by
  unfold Session.step at taken
  rw [control] at taken
  obtain ⟨remaining, allowed, taken⟩ := Option.bind_eq_some_iff.mp taken
  obtain ⟨⟨returned, marked⟩, isMarked, taken⟩ := Option.bind_eq_some_iff.mp taken
  rw [← control] at isMarked
  obtain ⟨table', same, _⟩ := table.mark allowed isMarked
  simp only at taken
  split at taken
  · cases taken
    unfold Invariant
    rw [same, control]
    cases builtin with
    | none => exact ⟨jobs, table'⟩
    | some nextP => exact ⟨jobs, table'⟩
  · exact leaveForeground_invariant table' taken

/-- What `waitpid` returns in `cmd_wait` is marked, and its loop goes on. -/
theorem Table.waitingWaits
    (table : Table session.store session.firstProcess session.children jobs [p])
    (isWait : (session.store p).argv.head? = some (ascii "wait"))
    (control : session.control = .waiting p)
    (taken : session.step (.waitpid reply) = some after) : Invariant after := by
  unfold Session.step at taken
  rw [control] at taken
  obtain ⟨remaining, allowed, taken⟩ := Option.bind_eq_some_iff.mp taken
  obtain ⟨⟨returned, marked⟩, isMarked, taken⟩ := Option.bind_eq_some_iff.mp taken
  rw [← control] at isMarked
  obtain ⟨table', _, argv⟩ := table.mark allowed isMarked
  exact table'.waitLoop (by rw [argv]; exact isWait) taken

/-- Every step but a `fork` that fails keeps the invariant. -/
theorem Invariant.step {event : Event} (inv : Invariant session) (taken : Step session event after)
    (forks : ForkSucceeds session event after) : Invariant after := by
  have waits := taken
  unfold Step Session.step at taken
  unfold Invariant at inv
  cases control : session.control with
  | prompt =>
    rw [control] at taken inv
    obtain ⟨jobs, consistent⟩ := inv
    cases event with
    | line env inputString p => exact (consistent.readLine taken).1
    | builtin => contradiction
    | fork reply => contradiction
    | waitpid reply => contradiction
  | dispatch p =>
    rw [control] at taken inv
    obtain ⟨jobs, table, uncompleted⟩ := inv
    cases event with
    | line env inputString p => contradiction
    | builtin =>
      simp only [table.dispatched, Option.bind_some] at taken
      split at taken
      · rename_i builtin found
        exact table.runBuiltin found taken
      · split at taken
        · exact table.completes taken
        · contradiction
    | fork reply =>
      simp only [table.dispatched, Option.bind_some] at taken
      split at taken
      · rename_i guarded
        cases reply with
        | none => exact absurd rfl forks
        | some pid =>
          obtain ⟨positive, unused⟩ := guarded.2.2 pid rfl
          exact table.launchProcess uncompleted positive unused taken
      · contradiction
    | waitpid reply => contradiction
  | foreground p builtin =>
    rw [control] at taken inv
    have table : ∃ jobs, Table session.store session.firstProcess session.children jobs
        builtin.toList := by
      cases builtin with
      | none => exact inv
      | some nextP => exact inv
    obtain ⟨jobs, table⟩ := table
    cases event with
    | line env inputString p => contradiction
    | builtin => contradiction
    | fork reply => contradiction
    | waitpid reply => exact table.foregroundWaits control waits
  | waiting nextP =>
    rw [control] at taken inv
    obtain ⟨jobs, table, isWait⟩ := inv
    cases event with
    | line env inputString p => contradiction
    | builtin => contradiction
    | fork reply => contradiction
    | waitpid reply => exact table.waitingWaits isWait control waits
  | exited =>
    rw [control] at taken
    cases event <;> contradiction

/-- A `fork` that fails breaks what is said of the list. -/
theorem Invariant.fork_fails {event : Event} (inv : Invariant session)
    (taken : Step session event after) (fails : ¬ ForkSucceeds session event after) :
    ¬ TableHolds after := by
  unfold Step Session.step at taken
  unfold Invariant at inv
  cases event with
  | line env inputString p => exact absurd trivial fails
  | builtin => exact absurd trivial fails
  | waitpid reply => exact absurd trivial fails
  | fork reply =>
    obtain rfl : reply = none := not_not.mp fails
    cases control : session.control with
    | prompt =>
      rw [control] at taken
      contradiction
    | dispatch p =>
      rw [control] at taken inv
      obtain ⟨jobs, table, uncompleted⟩ := inv
      simp only [table.dispatched, Option.bind_some] at taken
      split at taken
      · exact table.launch_fails uncompleted taken
      · contradiction
    | foreground p builtin =>
      rw [control] at taken
      contradiction
    | waiting nextP =>
      rw [control] at taken
      contradiction
    | exited =>
      rw [control] at taken
      contradiction

/-- In every session from the first prompt on, the list is consistent at each prompt, the entry
found for dispatch is the command just read, and an active process in `cmd_wait` means a child to
wait for, if and only if every `fork` succeeds. -/
theorem tableHolds_iff_forksSucceed {start : Session} {run : List (Event × Session)}
    (initial : Initial start) (steps : IsRun Step start run) :
    Always TableHolds start run ↔ Each ForkSucceeds start run :=
  steps.always_iff_each initial.invariant (fun _ inv => inv.holds)
    (fun _ _ _ inv taken forks => inv.step taken forks)
    (fun _ _ _ inv taken fails => inv.fork_fails taken fails)

/-- A session in which `/bin/ls` is read and `fork` fails. -/
def refusedRun : List (Event × Session) :=
  trace Session.step freshSession [.line binEnvironment (ascii "/bin/ls\n") 8192, .fork none]

/-- A session with a background job and one in the foreground that is stopped, continued and
killed, before the background job is waited for. -/
def jobsRun : List (Event × Session) :=
  trace Session.step freshSession [.line binEnvironment (ascii "/bin/ls &\n") 8192, .fork (some 7),
    .line binEnvironment (ascii "/bin/ls\n") 12288, .fork (some 8), .waitpid (.child 8 (.stopped 20)),
    .line binEnvironment (ascii "fg\n") 16384, .builtin, .waitpid (.child 8 (.signaled 9)),
    .line binEnvironment (ascii "wait\n") 16384, .builtin, .waitpid (.child 7 (.exited 0))]

/-- A `fork` that fails leaves an entry with pid 0 at the prompt. -/
theorem refusedRun_leaves : ¬ ∀ (start : Session) (run : List (Event × Session)), Initial start →
    IsRun Step start run → Always TableHolds start run := by
  intro claim
  have always := claim freshSession refusedRun freshSession_initial
    (isRun_trace (fun _ _ _ performed => performed) _ _)
  have control : (final freshSession refusedRun).control = .prompt := by decide +kernel
  have holds := always.final
  unfold TableHolds at holds
  rw [control] at holds
  obtain ⟨jobs, consistent⟩ := holds
  have walked := consistent.listed.walked
  have nodes : walk null (final freshSession refusedRun).store.next loopBound
      (final freshSession refusedRun).firstProcess = some [4096, 8192] := by decide +kernel
  have jobsAre : jobs = [8192] := (List.cons_eq_cons.mp (Option.some.inj (walked.symm.trans nodes))).2
  have positive := (consistent.alive 8192 (by simp [jobsAre])).1
  revert positive
  decide +kernel

/-- The session with two jobs keeps its list. -/
theorem tableHolds_jobsRun : jobsRun.length = 11 ∧ Always TableHolds freshSession jobsRun :=
  ⟨by decide +kernel, (tableHolds_iff_forksSucceed freshSession_initial
    (isRun_trace (fun _ _ _ performed => performed) _ _)).mpr (by decide +kernel)⟩

end OsAssignments.Shell
