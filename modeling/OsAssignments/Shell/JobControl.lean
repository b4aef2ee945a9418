import OsAssignments.Shell.Jobs

/-!
# Which jobs `fg` and `bg` act on

Both commands pick an entry by the number that `strtol` makes of their argument, or without an
argument by its place. Two entries of the list are no jobs: the sentinel with pid −1 and the entry
of the command itself with pid 0. Without an argument they are passed over; an argument that reads
as −1 or 0 picks them. What is known of the list here also holds when some `fork` has failed.
-/

namespace OsAssignments.Shell

open LinkedList Text Transition

/-- A session with the pids of the children launched so far. -/
structure Chronicle where
  /-- The session. -/
  session : Session
  /-- What `fork` has returned. -/
  launched : List Nat

/-- The pids launched once an event has happened. -/
def Event.launches (launched : List Nat) : Event → List Nat
  | .fork (some pid) => pid :: launched
  | _ => launched

/-- A step of the session, with what it launches. -/
def Chronicle.Step (chronicle : Chronicle) (event : Event) (after : Chronicle) : Prop :=
  Shell.Step chronicle.session event after.session ∧ after.launched = event.launches chronicle.launched

/-- The list has the sentinel first, and behind it entries without a pid or with that of a child
launched. -/
structure Listing (store : Store) (firstProcess : Nat) (launched entries : List Nat) : Prop where
  /-- The entries are linked both ways. -/
  listed : Listed store (firstProcess :: entries)
  /-- The sentinel has pid −1 and is not completed. -/
  sentinel : (store firstProcess).pid = -1 ∧ (store firstProcess).completed = false
  /-- The others have no pid or one that was launched. -/
  pids : ∀ q ∈ entries, (store q).pid = 0 ∨ ∃ pid ∈ launched, 0 < pid ∧ (store q).pid = (pid : Int)

/-- What is known of the list wherever the shell is. -/
def ListHolds (chronicle : Chronicle) : Prop :=
  let session := chronicle.session
  match session.control with
  | .prompt => ∃ entries, Listing session.store session.firstProcess chronicle.launched entries
  | .dispatch p => ∃ entries,
      Listing session.store session.firstProcess chronicle.launched (entries ++ [p]) ∧
        (session.store p).pid = 0
  | .foreground _ builtin => ∃ entries,
      Listing session.store session.firstProcess chronicle.launched entries ∧
        ∀ nextP ∈ builtin, nextP ≠ session.firstProcess
  | .waiting nextP => ∃ entries,
      Listing session.store session.firstProcess chronicle.launched entries ∧
        nextP ≠ session.firstProcess
  | .exited => True

/-- An entry is neither the sentinel nor the command's own, and has the positive pid of a child
launched. -/
structure IsLaunched (session : Session) (launched : List Nat) (own p : Nat) : Prop where
  /-- It is not the sentinel. -/
  notSentinel : p ≠ session.firstProcess
  /-- It is not the entry of the command. -/
  notOwn : p ≠ own
  /-- It is a child launched earlier. -/
  pid : ∃ pid ∈ launched, 0 < pid ∧ (session.store p).pid = (pid : Int)

/-- `cmd_fg` does nothing before its entry is completed, or it acts on a job launched. -/
def FgActsOnJob (session : Session) (launched : List Nat) (args : List (List UInt8)) (own : Nat) : Prop :=
  session.cmdFg args own = session.complete own ∨
    ∃ p, IsLaunched session launched own p ∧
      session.cmdFg args own =
        some (session.putProcessInForeground p (session.store p).stopped (some own))

/-- `cmd_bg` does nothing before its entry is completed, or it acts on a job launched. -/
def BgActsOnJob (session : Session) (launched : List Nat) (args : List (List UInt8)) (own : Nat) : Prop :=
  session.cmdBg args own = session.complete own ∨
    ∃ p, IsLaunched session launched own p ∧
      session.cmdBg args own = (session.putProcessInBackground p true).complete own

/-- There is no argument, or it reads as neither 0 nor −1. -/
def NamesNeither (args : List (List UInt8)) : Prop := ∀ arg ∈ args.head?, strtol arg ≠ 0 ∧ strtol arg ≠ -1

variable {store store' : Store} {session after : Session} {chronicle chronicle' : Chronicle}
  {firstProcess p q nextP pid : Nat} {launched entries : List Nat} {change : Process → Process}
  {reply : Reply} {builtin : Builtin} {args : List (List UInt8)}

/-! ## Changes of entries -/

/-- An entry is not the sentinel. -/
theorem Listing.entry_apart (listing : Listing store firstProcess launched entries)
    (member : p ∈ entries) : p ≠ firstProcess := by
  rintro rfl
  exact (List.nodup_cons.mp listing.listed.nodup).1 member

/-- A change that keeps links and pids keeps the listing, when the sentinel is not completed. -/
theorem Listing.changed (listing : Listing store firstProcess launched entries)
    (links : ∀ other, store'.next other = store.next other ∧ store'.prev other = store.prev other)
    (pids : ∀ other, (store' other).pid = (store other).pid)
    (sentinel : (store' firstProcess).completed = false) :
    Listing store' firstProcess launched entries where
  listed := listing.listed.congr links
  sentinel := ⟨(pids firstProcess).trans listing.sentinel.1, sentinel⟩
  pids := by simpa only [pids] using listing.pids

/-- A change of one entry that keeps its links and its pid keeps the listing, when the entry is not
the sentinel or its completion is kept as well. -/
theorem Listing.modify (listing : Listing store firstProcess launched entries)
    (keeps : ∀ process, (change process).next = process.next ∧ (change process).prev = process.prev ∧
      (change process).pid = process.pid)
    (sentinel : p ≠ firstProcess ∨ ∀ process, (change process).completed = process.completed) :
    Listing (store.modify p change) firstProcess launched entries := by
  have next := Store.modify_keeps Process.next (fun process => (keeps process).1) store p
  have prev := Store.modify_keeps Process.prev (fun process => (keeps process).2.1) store p
  have pid := Store.modify_keeps Process.pid (fun process => (keeps process).2.2) store p
  apply listing.changed (fun other => ⟨next other, prev other⟩) pid
  rcases sentinel with apart | kept
  · rw [Store.modify_other (Ne.symm apart)]
    exact listing.sentinel.2
  · rw [Store.modify_keeps Process.completed kept]
    exact listing.sentinel.2

/-- Purging keeps the listing of the entries it leaves, and the effects. -/
theorem Listing.finish (listing : Listing session.store session.firstProcess launched entries) :
    ∃ after, session.finish = some after ∧ ListHolds ⟨after, launched⟩ ∧
      after.effects = session.effects := by
  obtain ⟨store', purged, listed, same⟩ := listing.listed.purgeProcList listing.sentinel.2
  have fields := fun p => Process.content_eq (same p)
  refine ⟨{ session with store := store', control := .prompt }, ?_, ⟨_, listed, ?_, ?_⟩, rfl⟩
  · rw [Session.finish, purged]
    rfl
  · rw [(fields session.firstProcess).2.1, (fields session.firstProcess).2.2]
    exact listing.sentinel
  · intro q member
    rw [(fields q).2.1]
    exact listing.pids q (List.mem_filter.mp member).1

/-- What the end of the loop of `shell` leaves. -/
theorem Listing.finishes (listing : Listing session.store session.firstProcess launched entries)
    (finished : session.finish = some after) : ListHolds ⟨after, launched⟩ := by
  obtain ⟨after', finished', holds, _⟩ := listing.finish
  rw [finished] at finished'
  cases finished'
  exact holds

/-- Completing an entry that is not the sentinel does. -/
theorem Listing.complete (listing : Listing session.store session.firstProcess launched entries)
    (apart : nextP ≠ session.firstProcess) :
    ∃ after, session.complete nextP = some after ∧ ListHolds ⟨after, launched⟩ ∧
      after.effects = session.effects := by
  have completed : Listing (session.store.modify nextP fun process => { process with completed := true })
      session.firstProcess launched entries := listing.modify (fun _ => ⟨rfl, rfl, rfl⟩) (.inl apart)
  exact @Listing.finish (session.modify nextP fun process => { process with completed := true })
    launched entries completed

/-- What a command leaves when it returns. -/
theorem Listing.completes (listing : Listing session.store session.firstProcess launched entries)
    (apart : nextP ≠ session.firstProcess) (completed : session.complete nextP = some after) :
    ListHolds ⟨after, launched⟩ := by
  obtain ⟨after', completed', holds, _⟩ := listing.complete apart
  rw [completed] at completed'
  cases completed'
  exact holds

/-- The foreground gets an entry of the listing. -/
theorem Listing.foreground (listing : Listing session.store session.firstProcess launched entries)
    (q : Nat) (cont : Bool) (builtin : Option Nat) :
    Listing (session.putProcessInForeground q cont builtin).store session.firstProcess launched
      entries := by
  rw [Session.store_foreground]
  exact listing.modify (fun _ => ⟨rfl, rfl, rfl⟩) (.inr fun _ => rfl)

/-- So does the background. -/
theorem Listing.background (listing : Listing session.store session.firstProcess launched entries)
    (q : Nat) (cont : Bool) :
    Listing (session.putProcessInBackground q cont).store session.firstProcess launched entries := by
  rw [Session.store_background]
  exact listing.modify (fun _ => ⟨rfl, rfl, rfl⟩) (.inr fun _ => rfl)

/-- What `waitpid` returns is marked in an entry that is not the sentinel, if in any. -/
theorem Listing.mark {returned : Int} {children : Finset Nat}
    (listing : Listing session.store session.firstProcess launched entries)
    (marked : { session with children }.mark reply = some (returned, after)) :
    Listing after.store after.firstProcess launched entries ∧
      after.firstProcess = session.firstProcess ∧ after.control = session.control := by
  cases reply with
  | noChild =>
    cases marked
    exact ⟨listing, rfl, rfl⟩
  | interrupted =>
    cases marked
    exact ⟨listing, rfl, rfl⟩
  | child pid status =>
    rw [Session.mark] at marked
    split at marked
    · rename_i positive
      rw [Store.markProcessStatus, listing.listed.find, Option.map_some, Option.map_some,
        Option.some.injEq, Prod.mk.injEq] at marked
      obtain ⟨_, rfl⟩ := marked
      cases search : (session.firstProcess :: entries).find? fun p =>
          decide ((session.store p).pid = (pid : Int)) with
      | none => exact ⟨listing, rfl, rfl⟩
      | some p =>
        have passes := List.find?_some search
        have pidIs : (session.store p).pid = pid := of_decide_eq_true passes
        have apart : p ≠ session.firstProcess := by
          rintro rfl
          have sentinel := listing.sentinel.1
          omega
        refine ⟨listing.modify (fun process => ?_) (.inl apart), rfl, rfl⟩
        obtain ⟨next, prev, pidKept, _⟩ := Process.record_keeps status process
        exact ⟨next, prev, pidKept⟩
    · cases marked
      exact ⟨listing, rfl, rfl⟩

/-! ## Steps -/

/-- Reading a line puts an entry without a pid behind the others. -/
theorem Listing.readLine {env : Environment} {inputString : List UInt8}
    (listing : Listing session.store session.firstProcess launched entries)
    (read : session.readLine env inputString p = some after) : ListHolds ⟨after, launched⟩ := by
  obtain ⟨process, descriptors, store', created, fresh, listed, same, rfl⟩ :=
    listing.listed.readLine read
  obtain ⟨noPid, _, _⟩ := createProcess_fresh created
  have old : ∀ other ∈ session.firstProcess :: entries,
      (store' other).pid = (session.store other).pid ∧
        (store' other).completed = (session.store other).completed := by
    intro other member
    have apart : other ≠ p := fun same => fresh (same ▸ member)
    obtain ⟨_, pid, completed⟩ := Process.content_eq (same other)
    rw [Store.modify_other apart] at pid completed
    exact ⟨pid, completed⟩
  have new : (store' p).pid = 0 := by
    obtain ⟨_, pid, _⟩ := Process.content_eq (same p)
    rw [Store.modify_same] at pid
    exact pid.trans noPid
  refine ⟨entries, ⟨listed, ?_, ?_⟩, new⟩
  · obtain ⟨pid, completed⟩ := old session.firstProcess List.mem_cons_self
    rw [pid, completed]
    exact listing.sentinel
  · intro q member
    rcases List.mem_append.mp member with inner | isNew
    · rw [(old q (List.mem_cons_of_mem _ inner)).1]
      exact listing.pids q inner
    · rw [List.mem_singleton.mp isNew]
      exact .inl new

/-- The entry found for dispatch is not the sentinel. -/
theorem Listing.dispatched_apart
    (listing : Listing session.store session.firstProcess launched (entries ++ [p]))
    (found : session.dispatched = some nextP) : nextP ≠ session.firstProcess := by
  rintro rfl
  have forth := listing.listed.chain.2.1
  rcases searchLast_spec found with passes | atEnd
  · have zero : (session.store session.firstProcess).pid = 0 := of_decide_eq_true passes
    rw [listing.sentinel.1] at zero
    contradiction
  · rw [atEnd] at forth
    cases entries with
    | nil => exact listing.listed.notNull p (by simp) forth.symm
    | cons q rest => exact listing.listed.notNull q (by simp) forth.symm

/-- The loop of `cmd_wait` goes on waiting or completes its entry. -/
theorem Listing.waitLoop (listing : Listing session.store session.firstProcess launched entries)
    (apart : nextP ≠ session.firstProcess) (taken : session.waitLoop nextP = some after) :
    ListHolds ⟨after, launched⟩ := by
  obtain ⟨numActive, _, goes⟩ := Option.bind_eq_some_iff.mp taken
  split at goes
  · cases goes
    exact ⟨entries, listing, apart⟩
  · exact listing.completes apart goes

/-- A builtin keeps what is known of the list. -/
theorem Listing.runBuiltin (listing : Listing session.store session.firstProcess launched entries)
    (apart : nextP ≠ session.firstProcess)
    (taken : session.runBuiltin builtin nextP = some after) : ListHolds ⟨after, launched⟩ := by
  cases builtin with
  | help => exact listing.completes apart taken
  | quit =>
    cases taken
    trivial
  | cd => exact listing.completes apart taken
  | plist => exact listing.completes apart taken
  | fg =>
    obtain ⟨job, _, goes⟩ := Option.bind_eq_some_iff.mp taken
    cases job with
    | none => exact listing.completes apart goes
    | some q =>
      cases goes
      exact ⟨entries, listing.foreground q _ _, fun _ isNext => Option.some.inj isNext ▸ apart⟩
  | bg =>
    obtain ⟨job, _, goes⟩ := Option.bind_eq_some_iff.mp taken
    cases job with
    | none => exact listing.completes apart goes
    | some q => exact Listing.completes (listing.background q true) apart goes
  | wait => exact listing.waitLoop apart taken

/-- A `fork` keeps what is known of the list, with the child that it launches. -/
theorem Listing.launchProcess (reply : Option Nat)
    (listing : Listing session.store session.firstProcess launched (entries ++ [p]))
    (positive : ∀ pid ∈ reply, 0 < pid) (taken : session.launchProcess p reply = some after) :
    ListHolds ⟨after, Event.launches launched (.fork reply)⟩ := by
  cases reply with
  | none => exact listing.finishes taken
  | some pid =>
    have notFirst : p ≠ session.firstProcess := listing.entry_apart (by simp)
    have launches : Listing (session.store.modify p fun process => { process with pid })
        session.firstProcess (pid :: launched) (entries ++ [p]) := by
      refine ⟨listing.listed.congr fun other => ⟨?_, ?_⟩, ?_, fun q member => ?_⟩
      · apply Store.modify_keeps Process.next
        exact fun _ => rfl
      · apply Store.modify_keeps Process.prev
        exact fun _ => rfl
      · rw [Store.modify_other (Ne.symm notFirst)]
        exact listing.sentinel
      · by_cases same : q = p
        · rw [same, Store.modify_same]
          exact .inr ⟨pid, List.mem_cons_self, positive pid rfl, rfl⟩
        · rw [Store.modify_other same]
          refine (listing.pids q member).imp_right ?_
          rintro ⟨pid', member', old⟩
          exact ⟨pid', List.mem_cons_of_mem pid member', old⟩
    rw [Session.launchProcess] at taken
    split at taken
    · exact Listing.finishes (Listing.background launches p false) taken
    · cases taken
      refine ⟨entries ++ [p], Listing.foreground launches p false none, fun _ isNext => ?_⟩
      cases isNext

/-- A shell at its first prompt has a list without entries behind the sentinel. -/
theorem Initial.listHolds (initial : Initial session) : ListHolds ⟨session, []⟩ := by
  unfold ListHolds
  simp only
  rw [initial.prompt]
  refine ⟨[], initial.listed, ?_, by simp⟩
  rw [initial.list]
  exact ⟨rfl, rfl⟩

/-- Leaving the foreground keeps what is known of the list. -/
theorem Listing.leaveForeground {builtin : Option Nat}
    (listing : Listing session.store session.firstProcess launched entries)
    (apart : ∀ nextP ∈ builtin, nextP ≠ session.firstProcess)
    (taken : session.leaveForeground builtin = some after) : ListHolds ⟨after, launched⟩ := by
  unfold Session.leaveForeground at taken
  generalize session.effects ++ [Effect.terminal session.shellPgid] = effects at taken
  cases builtin with
  | none => exact @Listing.finishes { session with effects } after launched entries listing taken
  | some nextP =>
    exact @Listing.completes { session with effects } after nextP launched entries listing
      (apart nextP rfl) taken

/-- Every step keeps what is known of the list. -/
theorem ListHolds.step {event : Event} (holds : ListHolds chronicle)
    (taken : chronicle.Step event chronicle') : ListHolds chronicle' := by
  obtain ⟨session, launched⟩ := chronicle
  obtain ⟨after, launched'⟩ := chronicle'
  obtain ⟨stepped, launches⟩ := taken
  simp only at stepped launches
  subst launches
  unfold Step Session.step at stepped
  unfold ListHolds at holds
  simp only at holds
  cases control : session.control with
  | prompt =>
    rw [control] at stepped holds
    obtain ⟨entries, listing⟩ := holds
    cases event with
    | line env inputString p => exact listing.readLine stepped
    | builtin => contradiction
    | fork reply => contradiction
    | waitpid reply => contradiction
  | dispatch p =>
    rw [control] at stepped holds
    obtain ⟨entries, listing, own⟩ := holds
    cases event with
    | line env inputString p => contradiction
    | waitpid reply => contradiction
    | builtin =>
      obtain ⟨nextP, found, goes⟩ := Option.bind_eq_some_iff.mp stepped
      have apart := listing.dispatched_apart found
      split at goes
      · exact listing.runBuiltin apart goes
      · split at goes
        · exact listing.completes apart goes
        · contradiction
    | fork reply =>
      obtain ⟨nextP, found, goes⟩ := Option.bind_eq_some_iff.mp stepped
      split at goes
      · rename_i guarded
        exact listing.launchProcess reply (fun pid isReply => (guarded.2.2 pid isReply).1) goes
      · contradiction
  | foreground p builtin =>
    rw [control] at stepped holds
    obtain ⟨entries, listing, apart⟩ := holds
    cases event with
    | line env inputString p => contradiction
    | builtin => contradiction
    | fork reply => contradiction
    | waitpid reply =>
      obtain ⟨remaining, _, stepped⟩ := Option.bind_eq_some_iff.mp stepped
      obtain ⟨⟨returned, marked⟩, isMarked, goes⟩ := Option.bind_eq_some_iff.mp stepped
      rw [← control] at isMarked
      obtain ⟨listing', first, same⟩ := listing.mark isMarked
      simp only at goes
      split at goes
      · cases goes
        unfold ListHolds
        simp only [same, control]
        exact ⟨entries, listing', first ▸ apart⟩
      · exact listing'.leaveForeground (first ▸ apart) goes
  | waiting nextP =>
    rw [control] at stepped holds
    obtain ⟨entries, listing, apart⟩ := holds
    cases event with
    | line env inputString p => contradiction
    | builtin => contradiction
    | fork reply => contradiction
    | waitpid reply =>
      obtain ⟨remaining, _, stepped⟩ := Option.bind_eq_some_iff.mp stepped
      obtain ⟨⟨returned, marked⟩, isMarked, goes⟩ := Option.bind_eq_some_iff.mp stepped
      rw [← control] at isMarked
      obtain ⟨listing', first, _⟩ := listing.mark isMarked
      exact listing'.waitLoop (first ▸ apart) goes
  | exited =>
    rw [control] at stepped
    cases event <;> contradiction

/-! ## Selection -/

/-- When the command's own entry is the one found for dispatch, the entries before it were launched. -/
theorem Listing.jobs_launched
    (listing : Listing session.store session.firstProcess launched (entries ++ [p]))
    (found : session.dispatched = some p) :
    ∀ q ∈ entries, ∃ pid ∈ launched, 0 < pid ∧ (session.store q).pid = (pid : Int) := by
  intro q member
  rcases listing.pids q (List.mem_append_left _ member) with zero | launchedPid
  · cases search : entries.find? fun q => decide ((session.store q).pid = 0) with
    | none => exact absurd (decide_eq_true zero) (List.find?_eq_none.mp search q member)
    | some other =>
      obtain ⟨passes, before, behind, split, fails⟩ := List.find?_eq_some_iff_append.mp search
      have inside : session.firstProcess :: (entries ++ [p]) =
          (session.firstProcess :: before) ++ other :: (behind ++ [p]) := by
        rw [split]
        simp
      have listed := listing.listed
      rw [inside] at listed
      have earlier : ∀ q ∈ session.firstProcess :: before, decide ((session.store q).pid = 0) = false := by
        intro q isEarlier
        rcases List.mem_cons.mp isEarlier with rfl | isJob
        · rw [listing.sentinel.1]
          rfl
        · simpa using fails q isJob
      have stops : session.dispatched = some other := listed.findLast_found rfl earlier passes
      rw [found] at stops
      obtain rfl := Option.some.inj stops
      have once := (List.nodup_cons.mp (List.nodup_append.mp listed.nodup).2.1).1
      exact absurd (List.mem_append_right behind (List.mem_singleton.mpr rfl)) once
  · exact launchedPid

/-- An argument that reads as 0 picks the command's own entry. -/
theorem Listing.selectJob_own {arg : List UInt8} {rest : List (List UInt8)}
    (listing : Listing store firstProcess launched (entries ++ [p])) (own : (store p).pid = 0)
    (jobs : ∀ q ∈ entries, ∃ pid ∈ launched, 0 < pid ∧ (store q).pid = (pid : Int))
    (zero : strtol arg = 0) : selectJob store firstProcess (arg :: rest) = some (some p) := by
  rw [selectJob, listing.listed.find, zero, ← List.cons_append, List.find?_append]
  have none : (firstProcess :: entries).find? (fun q => decide ((store q).pid = 0)) = none := by
    rw [List.find?_eq_none]
    intro q member
    rw [decide_eq_true_eq]
    rcases List.mem_cons.mp member with rfl | isJob
    · rw [listing.sentinel.1]
      decide
    · obtain ⟨pid, _, positive, pidIs⟩ := jobs q isJob
      omega
  rw [none]
  simp [own]

/-- An argument that reads as −1 picks the sentinel. -/
theorem Listing.selectJob_sentinel {arg : List UInt8} {rest : List (List UInt8)}
    (listing : Listing store firstProcess launched entries) (minusOne : strtol arg = -1) :
    selectJob store firstProcess (arg :: rest) = some (some firstProcess) := by
  rw [selectJob, listing.listed.find, minusOne, List.find?_cons_of_pos (by simp [listing.sentinel.1])]

/-- Otherwise nothing is picked, or an entry between the two. -/
theorem Listing.selectJob_job (listing : Listing store firstProcess launched (entries ++ [p]))
    (own : (store p).pid = 0) (neither : NamesNeither args) :
    selectJob store firstProcess args = some none ∨
      ∃ q ∈ entries, selectJob store firstProcess args = some (some q) := by
  cases args with
  | cons arg rest =>
    obtain ⟨notZero, notMinusOne⟩ := neither arg rfl
    rw [selectJob, listing.listed.find]
    cases search : (firstProcess :: (entries ++ [p])).find? fun q => decide ((store q).pid = strtol arg) with
    | none => exact .inl rfl
    | some q =>
      have passes := List.find?_some search
      have pidIs : (store q).pid = strtol arg := of_decide_eq_true passes
      refine .inr ⟨q, ?_, rfl⟩
      rcases List.mem_cons.mp (List.mem_of_find?_eq_some search) with rfl | inner
      · exact absurd (pidIs.symm.trans listing.sentinel.1) notMinusOne
      · apply (List.mem_append.mp inner).resolve_right
        intro isOwn
        rw [List.mem_singleton.mp isOwn] at pidIs
        exact notZero (pidIs.symm.trans own)
  | nil =>
    have listed : Listed store ((firstProcess :: entries) ++ [p]) := listing.listed
    have last : store.findLast firstProcess (fun _ => false) = some p := listed.findLast rfl fun _ _ => rfl
    have back : store.prev p = LinkedList.last null (firstProcess :: entries) :=
      (chain_append.mp listed.chain).2.1
    rw [selectJob, last]
    simp only [Option.bind_eq_bind, Option.bind_some]
    rcases List.eq_nil_or_concat' entries with rfl | ⟨front, q, rfl⟩
    · rw [back]
      exact .inl (by simp)
    · have isQ : store.prev p = q := by rw [back]; simp
      have notFirst : q ≠ firstProcess := listing.entry_apart (by simp)
      have notNull : q ≠ null := listing.listed.notNull q (by simp)
      rw [isQ, if_neg notFirst, if_neg notNull]
      exact .inr ⟨q, by simp, rfl⟩

/-! ## The commands -/

/-- The effects of putting an entry in the foreground. -/
theorem effects_foreground (session : Session) (q : Nat) (cont : Bool) (builtin : Option Nat) :
    (session.putProcessInForeground q cont builtin).effects = session.effects ++
      (.terminal (session.store q).pid ::
        if cont then [.signal (-(session.store q).pid)] else []) := rfl

/-- What `cmd_fg` does to the entry picked is told from doing nothing, and from acting on a job, by
the group it puts in the foreground. -/
theorem FgActsOnJob.picked (acts : FgActsOnJob session launched args p)
    (listing : Listing session.store session.firstProcess launched (entries ++ [p]))
    (picked : selectJob session.store session.firstProcess args = some (some q)) :
    0 < (session.store q).pid := by
  have goes : session.cmdFg args p =
      some (session.putProcessInForeground q (session.store q).stopped (some p)) := by
    rw [Session.cmdFg, picked]
    rfl
  have apart : p ≠ session.firstProcess := listing.entry_apart (by simp)
  rcases acts with nothing | ⟨job, isLaunched, onJob⟩
  · obtain ⟨after, completed, _, quiet⟩ := listing.complete apart
    rw [goes, completed] at nothing
    have effects := congrArg Session.effects (Option.some.inj nothing)
    rw [quiet, effects_foreground] at effects
    have length := congrArg List.length effects
    simp at length
  · obtain ⟨pid, _, positive, pidIs⟩ := isLaunched.pid
    rw [goes] at onJob
    have effects := congrArg Session.effects (Option.some.inj onJob)
    rw [effects_foreground, effects_foreground] at effects
    simp only [List.append_cancel_left_eq, List.cons.injEq, Effect.terminal.injEq] at effects
    rw [effects.1, pidIs]
    exact Int.natCast_pos.mpr positive

/-- What `cmd_bg` does to the entry picked is told from the others by the group it signals. -/
theorem BgActsOnJob.picked (acts : BgActsOnJob session launched args p)
    (listing : Listing session.store session.firstProcess launched (entries ++ [p]))
    (picked : selectJob session.store session.firstProcess args = some (some q)) :
    0 < (session.store q).pid := by
  have apart : p ≠ session.firstProcess := listing.entry_apart (by simp)
  have goes : session.cmdBg args p = (session.putProcessInBackground q true).complete p := by
    rw [Session.cmdBg, picked]
    rfl
  have signals : ∀ job, ∃ after, (session.putProcessInBackground job true).complete p = some after ∧
      after.effects = session.effects ++ [.signal (-(session.store job).pid)] := by
    intro job
    obtain ⟨after, completed, _, effects⟩ := @Listing.complete (session.putProcessInBackground job true)
      p launched (entries ++ [p]) (listing.background job true) apart
    exact ⟨after, completed, effects⟩
  obtain ⟨after, completed, signalled⟩ := signals q
  rw [completed] at goes
  rcases acts with nothing | ⟨job, isLaunched, onJob⟩
  · obtain ⟨after', completed', _, quiet⟩ := listing.complete apart
    rw [goes, completed', Option.some.injEq] at nothing
    have length := congrArg List.length (signalled.symm.trans (nothing ▸ quiet))
    simp at length
  · obtain ⟨pid, _, positive, pidIs⟩ := isLaunched.pid
    obtain ⟨after', completed', signalled'⟩ := signals job
    rw [goes, completed', Option.some.injEq] at onJob
    have same := signalled.symm.trans (onJob ▸ signalled')
    simp only [List.append_cancel_left_eq, List.cons.injEq, Effect.signal.injEq, neg_inj, and_true] at same
    rw [same, pidIs]
    exact Int.natCast_pos.mpr positive

/-- An argument that picks neither of the two artificial entries reads as neither 0 nor −1. -/
theorem Listing.namesNeither (listing : Listing store firstProcess launched (entries ++ [p]))
    (own : (store p).pid = 0)
    (jobs : ∀ q ∈ entries, ∃ pid ∈ launched, 0 < pid ∧ (store q).pid = (pid : Int))
    (positive : ∀ q, selectJob store firstProcess args = some (some q) → 0 < (store q).pid) :
    NamesNeither args := by
  cases args with
  | nil => exact fun arg isArg => nomatch isArg
  | cons arg rest =>
    rintro _ ⟨⟩
    constructor
    · intro zero
      have bound := positive p (listing.selectJob_own own jobs zero)
      omega
    · intro minusOne
      have bound := positive firstProcess (listing.selectJob_sentinel minusOne)
      have sentinel := listing.sentinel.1
      omega

/-- The list of a shell that is about to run a command. -/
theorem dispatch_listing {start : Session} (initial : Initial start)
    (reached : Reachable Chronicle.Step ⟨start, []⟩ ⟨session, launched⟩)
    (control : session.control = .dispatch p) :
    ∃ entries, Listing session.store session.firstProcess launched (entries ++ [p]) ∧
      (session.store p).pid = 0 := by
  have holds := reached.invariant initial.listHolds fun _ _ _ holds taken => holds.step taken
  unfold ListHolds at holds
  simp only [control] at holds
  exact holds

/-- In every shell that is about to run the entry just added, `cmd_fg` and `cmd_bg` do nothing or act
on a job launched exactly when there is no argument or it reads as neither 0 nor −1. -/
theorem actOnJobs_iff {start : Session} (initial : Initial start)
    (reached : Reachable Chronicle.Step ⟨start, []⟩ ⟨session, launched⟩)
    (control : session.control = .dispatch p) (found : session.dispatched = some p) :
    (FgActsOnJob session launched args p ↔ NamesNeither args) ∧
      (BgActsOnJob session launched args p ↔ NamesNeither args) := by
  obtain ⟨entries, listing, own⟩ := dispatch_listing initial reached control
  have jobs := listing.jobs_launched found
  have isLaunched : ∀ q ∈ entries, IsLaunched session launched p q := by
    intro q member
    refine ⟨?_, ?_, jobs q member⟩
    · exact listing.entry_apart (List.mem_append_left _ member)
    · rintro rfl
      have once := (List.nodup_cons.mp listing.listed.nodup).2
      exact (List.nodup_append.mp once).2.2 q member q (List.mem_singleton.mpr rfl) rfl
  refine ⟨⟨fun acts => ?_, fun neither => ?_⟩, ⟨fun acts => ?_, fun neither => ?_⟩⟩
  · exact listing.namesNeither own jobs fun q picked => acts.picked listing picked
  · rcases listing.selectJob_job own neither with nothing | ⟨q, member, picked⟩
    · exact .inl (by rw [Session.cmdFg, nothing]; rfl)
    · exact .inr ⟨q, isLaunched q member, by rw [Session.cmdFg, picked]; rfl⟩
  · exact listing.namesNeither own jobs fun q picked => acts.picked listing picked
  · rcases listing.selectJob_job own neither with nothing | ⟨q, member, picked⟩
    · exact .inl (by rw [Session.cmdBg, nothing]; rfl)
    · exact .inr ⟨q, isLaunched q member, by rw [Session.cmdBg, picked]; rfl⟩

/-- One step of a session, with what it launches. -/
def Chronicle.perform (chronicle : Chronicle) (event : Event) : Option Chronicle :=
  (chronicle.session.step event).map fun session => ⟨session, event.launches chronicle.launched⟩

/-- Performing an event takes a step. -/
theorem Chronicle.perform_step (source : Chronicle) (event : Event) (target : Chronicle)
    (performed : source.perform event = some target) : source.Step event target := by
  obtain ⟨session, stepped, rfl⟩ := Option.map_eq_some_iff.mp performed
  exact ⟨stepped, rfl⟩

/-- A first line "bg 0". -/
def groupRun : List (Event × Chronicle) :=
  trace Chronicle.perform ⟨freshSession, []⟩ [.line binEnvironment (ascii "bg 0\n") 8192]

/-- The command continues the process group of the shell. -/
theorem bg_zero : ¬ ∀ (start session : Session) (launched : List Nat) (own : Nat)
    (args : List (List UInt8)), Initial start →
    Reachable Chronicle.Step ⟨start, []⟩ ⟨session, launched⟩ → session.control = .dispatch own →
    session.dispatched = some own →
    FgActsOnJob session launched args own ∧ BgActsOnJob session launched args own := by
  intro claim
  have steps : IsRun Chronicle.Step ⟨freshSession, []⟩ groupRun :=
    isRun_trace Chronicle.perform_step _ _
  have control : (final ⟨freshSession, []⟩ groupRun).session.control = .dispatch 8192 := by
    decide +kernel
  have found : (final ⟨freshSession, []⟩ groupRun).session.dispatched = some 8192 := by decide +kernel
  obtain ⟨entries, listing, own⟩ := dispatch_listing freshSession_initial steps.reachable control
  have jobs := listing.jobs_launched found
  have acts := claim _ _ _ 8192 [ascii "0"] freshSession_initial steps.reachable control found
  have positive := acts.2.picked listing (listing.selectJob_own own jobs (by decide +kernel))
  omega

/-- A job in the background, and a line "fg 7" that names it. -/
def namedRun : List (Event × Chronicle) :=
  trace Chronicle.perform ⟨freshSession, []⟩ [.line binEnvironment (ascii "/bin/ls &\n") 8192,
    .fork (some 7), .line binEnvironment (ascii "fg 7\n") 12288]

/-- Both commands act on that job. -/
theorem actOnJobs_namedRun :
    (final ⟨freshSession, []⟩ namedRun).launched = [7] ∧
    FgActsOnJob (final ⟨freshSession, []⟩ namedRun).session [7] [ascii "7"] 12288 ∧
      BgActsOnJob (final ⟨freshSession, []⟩ namedRun).session [7] [ascii "7"] 12288 := by
  have steps : IsRun Chronicle.Step ⟨freshSession, []⟩ namedRun :=
    isRun_trace Chronicle.perform_step _ _
  have launched : (final ⟨freshSession, []⟩ namedRun).launched = [7] := by decide +kernel
  have reached : Reachable Chronicle.Step ⟨freshSession, []⟩
      ⟨(final ⟨freshSession, []⟩ namedRun).session, [7]⟩ := launched ▸ steps.reachable
  have neither : NamesNeither [ascii "7"] := by
    rintro _ ⟨⟩
    decide +kernel
  have iffs := @actOnJobs_iff _ 12288 _ [ascii "7"] _ freshSession_initial reached (by decide +kernel)
    (by decide +kernel)
  exact ⟨launched, iffs.1.mpr neither, iffs.2.mpr neither⟩

end OsAssignments.Shell
