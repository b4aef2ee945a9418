import OsAssignments.Shell.JobList
import OsAssignments.Shell.Session

/-!
# What purging touches

`purge_proc_list` frees entries while it walks over them. The list it leaves is the right one, and
it frees what it takes out once; but it steps on from a freed entry by reading the link in it. Here
its loop is run with a log of what it does to which entry.
-/

namespace OsAssignments.Shell

open LinkedList Text

/-- What the loop does to an entry. -/
inductive Access
  /-- A field is read. -/
  | read (p : Nat)
  /-- A field is assigned. -/
  | write (p : Nat)
  /-- `destroy_process`. -/
  | destroy (p : Nat)
  deriving DecidableEq, Repr

namespace Store

/-- The accesses of one turn of the loop: `completed` is read, and of a completed entry the links,
before its neighbours are linked and it is destroyed. Then `p = p->next`. -/
def turn (store : Store) (p : Nat) : List Access :=
  if (store p).completed then
    [.read p, .read p, .write (store.prev p)] ++
      (if store.next p = null then [] else [.write (store.next p)]) ++ [.read p, .destroy p, .read p]
  else [.read p, .read p]

/-- The loop of `purge_proc_list` with its accesses. -/
def purgeLogged : Nat → Store → Nat → Option (Store × List Access)
  | 0, _, _ => none
  | fuel + 1, store, p =>
    if p = null then some (store, [])
    else if (store p).completed then
      (store.unlink p).bind fun unlinked =>
        (purgeLogged fuel unlinked (unlinked.next p)).map fun (left, log) => (left, store.turn p ++ log)
    else (purgeLogged fuel store (store.next p)).map fun (left, log) => (left, store.turn p ++ log)

/-- The log does not change what the loop does. -/
theorem purgeLogged_fst (fuel : Nat) (store : Store) (p : Nat) :
    (store.purgeLogged fuel p).map Prod.fst = store.purgeFrom fuel p := by
  induction fuel generalizing store p with
  | zero => rfl
  | succ fuel ih =>
    rw [purgeLogged, purgeFrom]
    by_cases atEnd : p = null
    · rw [if_pos atEnd, if_pos atEnd]
      rfl
    · rw [if_neg atEnd, if_neg atEnd]
      cases (store p).completed with
      | true =>
        rw [if_pos rfl, if_pos rfl]
        cases store.unlink p with
        | none => rfl
        | some unlinked =>
          rw [Option.bind_some, Option.bind_some, Option.map_map, ← ih]
          rfl
      | false =>
        rw [if_neg Bool.false_ne_true, if_neg Bool.false_ne_true, Option.map_map, ← ih]
        rfl

end Store

/-- No field of an entry is read after the entry was destroyed. -/
def ReadsNoFreed (log : List Access) : Prop :=
  ∀ (p : Nat) (before behind : List Access), log = before ++ .destroy p :: behind → .read p ∉ behind

/-- `purge_proc_list` leaves the list of the entries that are not completed, in their order, destroys
each of the others once and nothing else, and reads no entry it has destroyed. -/
structure PurgesSafely (store : Store) (nodes : List Nat) (left : Store) (log : List Access) : Prop where
  /-- The entries left are linked both ways. -/
  listed : Listed left (nodes.filter fun p => !(store p).completed)
  /-- The completed ones are destroyed once. -/
  once : ∀ p, log.count (.destroy p) = if p ∈ nodes ∧ (store p).completed then 1 else 0
  /-- No destroyed entry is read. -/
  reads : ReadsNoFreed log

variable {store left : Store} {nodes rest kept : List Nat} {log : List Access} {p firstProcess fuel : Nat}

/-! ## The log -/

/-- One turn destroys the entry when it is completed. -/
theorem count_turn (q : Nat) :
    (store.turn p).count (.destroy q) = if q = p ∧ (store p).completed then 1 else 0 := by
  unfold Store.turn
  cases (store p).completed with
  | false => simp
  | true =>
    by_cases alone : store.next p = null
    · by_cases same : q = p
      · simp [alone, same]
      · simp [alone, same, Ne.symm same]
    · by_cases same : q = p
      · simp [alone, same]
      · simp [alone, same, Ne.symm same]

/-- A turn that destroys its entry goes on to read it. -/
theorem turn_completed (completed : (store p).completed = true) :
    ∃ before, store.turn p = before ++ [.destroy p, .read p] := by
  refine ⟨[.read p, .read p, .write (store.prev p)] ++
    (if store.next p = null then [] else [.write (store.next p)]) ++ [.read p], ?_⟩
  rw [Store.turn, if_pos completed]
  simp

/-- In a log each completed entry is destroyed once, and read right after it. -/
structure Destroys (store : Store) (nodes : List Nat) (log : List Access) : Prop where
  /-- The completed entries are destroyed once. -/
  once : ∀ q, log.count (.destroy q) = if q ∈ nodes ∧ (store q).completed then 1 else 0
  /-- They are read right after it. -/
  reads : ∀ q ∈ nodes, (store q).completed →
    ∃ before behind, log = before ++ .destroy q :: .read q :: behind

/-- A turn in front destroys and reads its entry, when it is completed. -/
theorem Destroys.turn (destroys : Destroys store rest log) (fresh : p ∉ rest) :
    Destroys store (p :: rest) (store.turn p ++ log) := by
  constructor
  · intro q
    rw [List.count_append, count_turn, destroys.once]
    by_cases same : q = p
    · subst same
      simp [fresh]
    · simp [same]
  · intro q member completed
    rcases List.mem_cons.mp member with rfl | later
    · obtain ⟨before, turnIs⟩ := turn_completed completed
      exact ⟨before, log, by rw [turnIs]; simp⟩
    · obtain ⟨before, behind, logIs⟩ := destroys.reads q later completed
      exact ⟨store.turn p ++ before, behind, by rw [logIs]; simp⟩

/-- The entries of a log may be completed in another store. -/
theorem Destroys.congr {store' : Store} (destroys : Destroys store' nodes log)
    (same : ∀ q, (store' q).completed = (store q).completed) : Destroys store nodes log := by
  obtain ⟨once, reads⟩ := destroys
  simp only [same] at once reads
  exact ⟨once, reads⟩

/-- The loop from some entry on destroys the completed ones from there once. -/
theorem Listed.purgeLogged (listed : Listed store (kept ++ rest)) (nonempty : kept ≠ [])
    (enough : rest.length < fuel) :
    ∃ left log, store.purgeLogged fuel (first rest null) = some (left, log) ∧
      Destroys store rest log := by
  induction rest generalizing fuel store kept with
  | nil =>
    obtain ⟨fuel, rfl⟩ := Nat.exists_eq_succ_of_ne_zero (Nat.ne_of_gt enough)
    exact ⟨store, [], rfl, by simp, by simp⟩
  | cons p rest ih =>
    obtain ⟨fuel, rfl⟩ := Nat.exists_eq_succ_of_ne_zero (Nat.ne_of_gt (Nat.zero_lt_of_lt enough))
    have bound : rest.length < fuel := by simpa using enough
    have proper : p ≠ null := listed.notNull p (by simp)
    have forth : store.next p = first rest null := (chain_append.mp listed.chain).2.2.1
    have fresh : p ∉ rest := (List.nodup_cons.mp (List.nodup_append.mp listed.nodup).2.1).1
    rw [first_cons, Store.purgeLogged, if_neg proper]
    cases completed : (store p).completed with
    | true =>
      obtain ⟨unlinked, taken, listed', forth', same⟩ := listed.unlink nonempty
      obtain ⟨left, log, purged, destroys⟩ := ih listed' nonempty bound
      have here := destroys.congr fun other => (Process.content_eq (same other)).2.2
      refine ⟨left, store.turn p ++ log, ?_, here.turn fresh⟩
      rw [if_pos rfl, taken, Option.bind_some, forth', purged]
      rfl
    | false =>
      have split : kept ++ p :: rest = kept ++ [p] ++ rest := by simp
      obtain ⟨left, log, purged, destroys⟩ := ih (split ▸ listed) (by simp) bound
      refine ⟨left, store.turn p ++ log, ?_, destroys.turn fresh⟩
      rw [if_neg Bool.false_ne_true, forth, purged]
      rfl

/-- When the first entry is not completed, `purge_proc_list` leaves the right list, destroys each
completed entry once, and reads each of them right after it destroyed it. -/
theorem Listed.purges (listed : Listed store (firstProcess :: rest))
    (first : (store firstProcess).completed = false) :
    ∃ left log, store.purgeLogged loopBound firstProcess = some (left, log) ∧
      Listed left ((firstProcess :: rest).filter fun p => !(store p).completed) ∧
      Destroys store (firstProcess :: rest) log := by
  obtain ⟨fuel, room⟩ : ∃ fuel, loopBound = fuel + 1 := ⟨2 ^ 64 - 1, rfl⟩
  have bound := listed.enough
  rw [List.length_cons, room] at bound
  have fresh : firstProcess ∉ rest := (List.nodup_cons.mp listed.nodup).1
  have forth : store.next firstProcess = LinkedList.first rest null := listed.chain.2.1
  obtain ⟨left, log, logged, destroys⟩ := @Listed.purgeLogged store rest [firstProcess] fuel listed
    (List.cons_ne_nil firstProcess []) (by omega)
  have whole : store.purgeLogged loopBound firstProcess = some (left, store.turn firstProcess ++ log) := by
    rw [room, Store.purgeLogged, if_neg (listed.notNull firstProcess List.mem_cons_self), first,
      if_neg Bool.false_ne_true, forth, logged]
    rfl
  obtain ⟨left', purged, listed', _⟩ := listed.purgeProcList first
  rw [Store.purgeProcList, ← Store.purgeLogged_fst, whole] at purged
  obtain rfl : left = left' := Option.some.inj purged
  refine ⟨left, _, whole, ?_, destroys.turn fresh⟩
  rw [List.filter_cons_of_pos (by simp [first])]
  exact listed'

/-- For a list whose first entry is not completed, `purge_proc_list` is safe exactly when no entry is
completed. -/
theorem purgesSafely_iff (listed : Listed store (firstProcess :: rest))
    (first : (store firstProcess).completed = false) :
    (∃ left log, store.purgeLogged loopBound firstProcess = some (left, log) ∧
      PurgesSafely store (firstProcess :: rest) left log) ↔
      ∀ p ∈ rest, (store p).completed = false := by
  obtain ⟨left, log, logged, listed', destroys⟩ := listed.purges first
  constructor
  · rintro ⟨left', log', logged', safely⟩ p member
    obtain ⟨rfl, rfl⟩ : left = left' ∧ log = log' := by simpa [logged] using logged'
    by_contra completed
    obtain ⟨before, behind, logIs⟩ :=
      destroys.reads p (List.mem_cons_of_mem _ member) (by simpa using completed)
    exact safely.reads p before _ logIs List.mem_cons_self
  · intro none
    refine ⟨left, log, logged, listed', destroys.once, fun p before behind logIs => ?_⟩
    have zero := destroys.once p
    rw [if_neg, List.count_eq_zero] at zero
    · exact absurd (logIs ▸ List.mem_append_right before List.mem_cons_self) zero
    · rintro ⟨member, completed⟩
      rcases List.mem_cons.mp member with rfl | later
      · exact absurd (completed.symm.trans first) (by decide)
      · exact absurd (completed.symm.trans (none p later)) (by decide)

/-- A list of the sentinel and three jobs: one in the background, one that may be completed, and one that
is stopped. -/
def threeJobs (completed : Bool) : Store := fun p =>
  if p = 4096 then { sentinel with next := 8192 }
  else if p = 8192 then
    { sentinel with argv := [ascii "/bin/ls"], pid := 7, background := true, next := 12288, prev := 4096 }
  else if p = 12288 then
    { sentinel with argv := [ascii "/bin/cat"], pid := 8, completed, next := 16384, prev := 8192 }
  else { sentinel with argv := [ascii "/bin/vi"], pid := 9, stopped := true, prev := 12288 }

/-- It is linked both ways. -/
theorem threeJobs_listed (completed : Bool) : Listed (threeJobs completed) [4096, 8192, 12288, 16384] :=
  ⟨⟨rfl, rfl, rfl, rfl, rfl, rfl, rfl, rfl, trivial⟩, by decide, by decide⟩

/-- A completed job is read once it has been destroyed. -/
theorem purge_reads_freed : ¬ ∀ (store : Store) (firstProcess : Nat) (rest : List Nat),
    Listed store (firstProcess :: rest) → (store firstProcess).completed = false →
    ∃ left log, store.purgeLogged loopBound firstProcess = some (left, log) ∧
      PurgesSafely store (firstProcess :: rest) left log := by
  intro claim
  obtain ⟨left, log, logged, safely⟩ :=
    claim (threeJobs true) 4096 [8192, 12288, 16384] (threeJobs_listed true) rfl
  obtain ⟨left', log', logged', _, destroys⟩ := (threeJobs_listed true).purges rfl
  obtain ⟨rfl, rfl⟩ : left = left' ∧ log = log' := by simpa [logged] using logged'
  obtain ⟨before, behind, logIs⟩ := destroys.reads 12288 (by decide) rfl
  exact safely.reads 12288 before _ logIs List.mem_cons_self

/-- Three jobs that are not completed are left alone. -/
theorem purgesSafely_threeJobs : ∃ left log,
    (threeJobs false).purgeLogged loopBound 4096 = some (left, log) ∧
      PurgesSafely (threeJobs false) [4096, 8192, 12288, 16384] left log :=
  (purgesSafely_iff (threeJobs_listed false) rfl).mpr (by decide)

end OsAssignments.Shell
