import Mathlib.Data.Finset.Card
import OsAssignments.Shell.ProcessList

/-!
# The shape of the process list

What the loops and the changes of the process list do when it is a proper list: entries at
distinct addresses, linked both ways from `first_process` to the null pointer. `add_process` puts
its process behind the last one, `purge_proc_list` takes out exactly the completed ones, and
nothing but links changes in either.
-/

namespace OsAssignments.Shell

open LinkedList

/-- The list is made of processes at the given addresses. -/
structure Listed (store : Store) (nodes : List Nat) : Prop where
  /-- They are linked both ways. -/
  chain : Chain store.next store.prev null nodes null
  /-- No two are one. -/
  nodup : nodes.Nodup
  /-- Each lies at an address. -/
  proper : ∀ p ∈ nodes, p ≠ null ∧ p < 2 ^ 64

/-- A process without its place in the list. -/
def Process.content (process : Process) : Process := { process with next := null, prev := null }

variable {store store' : Store} {nodes rest kept : List Nat} {p q value other firstProcess fuel : Nat}
  {change : Process → Process} {test : Process → Bool} {process process' : Process}

/-- Processes that differ in their place at most agree in the rest. -/
theorem Process.content_eq (same : process.content = process'.content) :
    process.argv = process'.argv ∧ process.pid = process'.pid ∧
      process.completed = process'.completed := by
  have argv := congrArg Process.argv same
  have pid := congrArg Process.pid same
  have completed := congrArg Process.completed same
  exact ⟨argv, pid, completed⟩

namespace Store

@[simp]
theorem modify_same : store.modify p change p = change (store p) := if_pos rfl

@[simp]
theorem modify_other (apart : other ≠ p) : store.modify p change other = store other := if_neg apart

/-- A change that keeps what is read of a process keeps it in the whole store. -/
theorem modify_keeps {α : Type} (read : Process → α)
    (keeps : ∀ process, read (change process) = read process) (store : Store) (p other : Nat) :
    read (store.modify p change other) = read (store other) := by
  by_cases same : other = p
  · rw [same, modify_same, keeps]
  · rw [modify_other same]

@[simp]
theorem next_setNext_same : (store.setNext p value).next p = value := by simp [next, setNext]

@[simp]
theorem next_setNext_other (apart : other ≠ p) :
    (store.setNext p value).next other = store.next other := by simp [next, setNext, apart]

@[simp]
theorem prev_setNext : (store.setNext p value).prev other = store.prev other := by
  apply modify_keeps Process.prev
  intro process
  rfl

@[simp]
theorem next_setPrev : (store.setPrev p value).next other = store.next other := by
  apply modify_keeps Process.next
  intro process
  rfl

@[simp]
theorem prev_setPrev_same : (store.setPrev p value).prev p = value := by simp [prev, setPrev]

@[simp]
theorem prev_setPrev_other (apart : other ≠ p) :
    (store.setPrev p value).prev other = store.prev other := by simp [prev, setPrev, apart]

@[simp]
theorem content_setNext : (store.setNext p value other).content = (store other).content := by
  apply modify_keeps Process.content
  intro process
  rfl

@[simp]
theorem content_setPrev : (store.setPrev p value other).content = (store other).content := by
  apply modify_keeps Process.content
  intro process
  rfl

end Store

/-! ## Loops -/

/-- A list of entries at distinct addresses is shorter than the bound of the loops. -/
theorem Listed.enough (listed : Listed store nodes) : nodes.length < loopBound := by
  have inside : nodes.toFinset ⊆ (Finset.range (2 ^ 64)).erase 0 := by
    intro p member
    obtain ⟨notNull, bounded⟩ := listed.proper p (List.mem_toFinset.mp member)
    exact Finset.mem_erase.mpr ⟨notNull, Finset.mem_range.mpr bounded⟩
  have bound := Finset.card_le_card inside
  rw [List.toFinset_card_of_nodup listed.nodup,
    Finset.card_erase_of_mem (Finset.mem_range.mpr (Nat.two_pow_pos 64)), Finset.card_range] at bound
  unfold loopBound
  omega

/-- The addresses are no null pointers. -/
theorem Listed.notNull (listed : Listed store nodes) : ∀ p ∈ nodes, p ≠ null := fun p member =>
  (listed.proper p member).1

/-- A walk from the first entry meets all of them. -/
theorem Listed.walked (listed : Listed store (firstProcess :: rest)) :
    walk null store.next loopBound firstProcess = some (firstProcess :: rest) :=
  walk_chain listed.chain listed.notNull listed.enough

/-- The list has no other entries. -/
theorem Listed.unique {rest' : List Nat} (listed : Listed store (firstProcess :: rest))
    (listed' : Listed store (firstProcess :: rest')) : rest = rest' :=
  (List.cons_eq_cons.mp (listed.chain.nodes_unique listed'.chain listed.notNull listed'.notNull
    rfl)).2

/-- Searching the list is searching its entries. -/
theorem Listed.find (listed : Listed store (firstProcess :: rest)) :
    store.find firstProcess test = some ((firstProcess :: rest).find? fun p => test (store p)) :=
  search_chain listed.chain listed.notNull listed.enough

/-- A search that ends with the last entry finds it when no other entry passes. -/
theorem Listed.findLast (listed : Listed store (kept ++ [p])) (begins : first (kept ++ [p]) null = q)
    (fails : ∀ other ∈ kept, test (store other) = false) : store.findLast q test = some p := by
  have enough : kept.length < loopBound := by
    have bound := listed.enough
    rw [List.length_append] at bound
    omega
  rw [← begins]
  exact searchLast_chain listed.chain listed.notNull enough fails

/-- It stops before at the first entry that passes. -/
theorem Listed.findLast_found (listed : Listed store (kept ++ p :: rest))
    (begins : first (kept ++ p :: rest) null = q) (fails : ∀ other ∈ kept, test (store other) = false)
    (passes : test (store p) = true) : store.findLast q test = some p := by
  have enough : kept.length < loopBound := by
    have bound := listed.enough
    rw [List.length_append] at bound
    omega
  rw [← begins]
  exact searchLast_found listed.chain listed.notNull enough fails passes

/-- The list is the same in a store with the same links. -/
theorem Listed.congr (listed : Listed store nodes)
    (links : ∀ p, store'.next p = store.next p ∧ store'.prev p = store.prev p) :
    Listed store' nodes :=
  ⟨listed.chain.congr (fun p _ => (links p).1) (fun p _ => (links p).2), listed.nodup, listed.proper⟩

/-! ## Adding -/

/-- `add_process` puts a process that is not linked to another one behind the last. -/
theorem Listed.addProcess (listed : Listed store (firstProcess :: rest))
    (fresh : p ∉ firstProcess :: rest) (proper : p ≠ null ∧ p < 2 ^ 64)
    (loose : store.next p = null) :
    ∃ store', store.addProcess firstProcess p = some store' ∧
      Listed store' (firstProcess :: (rest ++ [p])) ∧
      ∀ other, (store' other).content = (store other).content := by
  obtain ⟨kept, q, split⟩ := (List.eq_nil_or_concat' _).resolve_left (List.cons_ne_nil firstProcess rest)
  have apart : p ≠ q := by
    rintro rfl
    rw [split] at fresh
    exact fresh (by simp)
  rw [split] at listed fresh
  have last : store.findLast firstProcess (fun _ => false) = some q :=
    listed.findLast (by rw [← split]; rfl) fun _ _ => rfl
  rw [Store.addProcess, last, Option.map_some]
  refine ⟨_, rfl, ⟨?_, ?_, ?_⟩, fun other => by simp⟩
  · rw [← List.cons_append, split]
    apply chain_append.mpr
    constructor
    · apply listed.chain.relinkNext
      · intro other member
        have notLast : other ≠ q := by
          rintro rfl
          exact (List.nodup_append.mp listed.nodup).2.2 other member other (by simp) rfl
        simp [notLast]
      · simp
      · intro other member
        have notNew : other ≠ p := fun same => fresh (same ▸ member)
        simp [notNew]
    · refine ⟨by simp, ?_, trivial⟩
      simpa [apart] using loose
  · rw [← List.cons_append, split, List.nodup_append]
    refine ⟨listed.nodup, List.nodup_singleton p, ?_⟩
    intro other member new isNew same
    rw [List.mem_singleton.mp isNew] at same
    exact fresh (same ▸ member)
  · rw [← List.cons_append, split]
    intro other member
    cases List.mem_append.mp member with
    | inl old => exact listed.proper other old
    | inr new =>
      rw [List.mem_singleton.mp new]
      exact proper

/-! ## Purging -/

/-- Taking out an entry that is not the first one links its neighbours. -/
theorem Listed.unlink (listed : Listed store (kept ++ p :: rest)) (nonempty : kept ≠ []) :
    ∃ store', store.unlink p = some store' ∧ Listed store' (kept ++ rest) ∧
      store'.next p = first rest null ∧
      ∀ other, (store' other).content = (store other).content := by
  obtain ⟨front, q, rfl⟩ := (List.eq_nil_or_concat' kept).resolve_left nonempty
  obtain ⟨chain, back, forth, tail⟩ := chain_append.mp listed.chain
  have prevIs : store.prev p = q := by simpa using back
  have qProper : q ≠ null := listed.notNull q (by simp)
  have nodup := listed.nodup
  rw [List.nodup_append] at nodup
  obtain ⟨nodupFront, nodupBack, apart⟩ := nodup
  have notLast : ∀ other ∈ front, other ≠ q := by
    rintro other member rfl
    exact (List.nodup_append.mp nodupFront).2.2 other member other (by simp) rfl
  have notFront : ∀ other ∈ rest, other ∉ front ++ [q] := fun other member inside =>
    apart other inside other (List.mem_cons_of_mem p member) rfl
  have notP : p ≠ q := fun same => apart q (by simp) p List.mem_cons_self same.symm
  have shape : (front ++ [q] ++ rest).Nodup ∧
      ∀ other ∈ front ++ [q] ++ rest, other ≠ null ∧ other < 2 ^ 64 := by
    constructor
    · exact listed.nodup.sublist (List.Sublist.append_left (List.sublist_cons_self p rest) _)
    · intro other member
      apply listed.proper other
      rcases List.mem_append.mp member with before | behind
      · exact List.mem_append_left _ before
      · exact List.mem_append_right _ (List.mem_cons_of_mem p behind)
  rw [Store.unlink, prevIs, forth]
  simp only [if_neg qProper]
  cases rest with
  | nil =>
    rw [first_nil, if_pos rfl]
    refine ⟨_, rfl, ⟨?_, shape.1, shape.2⟩, ?_, fun other => by simp⟩
    · rw [List.append_nil]
      apply chain.relinkNext
      · intro other member
        simp [notLast other member]
      · simp
      · simp
    · rw [Store.next_setNext_other notP]
      exact forth
  | cons r rest =>
    have rProper : r ≠ null := listed.notNull r (by simp)
    have rNotFront := notFront r List.mem_cons_self
    rw [first_cons, if_neg rProper]
    refine ⟨_, rfl, ⟨?_, shape.1, shape.2⟩, ?_, fun other => by simp⟩
    · apply chain_append.mpr
      constructor
      · apply chain.relinkNext
        · intro other member
          simp [notLast other member]
        · simp
        · intro other member
          have notR : other ≠ r := fun same => rNotFront (same ▸ member)
          simp [notR]
      · apply Chain.relinkPrev tail
        · simp
        · intro other member
          have notR : other ≠ r := by
            rintro rfl
            exact (List.nodup_cons.mp (List.nodup_cons.mp nodupBack).2).1 member
          simp [notR]
        · intro other member
          have notQ : other ≠ q := fun same => notFront other member (same ▸ by simp)
          simp [notQ]
    · rw [Store.next_setPrev, Store.next_setNext_other notP]
      exact forth

/-- Purging from some entry on takes out the completed ones from there. -/
theorem Listed.purgeFrom (listed : Listed store (kept ++ rest)) (nonempty : kept ≠ [])
    (enough : rest.length < fuel) :
    ∃ store', store.purgeFrom fuel (first rest null) = some store' ∧
      Listed store' (kept ++ rest.filter fun p => !(store p).completed) ∧
      ∀ other, (store' other).content = (store other).content := by
  induction rest generalizing fuel store kept with
  | nil =>
    obtain ⟨fuel, rfl⟩ := Nat.exists_eq_succ_of_ne_zero (Nat.ne_of_gt enough)
    exact ⟨store, rfl, listed, fun _ => rfl⟩
  | cons p rest ih =>
    obtain ⟨fuel, rfl⟩ := Nat.exists_eq_succ_of_ne_zero (Nat.ne_of_gt (Nat.zero_lt_of_lt enough))
    have bound : rest.length < fuel := by simpa using enough
    have proper : p ≠ null := listed.notNull p (by simp)
    have forth : store.next p = first rest null := (chain_append.mp listed.chain).2.2.1
    rw [first_cons, Store.purgeFrom, if_neg proper]
    cases completed : (store p).completed with
    | true =>
      obtain ⟨unlinked, taken, listed', forth', same⟩ := listed.unlink nonempty
      obtain ⟨store', purged, listed'', same'⟩ := ih listed' nonempty bound
      have completions : ∀ other, (unlinked other).completed = (store other).completed :=
        fun other => (Process.content_eq (same other)).2.2
      refine ⟨store', ?_, ?_, fun other => (same' other).trans (same other)⟩
      · rw [if_pos rfl, taken, Option.bind_some, forth', purged]
      · rw [List.filter_cons_of_neg (by simp [completed])]
        simpa only [completions] using listed''
    | false =>
      have split : kept ++ p :: rest = kept ++ [p] ++ rest := by simp
      obtain ⟨store', purged, listed', same⟩ := ih (split ▸ listed) (by simp) bound
      refine ⟨store', ?_, ?_, same⟩
      · rw [if_neg Bool.false_ne_true, forth, purged]
      · rw [List.filter_cons_of_pos (by simp [completed])]
        simpa using listed'

/-- `purge_proc_list` takes out exactly the completed entries and changes nothing but links, when
the first one is not completed. -/
theorem Listed.purgeProcList (listed : Listed store (firstProcess :: rest))
    (first : (store firstProcess).completed = false) :
    ∃ store', store.purgeProcList firstProcess = some store' ∧
      Listed store' (firstProcess :: rest.filter fun p => !(store p).completed) ∧
      ∀ other, (store' other).content = (store other).content := by
  obtain ⟨fuel, room⟩ : ∃ fuel, loopBound = fuel + 1 := ⟨2 ^ 64 - 1, rfl⟩
  have bound := listed.enough
  rw [List.length_cons, room] at bound
  have forth : store.next firstProcess = LinkedList.first rest null := listed.chain.2.1
  obtain ⟨store', purged, listed', same⟩ := @Listed.purgeFrom store rest [firstProcess] fuel listed
    (List.cons_ne_nil firstProcess []) (by omega)
  refine ⟨store', ?_, listed', same⟩
  rw [Store.purgeProcList, room, Store.purgeFrom, if_neg (listed.notNull firstProcess List.mem_cons_self),
    first, if_neg Bool.false_ne_true, forth, purged]

end OsAssignments.Shell
