import OsAssignments.MmAlloc.Freeing

/-!
# Freeing what was just allocated

A request that a free block serves marks the block used and may split it. Freeing the pointer at
once marks it free again and joins it with the rest that was split off, and with nothing else, for
the neighbours of a free block are used. So the list comes out as it was, header by header.
-/

namespace OsAssignments.MmAlloc

open ByteMemory LinkedList Transition

/-- Two processes have the same block list: the given addresses, with the same headers. -/
structure SameList (process other : Process) (nodes : List Nat) : Prop where
  /-- The list starts in the same place. -/
  head : process.blockListHead = other.blockListHead
  /-- The list of the first process. -/
  walked : process.blocks = some nodes
  /-- The list of the second. -/
  walked' : other.blocks = some nodes
  /-- Every field of every header is the same. -/
  header : ∀ b ∈ nodes, ∀ field, readField process.memory b field = readField other.memory b field
  /-- The breaks are the same. -/
  brk : process.brk = other.brk

variable {base low high n p : Nat} {block prev : Block} {blocks left right served : List Block}
  {arena : Arena base} {start session : Session}

/-! ## In the arena -/

/-- A block of a coalesced list is joined with nothing. -/
theorem joinNext_self (coalesced : Coalesced (block :: blocks)) :
    joinNext block blocks = block :: blocks := by
  cases blocks with
  | nil => rfl
  | cons next rest => exact if_neg (List.isChain_cons_cons.mp coalesced).1

/-- A block before a free one in a coalesced list is used. -/
theorem used_before (coalesced : Coalesced (left ++ prev :: block :: right))
    (free : block.free = true) : prev.free = false := by
  have apart := (List.isChain_cons_cons.mp coalesced.right_of_append).1
  simpa [Block.NotBothFree, free] using apart

/-- Freeing a block with used blocks before it joins it with what follows. -/
theorem release_behind (ordered : Ordered low (left ++ block :: right) high)
    (coalesced : Coalesced (left ++ block :: right))
    (before : ∀ front prev, left = front ++ [prev] → prev.free = false) :
    release block.payload (left ++ block :: right) =
      left ++ joinNext { block with free := true } right := by
  rcases List.eq_nil_or_concat left with rfl | ⟨front, prev, rfl⟩
  · exact release_first block right
  · rw [List.concat_eq_append] at *
    have used := before front prev rfl
    rw [List.append_assoc, List.singleton_append] at ordered coalesced ⊢
    rw [release_second ordered coalesced, joinNext_used used, List.append_assoc,
      List.singleton_append]

/-- Freeing what a request was served with leaves blocks of the shapes they had before it. -/
theorem release_serve (ordered : Ordered low blocks high) (coalesced : Coalesced blocks)
    (found : serve n blocks = some (p, served)) :
    (release p served).map Block.shape = blocks.map Block.shape := by
  have ordered' := serve_ordered ordered found
  have coalesced' := serve_coalesced coalesced found
  obtain ⟨none, _⟩ | ⟨left, block, right, rfl, _, fits, some⟩ := serve_cases n blocks
  · simp [none] at found
  · obtain ⟨rfl, rfl⟩ : block.payload = p ∧ left ++ block.carve n ++ right = served := by
      simpa [some] using found
    have free := fits.1
    have room := fits.2
    have before : ∀ front prev, left = front ++ [prev] → prev.free = false := by
      rintro front prev rfl
      rw [List.append_assoc, List.singleton_append] at coalesced
      exact used_before coalesced free
    rw [List.append_assoc] at ordered' coalesced' ⊢
    by_cases exact : block.size = n + blockSize
    · -- The block was taken whole, and is marked free again.
      have carved : block.carve n = [{ block with free := false }] := if_pos exact
      have same : ({ block with free := true } : Block) = block := by rw [← free]
      rw [carved, List.cons_append, List.nil_append] at ordered' coalesced' ⊢
      have released := release_behind ordered' coalesced' before
      have joined := joinNext_self coalesced.right_of_append
      simp only [same, joined] at released
      exact congrArg (List.map Block.shape) released
    · -- The block was split, and its two parts are joined.
      have carved : block.carve n = [⟨block.addr, false, List.replicate n 0⟩,
          ⟨block.addr + n + blockSize, true, List.replicate (block.size - n - blockSize) 0⟩] :=
        if_neg exact
      rw [carved, List.cons_append, List.cons_append, List.nil_append] at ordered' coalesced' ⊢
      have released := release_behind ordered' coalesced' before
      have sum : n + (block.size - n - blockSize) + blockSize = block.size := by omega
      have shape : ((⟨block.addr, true, List.replicate n 0⟩ : Block).merge
          ⟨block.addr + n + blockSize, true, List.replicate (block.size - n - blockSize) 0⟩).shape =
          block.shape := by
        simp only [Block.shape, Block.merge_addr, Block.merge_free, Block.merge_size, Block.size_mk,
          List.length_replicate, sum, free]
      have payload : (⟨block.addr, false, List.replicate n 0⟩ : Block).payload = block.payload := rfl
      rw [payload] at released
      simp only [joinNext, and_self, if_true] at released
      rw [released, List.map_append, List.map_append, List.map_cons, List.map_cons, shape]

/-! ## In the process -/

/-- In every reachable session, freeing the pointer that a request gets out of a free block brings
the block list back. -/
theorem free_undoes_malloc (granted : Bool) (padding : UInt32) (initial : Initial start)
    (reached : Reachable Step start session) (small : n + blockSize < 2 ^ 64)
    (served : ¬ ∃ lastBlock, session.process.findFit n = some (.absent lastBlock)) :
    ∃ p allocated freed nodes, mmMalloc granted padding session.process n = some (p, allocated) ∧
      mmFree allocated p = some (.ok freed) ∧ SameList session.process freed nodes := by
  obtain ⟨arena, tracks, _⟩ := reachable_tracks initial reached
  have rep := tracks.represents
  have some := mt (rep.absent_iff small).mpr served
  obtain ⟨allocated, returned, rep'⟩ := mmMalloc_served granted padding rep small some
  obtain ⟨⟨p, blocks⟩, found⟩ := Option.ne_none_iff_exists'.mp some
  obtain ⟨handed, blocksIs, brkIs⟩ := Arena.malloc_of_some found
  obtain ⟨new, used, payload, _, _, members⟩ := arena.malloc_used n
  have member : new ∈ (arena.malloc n).2.blocks := (members new used).mpr (.inl rfl)
  obtain ⟨freed, released, rep''⟩ := mmFree_refines rep' member used
  rw [payload] at released rep''
  have same : arena.blocks.map Block.shape =
      ((arena.malloc n).2.free (arena.malloc n).1).blocks.map Block.shape := by
    simp only [Arena.free, blocksIs, handed]
    exact (release_serve arena.ordered arena.coalesced found).symm
  obtain ⟨walked', header⟩ := rep.sameHeaders rep'' same
  refine ⟨_, allocated, freed, addrs arena.blocks, returned, released, ?_, rep.walked, walked',
    header, ?_⟩
  · have addrsSame := congrArg (List.map Prod.fst) same
    rw [List.map_map, List.map_map] at addrsSame
    rw [rep.head, rep''.head]
    exact congrArg (first · null) addrsSame
  · rw [rep.brk, rep''.brk]
    exact brkIs.symm

/-- After the sample run a request of four bytes splits the free block, and freeing it undoes the
split. -/
theorem free_undoes_malloc_sampleRun : sampleRun.length = 4 ∧
    ∃ p allocated freed nodes,
      mmMalloc false 0 (final freshSession sampleRun).process 4 = some (p, allocated) ∧
        mmFree allocated p = some (.ok freed) ∧
        SameList (final freshSession sampleRun).process freed nodes := by
  have split : (final freshSession sampleRun).process.findFit 4 = some (.split 4096) := by
    decide +kernel
  refine ⟨by decide +kernel, free_undoes_malloc false 0 freshSession_initial sampleRun_reachable
    (by decide) ?_⟩
  rintro ⟨lastBlock, absent⟩
  rw [split] at absent
  simp at absent

end OsAssignments.MmAlloc
