import OsAssignments.Library.Coalescing
import OsAssignments.MmAlloc.BlockList

/-!
# Freeing in any order

Freeing a block marks it and merges free neighbours, which makes of the blocks the normal form of
a coalescing list. So several pointers may be freed in any order: the list, the headers and the
bytes of every payload come out the same, whichever blocks were fused on the way.
-/

namespace OsAssignments.MmAlloc

open ByteMemory Coalescing LinkedList Transition

/-- `mm_free` of one pointer after another, up to the first call that does not return. -/
def mmFreeAll (process : Process) : List Nat → Option (Except Exit Process)
  | [] => some (.ok process)
  | p :: rest =>
    match mmFree process p with
    | some (.ok process) => mmFreeAll process rest
    | some (.error exit) => some (.error exit)
    | none => none

/-- Two processes have the same heap: the list of the given addresses, with the same headers and
the same bytes in every payload, free or not. -/
structure SameHeap (process other : Process) (nodes : List Nat) : Prop where
  /-- The list of the first process. -/
  walked : process.blocks = some nodes
  /-- The list of the second. -/
  walked' : other.blocks = some nodes
  /-- Every field of every header is the same. -/
  header : ∀ b ∈ nodes, ∀ field, readField process.memory b field = readField other.memory b field
  /-- Every byte of every payload is the same. -/
  payload : ∀ b ∈ nodes, process.memory.load (dataOf b) (sizeOf process.memory b) =
    other.memory.load (dataOf b) (sizeOf other.memory b)
  /-- The breaks are the same. -/
  brk : process.brk = other.brk

/-- Mark the block with a given payload free. -/
def Block.mark (p : Nat) (block : Block) : Block :=
  { block with free := block.free || decide (block.payload = p) }

variable {base low high p q : Nat} {block : Block} {blocks : List Block} {process process' : Process}
  {arena arena' : Arena base} {start session : Session} {ps qs : List Nat}

/-! ## The normal form -/

/-- Merging free blocks is lawful. -/
theorem merge_lawful : Lawful (fun block : Block => block.free = true) Block.merge :=
  ⟨fun _ _ _ _ => rfl, Block.merge_assoc⟩

/-- Joining a block to a list is pushing it. -/
theorem joinNext_eq_push (block : Block) (blocks : List Block) :
    joinNext block blocks = push (fun block : Block => block.free = true) Block.merge block blocks := by
  cases blocks <;> rfl

/-- A free block stays as it is when marked. -/
theorem Block.mark_free (free : block.free = true) : block.mark p = block := by
  rw [mark, free, Bool.true_or, ← free]

/-- A block with another payload stays as it is when marked. -/
theorem Block.mark_other (other : block.payload ≠ p) : block.mark p = block := by
  rw [mark, decide_eq_false other, Bool.or_false]

/-- Blocks may be marked in any order. -/
theorem Block.mark_comm (p q : Nat) (block : Block) :
    (block.mark q).mark p = (block.mark p).mark q := by
  unfold mark
  exact congrArg (fun free => { block with free := free }) (Bool.or_right_comm _ _ _)

/-- Freeing a block of a coalesced list is marking it and coalescing the list. -/
theorem release_eq_coalesce (ordered : Ordered low blocks high) (coalesced : Coalesced blocks) :
    release p blocks =
      coalesce (fun block : Block => block.free = true) Block.merge (blocks.map (Block.mark p)) := by
  induction blocks generalizing low with
  | nil => rfl
  | cons block rest ih =>
    have tail : Coalesced rest := coalesced.tail
    rw [release, List.map_cons, coalesce, List.foldr_cons, ← coalesce, ← ih ordered.2 tail,
      ← joinNext_eq_push]
    by_cases here : block.payload = p
    · -- No later block has the payload, so the rest is coalesced as it is.
      have others : ∀ other ∈ rest, other.mark p = other := by
        intro other member
        apply Block.mark_other
        have above := (ordered.2.mem member).1
        unfold Block.finish blockSize at above
        unfold Block.payload at here ⊢
        omega
      have kept : release p rest = rest := by
        rw [ih ordered.2 tail, List.map_congr_left others, List.map_id']
        exact coalesce_of_isChain tail
      have marked : block.mark p = { block with free := true } := by
        rw [Block.mark, decide_eq_true here, Bool.or_true]
      rw [if_pos here, kept, marked]
    · rw [if_neg here, Block.mark_other here]

/-- The blocks left after freeing several pointers do not depend on the order. -/
theorem foldl_free_perm (perm : ps.Perm qs) :
    (ps.foldl Arena.free arena).blocks = (qs.foldl Arena.free arena).blocks := by
  have folded : ∀ order : List Nat, ∀ arena : Arena base, (order.foldl Arena.free arena).blocks =
      order.foldl (fun blocks p => coalesce (fun block : Block => block.free = true) Block.merge
        (blocks.map (Block.mark p))) arena.blocks := by
    intro order
    induction order with
    | nil => exact fun _ => rfl
    | cons p rest ih =>
      intro arena
      have freed : (arena.free p).blocks = coalesce (fun block : Block => block.free = true)
          Block.merge (arena.blocks.map (Block.mark p)) :=
        release_eq_coalesce arena.ordered arena.coalesced
      rw [List.foldl_cons, ih, freed, List.foldl_cons]
  rw [folded ps arena, folded qs arena]
  exact foldl_coalesce_perm merge_lawful (fun _ _ => Block.mark_free) Block.mark_comm perm
    arena.blocks

/-- Freeing moves no break. -/
theorem foldl_free_brk (order : List Nat) (arena : Arena base) :
    (order.foldl Arena.free arena).brk = arena.brk := by
  induction order generalizing arena with
  | nil => rfl
  | cons p rest ih => exact ih (arena.free p)

/-! ## The calls -/

/-- Distinct live pointers are all freed, and the arena with them. -/
theorem Tracks.freeAll (tracks : Tracks session arena) (distinct : ps.Nodup)
    (areLive : ∀ p ∈ ps, p ∈ session.live) :
    ∃ process, mmFreeAll session.process ps = some (.ok process) ∧
      Represents process (ps.foldl Arena.free arena) := by
  induction ps generalizing session arena with
  | nil => exact ⟨session.process, rfl, tracks.represents⟩
  | cons p rest ih =>
    obtain ⟨fresh, distinct⟩ := List.nodup_cons.mp distinct
    obtain ⟨isLive, areLive⟩ := List.forall_mem_cons.mp areLive
    obtain ⟨after, taken⟩ := tracks.free_returns isLive
    have tracks' := tracks.free taken
    cases taken with
    | @free process process' live _ _ returned =>
      have stillLive : ∀ q ∈ rest, q ∈ live.erase p := by
        intro q member
        have other : q ≠ p := fun same => fresh (same ▸ member)
        exact Finmap.mem_erase.mpr ⟨other, areLive q member⟩
      obtain ⟨last, freed, represents⟩ := ih tracks' distinct stillLive
      refine ⟨last, ?_, represents⟩
      rw [mmFreeAll, returned]
      exact freed

/-- What a header says of its block, links apart. -/
def Block.shape (block : Block) : Nat × Bool × Nat := (block.addr, block.free, block.size)

/-- Processes that represent arenas of blocks of the same shapes have the same list with the same
headers. -/
theorem Represents.sameHeaders (rep : Represents process arena) (rep' : Represents process' arena')
    (same : arena.blocks.map Block.shape = arena'.blocks.map Block.shape) :
    process'.blocks = some (addrs arena.blocks) ∧ ∀ b ∈ addrs arena.blocks, ∀ field,
      readField process.memory b field = readField process'.memory b field := by
  have sameAddrs : addrs arena'.blocks = addrs arena.blocks := by
    have mapped := congrArg (List.map Prod.fst) same
    rw [List.map_map, List.map_map] at mapped
    exact mapped.symm
  have links' := rep'.segment.links
  have walked' := rep'.walked
  rw [sameAddrs] at links' walked'
  refine ⟨walked', fun b listed field => ?_⟩
  have linked := rep.segment.links.unique links' b listed
  obtain ⟨block, member, rfl⟩ := List.mem_map.mp listed
  obtain ⟨block', member', shape⟩ := List.mem_map.mp (same ▸ List.mem_map_of_mem member)
  obtain ⟨addr, free, size⟩ : block'.addr = block.addr ∧ block'.free = block.free ∧
      block'.size = block.size := by simpa [Block.shape] using shape
  have stored := rep.segment.stored block member
  have stored' := rep'.segment.stored block' member'
  cases field with
  | size => rw [stored.size, ← addr, stored'.size, size]
  | next => exact linked.1
  | prev => exact linked.2
  | free => rw [stored.free, ← addr, stored'.free, free]
  | ptr => rw [stored.ptr, ← addr, stored'.ptr]

/-- Processes that represent arenas of the same blocks have the same heap. -/
theorem Represents.sameHeap (rep : Represents process arena) (rep' : Represents process' arena')
    (sameBlocks : arena.blocks = arena'.blocks) (sameBrk : arena.brk = arena'.brk) :
    SameHeap process process' (addrs arena.blocks) := by
  obtain ⟨walked', header⟩ := rep.sameHeaders rep' (congrArg (List.map Block.shape) sameBlocks)
  refine ⟨rep.walked, walked', header, ?_, ?_⟩
  · intro b listed
    obtain ⟨block, member, rfl⟩ := List.mem_map.mp listed
    have stored := rep.segment.stored block member
    have stored' := rep'.segment.stored block (sameBlocks ▸ member)
    rw [sizeOf, sizeOf, stored.size, stored'.size]
    exact stored.data.trans stored'.data.symm
  · rw [rep.brk, rep'.brk, sameBrk]

/-- In every reachable session, live pointers may be freed in any order: every call returns, and
the heap left is the same. -/
theorem freeing_commutes (initial : Initial start) (reached : Reachable Step start session)
    (distinct : ps.Nodup) (areLive : ∀ p ∈ ps, p ∈ session.live) (perm : ps.Perm qs) :
    ∃ process process' nodes, mmFreeAll session.process ps = some (.ok process) ∧
      mmFreeAll session.process qs = some (.ok process') ∧ SameHeap process process' nodes := by
  obtain ⟨arena, tracks, _⟩ := reachable_tracks initial reached
  have areLive' : ∀ p ∈ qs, p ∈ session.live := fun p member => areLive p (perm.mem_iff.mpr member)
  obtain ⟨process, freed, represents⟩ := tracks.freeAll distinct areLive
  obtain ⟨process', freed', represents'⟩ := tracks.freeAll (perm.nodup_iff.mp distinct) areLive'
  have sameBrk : (ps.foldl Arena.free arena).brk = (qs.foldl Arena.free arena).brk :=
    (foldl_free_brk ps arena).trans (foldl_free_brk qs arena).symm
  exact ⟨process, process', _, freed, freed',
    represents.sameHeap represents' (foldl_free_perm perm) sameBrk⟩

/-- Three allocations, one of them written to. -/
def threeLiveRun : List (Event × Session) :=
  trace Session.perform freshSession
    [.malloc 8 0 4136, .malloc 16 0 4184, .malloc 8 0 4240, .write 4184 1 7]

/-- The three blocks may be freed from the middle or from the left. -/
theorem freeing_commutes_threeLiveRun : threeLiveRun.length = 4 ∧ ∃ process process' nodes,
    mmFreeAll (final freshSession threeLiveRun).process [4184, 4136, 4240] = some (.ok process) ∧
    mmFreeAll (final freshSession threeLiveRun).process [4136, 4184, 4240] = some (.ok process') ∧
    SameHeap process process' nodes :=
  ⟨by decide +kernel, freeing_commutes freshSession_initial
    (isRun_trace (fun _ _ _ => Session.perform_step) freshSession _).reachable (by decide)
    (by decide +kernel) (by decide)⟩

end OsAssignments.MmAlloc
