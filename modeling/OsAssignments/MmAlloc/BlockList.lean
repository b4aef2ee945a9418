import OsAssignments.MmAlloc.Session

/-!
# The block list

What the list from `block_list_head` is in every reachable session: in address order, linked both
ways, without a gap between the first break and the current one, and with no two free neighbours.
The walks of `mm_malloc` and `mm_free` follow the same links, so they end where the list does.
-/

namespace OsAssignments.MmAlloc

open ByteMemory LinkedList Transition

/-- The size a header records. -/
abbrev sizeOf (memory : ByteMemory) (block : Nat) : Nat := readField memory block .size

/-- The flag a header records. -/
abbrev freeOf (memory : ByteMemory) (block : Nat) : Nat := readField memory block .free

/-- The list of a process is the given addresses and fills the heap from `low` to the break. -/
structure BlockList (process : Process) (low : Nat) (nodes : List Nat) : Prop where
  /-- A walk from `block_list_head` meets the addresses and then the null pointer. -/
  walked : process.blocks = some nodes
  /-- The addresses increase, so none is met twice. -/
  increasing : nodes.Pairwise (· < ·)
  /-- No block lies at the null pointer. -/
  proper : ∀ b ∈ nodes, b ≠ null
  /-- `ptr` is the block's own address. -/
  ptr : ∀ b ∈ nodes, readField process.memory b .ptr = b
  /-- `free` is 0 or 1. -/
  free : ∀ b ∈ nodes, freeOf process.memory b = 0 ∨ freeOf process.memory b = 1
  /-- `next` is null exactly in the last block. -/
  last : ∀ index (inside : index < nodes.length),
    nextOf process.memory nodes[index] = null ↔ index + 1 = nodes.length
  /-- `next` of any other block is the following block, right behind it, whose `prev` returns. -/
  next : ∀ index (inside : index + 1 < nodes.length),
    nextOf process.memory nodes[index] = nodes[index + 1] ∧
      nodes[index + 1] = readField process.memory nodes[index] .ptr + blockSize +
        sizeOf process.memory nodes[index] ∧
      prevOf process.memory nodes[index + 1] = nodes[index]
  /-- The first block lies at the bottom of the heap, and its `prev` is null. -/
  first : ∀ inside : 0 < nodes.length, nodes[0] = low ∧ prevOf process.memory nodes[0] = null
  /-- The last block ends at the break. -/
  top : ∀ index (inside : index < nodes.length), index + 1 = nodes.length →
    nodes[index] + blockSize + sizeOf process.memory nodes[index] = process.brk
  /-- A heap without blocks has no bytes. -/
  empty : nodes = [] → low = process.brk

variable {memory : ByteMemory} {base low high size fuel iter lastBlock sbp : Nat} {nodes : List Nat}
  {blocks : List Block} {process : Process} {arena : Arena base} {start session after : Session}

/-! ## Walks -/

/-- Where following `next` meets the null pointer, the walk of `mm_malloc` ends. -/
theorem findFit_ends (walked : walk null (nextOf memory) fuel iter = some nodes) :
    ∃ fit, findFit memory size fuel iter lastBlock = some fit := by
  induction fuel generalizing iter lastBlock nodes with
  | zero => contradiction
  | succ fuel ih =>
    rw [walk] at walked
    rw [findFit]
    by_cases isNull : iter = null
    · exact ⟨_, if_pos isNull⟩
    · rw [if_neg isNull] at walked ⊢
      obtain ⟨rest, tail, _⟩ := Option.map_eq_some_iff.mp walked
      have later : ∃ fit, findFit memory size fuel (nextOf memory iter) iter = some fit := ih tail
      split
      · exact later
      · split
        · exact ⟨_, rfl⟩
        · split
          · exact ⟨_, rfl⟩
          · exact later

/-- Where following `next` meets the null pointer, the walk of `mm_free` ends. -/
theorem onList_ends (walked : walk null (nextOf memory) fuel iter = some nodes) :
    ∃ found, onList memory sbp fuel iter = some found := by
  induction fuel generalizing iter nodes with
  | zero => contradiction
  | succ fuel ih =>
    rw [walk] at walked
    rw [onList]
    by_cases isNull : iter = null
    · exact ⟨_, if_pos isNull⟩
    · rw [if_neg isNull] at walked ⊢
      obtain ⟨rest, tail, _⟩ := Option.map_eq_some_iff.mp walked
      by_cases here : sbp = iter
      · exact ⟨_, if_pos here⟩
      · rw [if_neg here]
        exact ih tail

/-! ## The list of a tiled arena -/

/-- A block of a tiling lies right behind the one before it. -/
theorem Tiles.adjacent (tiles : Tiles low blocks high) (index : Nat)
    (inside : index + 1 < blocks.length) : blocks[index + 1].addr = blocks[index].finish := by
  induction blocks generalizing low index with
  | nil => simp at inside
  | cons block rest ih =>
    obtain ⟨_, tail⟩ := tiles
    cases index with
    | zero =>
      cases rest with
      | nil => simp at inside
      | cons next rest => exact tail.1
    | succ index => exact ih tail index (by simpa using inside)

/-- The first block of a tiling starts where the tiling does. -/
theorem Tiles.bottom (tiles : Tiles low blocks high) (inside : 0 < blocks.length) :
    blocks[0].addr = low := by
  cases blocks with
  | nil => simp at inside
  | cons block rest => exact tiles.1

/-- The last block of a tiling ends where the tiling does. -/
theorem Tiles.top (tiles : Tiles low blocks high) (index : Nat) (inside : index < blocks.length)
    (isLast : index + 1 = blocks.length) : blocks[index].finish = high := by
  induction blocks generalizing low index with
  | nil => simp at inside
  | cons block rest ih =>
    obtain ⟨_, tail⟩ := tiles
    cases index with
    | zero =>
      cases rest with
      | nil => exact tail
      | cons next rest => simp at isLast
    | succ index => exact ih tail index (by simpa using inside) (by simpa using isLast)

/-- A walk from the list head meets the blocks of a represented arena. -/
theorem Represents.walked (rep : Represents process arena) :
    process.blocks = some (addrs arena.blocks) := by
  have proper : ∀ addr ∈ addrs arena.blocks, addr ≠ null := by
    intro addr member
    obtain ⟨block, inside, rfl⟩ := List.mem_map.mp member
    exact rep.proper inside
  have enough : (addrs arena.blocks).length < walkFuel := by
    rw [addrs, List.length_map]
    exact rep.enough
  rw [Process.blocks, rep.head]
  exact walk_chain rep.segment.links proper enough

/-- The blocks of a represented arena, when they fill the heap, are its block list. -/
theorem Represents.blockList (rep : Represents process arena) (tiled : arena.Tiled) :
    BlockList process base (addrs arena.blocks) := by
  have links := rep.segment.links
  have stored : ∀ index (inside : index < (addrs arena.blocks).length),
      ∃ below : index < arena.blocks.length, (addrs arena.blocks)[index] = arena.blocks[index].addr ∧
        Stored process.memory arena.blocks[index] := by
    intro index inside
    have below : index < arena.blocks.length := by simpa using inside
    exact ⟨below, by simp, rep.segment.stored _ (List.getElem_mem below)⟩
  have each : ∀ b ∈ addrs arena.blocks, ∃ block ∈ arena.blocks, block.addr = b ∧
      Stored process.memory block := by
    intro b member
    obtain ⟨block, inside, rfl⟩ := List.mem_map.mp member
    exact ⟨block, inside, rfl, rep.segment.stored block inside⟩
  have proper : ∀ b ∈ addrs arena.blocks, b ≠ null := by
    intro b member
    obtain ⟨block, inside, rfl, _⟩ := each b member
    exact rep.proper inside
  refine ⟨rep.walked, ?_, proper, ?_, ?_, ?_, ?_, ?_, ?_, ?_⟩
  · apply List.pairwise_map.mpr
    apply arena.ordered.pairwise.imp
    intro block next apart
    unfold Block.finish blockSize at apart
    omega
  · intro b member
    obtain ⟨block, _, rfl, here⟩ := each b member
    exact here.ptr
  · intro b member
    obtain ⟨block, _, rfl, here⟩ := each b member
    rw [freeOf, here.free]
    cases block.free
    · exact .inl rfl
    · exact .inr rfl
  · exact links.next_null_iff proper
  · intro index inside
    obtain ⟨front, back⟩ := links.links index inside
    obtain ⟨below, addr, here⟩ := stored index (Nat.lt_of_succ_lt inside)
    have adjacent := tiled.adjacent index (by simpa using inside)
    refine ⟨front, ?_, back⟩
    rw [sizeOf, addr, here.ptr, here.size, List.getElem_map]
    exact adjacent
  · intro inside
    obtain ⟨below, addr, _⟩ := stored 0 inside
    exact ⟨addr.trans (tiled.bottom below), links.prev_first inside⟩
  · intro index inside isLast
    obtain ⟨below, addr, here⟩ := stored index inside
    rw [sizeOf, addr, here.size, rep.brk]
    exact tiled.top index below (by simpa using isLast)
  · intro none
    rw [Arena.Tiled, List.map_eq_nil_iff.mp none] at tiled
    exact tiled.trans rep.brk.symm

/-- In every reachable session the list is well formed and fills the heap obtained so far, and
the walks of both calls end, whatever the size or the pointer. -/
theorem blockList_reachable (initial : Initial start) (reached : Reachable Step start session) :
    ∃ nodes, BlockList session.process start.process.brk nodes ∧
      (∀ size, ∃ fit, session.process.findFit size = some fit) ∧
      ∀ sbp, ∃ found, onList session.process.memory sbp walkFuel session.process.blockListHead =
        some found := by
  obtain ⟨arena, tracks, tiled⟩ := reachable_tracks initial reached
  have walked := tracks.represents.walked
  exact ⟨_, tracks.represents.blockList tiled, fun _ => findFit_ends walked,
    fun _ => onList_ends walked⟩

/-- The list at the end of the sample run. -/
theorem blockList_sampleRun : sampleRun.length = 4 ∧
    ∃ nodes, BlockList (final freshSession sampleRun).process 4096 nodes ∧
      (∀ size, ∃ fit, (final freshSession sampleRun).process.findFit size = some fit) ∧
      ∀ sbp, ∃ found, onList (final freshSession sampleRun).process.memory sbp walkFuel
        (final freshSession sampleRun).process.blockListHead = some found :=
  ⟨by decide +kernel, blockList_reachable freshSession_initial sampleRun_reachable⟩

/-! ## Coalescing -/

/-- A list of free blocks without two free neighbours has at most one block. -/
theorem Coalesced.single (coalesced : Coalesced blocks) (free : ∀ block ∈ blocks, block.free = true)
    (nonempty : blocks ≠ []) : ∃ block, blocks = [block] := by
  cases blocks with
  | nil => contradiction
  | cons block rest =>
    cases rest with
    | nil => exact ⟨block, rfl⟩
    | cons next rest =>
      have apart := (List.isChain_cons_cons.mp coalesced).1
      exact absurd ⟨free block (by simp), free next (by simp)⟩ apart

/-- The list head stays null only as long as nothing has happened. -/
theorem reachable_started (initial : Initial start) (reached : Reachable Step start session) :
    session = start ∨ session.process.blockListHead ≠ null := by
  suffices (∃ arena : Arena start.process.brk, Tracks session arena) ∧
      (session = start ∨ session.process.blockListHead ≠ null) from this.2
  refine @Reachable.invariant _ _ Step start session (fun session =>
    (∃ arena : Arena start.process.brk, Tracks session arena) ∧
      (session = start ∨ session.process.blockListHead ≠ null)) reached
    ⟨⟨_, initial.tracks⟩, .inl rfl⟩ ?_
  rintro source event target ⟨⟨arena, tracks⟩, started⟩ taken
  have tracks' := tracks.step taken
  refine ⟨⟨_, tracks'⟩, .inr ?_⟩
  have kept : source.live ≠ ∅ → source.process.blockListHead ≠ null := by
    intro some
    rcases started with rfl | proper
    · exact absurd initial.live some
    · exact proper
  have someLive : ∀ p, p ∈ source.live → source.live ≠ ∅ := by
    rintro p member none
    rw [none] at member
    exact Finmap.notMem_empty member
  cases taken with
  | @malloc process process' live size p padding small succeeds returned =>
    rw [ne_eq, tracks'.represents.head_null]
    obtain ⟨new, used, _, _, _, members⟩ := arena.malloc_used size
    exact List.ne_nil_of_mem ((members new used).mpr (.inl rfl))
  | free isLive returned =>
    have head := tracks'.represents.head
    rw [Arena.after, Arena.free, first_release, ← tracks.represents.head] at head
    rw [head]
    exact kept (someLive _ isLive)
  | write isLive inside => exact kept (someLive _ (Finmap.mem_of_lookup_eq_some isLive))

/-- In every reachable session no two neighbours of the list are both free, and once every
pointer has been freed the list is one free block of the whole heap. -/
theorem coalesced_reachable (initial : Initial start) (reached : Reachable Step start session) :
    ∃ nodes, session.process.blocks = some nodes ∧
      (∀ index (inside : index + 1 < nodes.length),
        ¬ (freeOf session.process.memory nodes[index] ≠ 0 ∧
          freeOf session.process.memory nodes[index + 1] ≠ 0)) ∧
      (session.live = ∅ → session = start ∨
        nodes = [start.process.brk] ∧ freeOf session.process.memory start.process.brk = 1 ∧
          start.process.brk + blockSize + sizeOf session.process.memory start.process.brk =
            session.process.brk) := by
  obtain ⟨arena, tracks, tiled⟩ := reachable_tracks initial reached
  have represents := tracks.represents
  have stored := represents.segment.stored
  refine ⟨_, represents.walked, ?_, ?_⟩
  · intro index inside
    have within : index + 1 < arena.blocks.length := by simpa using inside
    have apart := List.isChain_iff_getElem.mp arena.coalesced index within
    rw [List.getElem_map, List.getElem_map, freeOf, freeOf,
      (stored _ (List.getElem_mem (Nat.lt_of_succ_lt within))).free,
      (stored _ (List.getElem_mem within)).free]
    rintro ⟨left, right⟩
    exact apart ⟨by simpa using left, by simpa using right⟩
  · intro none
    rcases reachable_started initial reached with same | started
    · exact .inl same
    · have free : ∀ block ∈ arena.blocks, block.free = true := by
        intro block member
        by_contra used
        have isLive := tracks.complete block member (Bool.eq_false_iff.mpr used)
        rw [none] at isLive
        exact Finmap.notMem_empty isLive
      obtain ⟨block, only⟩ := arena.coalesced.single free (mt represents.head_null.mpr started)
      have member : block ∈ arena.blocks := only ▸ List.mem_cons_self
      have here := stored block member
      rw [Arena.Tiled, only] at tiled
      obtain ⟨bottom, top⟩ := tiled
      refine .inr ⟨by rw [only, ← bottom]; rfl, ?_, ?_⟩
      · rw [← bottom, freeOf, here.free, free block member]
        rfl
      · rw [← bottom, sizeOf, here.size, represents.brk]
        exact top

/-- Two allocations, both freed again. -/
def emptiedRun : List (Event × Session) :=
  trace Session.perform freshSession
    [.malloc 48 0 4136, .malloc 8 0 4224, .free 4136, .free 4224]

/-- At the end of the emptied run one free block is left. -/
theorem coalesced_emptiedRun : emptiedRun.length = 4 ∧
    ∃ nodes, (final freshSession emptiedRun).process.blocks = some nodes ∧
      (∀ index (inside : index + 1 < nodes.length),
        ¬ (freeOf (final freshSession emptiedRun).process.memory nodes[index] ≠ 0 ∧
          freeOf (final freshSession emptiedRun).process.memory nodes[index + 1] ≠ 0)) ∧
      ((final freshSession emptiedRun).live = ∅ → final freshSession emptiedRun = freshSession ∨
        nodes = [4096] ∧ freeOf (final freshSession emptiedRun).process.memory 4096 = 1 ∧
          4096 + blockSize + sizeOf (final freshSession emptiedRun).process.memory 4096 =
            (final freshSession emptiedRun).process.brk) :=
  ⟨by decide +kernel, coalesced_reachable freshSession_initial
    (isRun_trace (fun _ _ _ => Session.perform_step) freshSession _).reachable⟩

end OsAssignments.MmAlloc
