import OsAssignments.MmAlloc.Carving

/-!
# The allocator refines the arena

A process represents an arena when its memory holds the arena's blocks, its list head is the
first of them and its break is the arena's. `mm_malloc`, `mm_free` and client writes carry a
process that represents an arena to one that represents what the arena operation returns.
-/

namespace OsAssignments.MmAlloc

open ByteMemory LinkedList MachineWord

variable {base low high n lastBlock fuel : Nat} {memory : ByteMemory} {block : Block}
  {blocks left right : List Block} {process : Process} {arena : Arena base}

/-! ## The walks -/

/-- The walk of `mm_free` finds exactly the blocks of the list. -/
theorem onList_segment {before sbp : Nat} (segment : Segment memory before blocks null)
    (proper : ∀ block ∈ blocks, block.addr ≠ null) (enough : blocks.length < fuel) :
    onList memory sbp fuel (first (addrs blocks) null) = some (decide (sbp ∈ addrs blocks)) := by
  induction blocks generalizing before fuel with
  | nil =>
    obtain ⟨fuel, rfl⟩ := Nat.exists_eq_succ_of_ne_zero (Nat.ne_of_gt enough)
    simp [onList]
  | cons block rest ih =>
    obtain ⟨fuel, rfl⟩ := Nat.exists_eq_succ_of_ne_zero (Nat.ne_of_gt (Nat.zero_lt_of_lt enough))
    obtain ⟨_, _, front, tail⟩ := segment_cons.mp segment
    have later := ih tail (fun other member => proper other (List.mem_cons_of_mem _ member))
      (Nat.lt_of_succ_lt_succ enough)
    by_cases here : sbp = block.addr
    · simp [onList, proper block List.mem_cons_self, here]
    · simpa [onList, proper block List.mem_cons_self, here, front] using later

/-- Where the walk over a list of blocks ends. -/
def fitOf (n : Nat) : List Block → Nat → Fit
  | [], lastBlock => .absent lastBlock
  | block :: rest, _ =>
    if block.Fits n then if block.size = n + blockSize then .whole block.addr else .split block.addr
    else fitOf n rest block.addr

/-- The walk in memory ends where the walk over the blocks does. -/
theorem findFit_segment {before : Nat} (segment : Segment memory before blocks null)
    (proper : ∀ block ∈ blocks, block.addr ≠ null) (enough : blocks.length < fuel)
    (small : n + blockSize < 2 ^ 64) :
    findFit memory n fuel (first (addrs blocks) null) lastBlock = some (fitOf n blocks lastBlock) := by
  have sum : add n blockSize = n + blockSize := add_of_lt small
  induction blocks generalizing before fuel lastBlock with
  | nil =>
    obtain ⟨fuel, rfl⟩ := Nat.exists_eq_succ_of_ne_zero (Nat.ne_of_gt enough)
    simp [findFit, fitOf]
  | cons block rest ih =>
    obtain ⟨fuel, rfl⟩ := Nat.exists_eq_succ_of_ne_zero (Nat.ne_of_gt (Nat.zero_lt_of_lt enough))
    obtain ⟨stored, _, front, tail⟩ := segment_cons.mp segment
    have later := @ih block.addr fuel block.addr tail
      (fun other member => proper other (List.mem_cons_of_mem _ member))
      (Nat.lt_of_succ_lt_succ enough)
    have here := proper block List.mem_cons_self
    have nextRead : readField memory block.addr .next = first (addrs rest) null := front
    rw [addrs, List.map_cons, first_cons, findFit, if_neg here, stored.free, stored.size, nextRead,
      sum, later, fitOf]
    cases free : block.free with
    | false => simp [Block.Fits, free]
    | true =>
      simp only [Bool.toNat_true, ne_eq, not_true_eq_false, if_false, Block.Fits, free, true_and,
        gt_iff_lt]
      by_cases fits : n + blockSize ≤ block.size
      · rw [if_pos fits]
        by_cases exact : block.size = n + blockSize
        · rw [if_neg (by omega), if_pos exact, if_pos exact]
        · rw [if_pos (by omega), if_neg exact]
      · rw [if_neg (by omega), if_neg (by omega), if_neg fits]

/-- A walk that no block fits ends behind the last one. -/
theorem fitOf_absent (none : ∀ block ∈ blocks, ¬ block.Fits n) :
    fitOf n blocks lastBlock = .absent (last lastBlock (addrs blocks)) := by
  induction blocks generalizing lastBlock with
  | nil => rfl
  | cons block rest ih =>
    rw [fitOf, if_neg (none block List.mem_cons_self),
      ih fun other member => none other (List.mem_cons_of_mem _ member)]
    simp

/-- A walk ends at the first block that fits. -/
theorem fitOf_found (before : ∀ other ∈ left, ¬ other.Fits n) (fits : block.Fits n) :
    fitOf n (left ++ block :: right) lastBlock =
      if block.size = n + blockSize then .whole block.addr else .split block.addr := by
  induction left generalizing lastBlock with
  | nil => simp [fitOf, fits]
  | cons head rest ih =>
    rw [List.cons_append, fitOf, if_neg (before head List.mem_cons_self),
      ih fun other member => before other (List.mem_cons_of_mem _ member)]

/-! ## Represented arenas -/

/-- A process whose memory, list head and break are those of an arena at proper addresses. -/
structure Represents {base : Nat} (process : Process) (arena : Arena base) : Prop where
  /-- The list starts at the first block. -/
  head : process.blockListHead = first (addrs arena.blocks) null
  /-- The breaks agree. -/
  brk : process.brk = arena.brk
  /-- The blocks lie in memory. -/
  segment : Segment process.memory null arena.blocks null
  /-- No block lies at the null pointer. -/
  positive : 0 < base
  /-- The break is an address. -/
  fits : arena.brk < 2 ^ 64

/-- The blocks of a represented arena do not lie at the null pointer. -/
theorem Represents.proper (rep : Represents process arena) (member : block ∈ arena.blocks) :
    block.addr ≠ null :=
  Nat.ne_of_gt (Nat.lt_of_lt_of_le rep.positive (arena.ordered.mem member).1)

/-- A walk has fuel for all the blocks of a represented arena. -/
theorem Represents.enough (rep : Represents process arena) : arena.blocks.length < walkFuel := by
  have room := arena.ordered.length
  have top := rep.fits
  unfold blockSize at room
  unfold walkFuel
  omega

/-- An `sbrk` for a new block that is granted and stays within the addresses moves the break. -/
theorem sbrk_granted {s : Nat} (small : s + blockSize < 2 ^ 63)
    (fits : process.brk + blockSize + s < 2 ^ 64) :
    sbrk true process (add s blockSize) =
      (process.brk, { process with brk := process.brk + blockSize + s }) := by
  have amount : add s blockSize = s + blockSize := add_of_lt (by omega)
  have target : (process.brk : Int) + toSigned (add s blockSize) =
      ((process.brk + blockSize + s : Nat) : Int) := by
    rw [amount, toSigned_of_lt small]
    push_cast
    omega
  unfold sbrk
  rw [target]
  have inside : (true = true) ∧ 0 ≤ ((process.brk + blockSize + s : Nat) : Int) ∧
      ((process.brk + blockSize + s : Nat) : Int) < 2 ^ 64 := ⟨rfl, by omega, by omega⟩
  simp only [inside, and_self, if_true, Int.toNat_natCast]

/-- The header `extend_heap` writes, and the memory and list head it leaves. -/
theorem extendHeap_eq (lastBlock : Nat) (padding : UInt32)
    (granted : sbrk true process (add n blockSize) =
      (process.brk, { process with brk := process.brk + blockSize + n }))
    (proper : process.brk ≠ sbrkFailed) :
    extendHeap true padding process lastBlock n =
      (process.brk,
        { memory := (storeHeader
            (if lastBlock ≠ null then writeField process.memory lastBlock .next process.brk
              else process.memory) process.brk
            { size := n, next := null,
              prev := if lastBlock ≠ null then readField process.memory lastBlock .ptr else null,
              free := 0, ptr := process.brk, padding }).fill (dataOf process.brk) n 0
          blockListHead := if lastBlock ≠ null then process.blockListHead else process.brk
          brk := process.brk + blockSize + n }) := by
  unfold extendHeap
  rw [granted]
  by_cases none : lastBlock = null
  · simp [proper, none]
  · simp [proper, none]

/-- `extend_heap` with a granted `sbrk`, called with the last block, extends the arena. -/
theorem extendHeap_refines (padding : UInt32) (rep : Represents process arena)
    (isLast : lastBlock = last null (addrs arena.blocks)) (small : n + blockSize < 2 ^ 63)
    (fits : arena.brk + blockSize + n < 2 ^ 64) :
    ∃ process', extendHeap true padding process lastBlock n = (arena.brk, process') ∧
      Represents process' (arena.extend n) := by
  have brkSame := rep.brk
  have ordered := arena.ordered
  have segment := rep.segment
  have brkFits : process.brk + blockSize + n < 2 ^ 64 := by rw [brkSame]; exact fits
  have proper : process.brk ≠ sbrkFailed := by
    unfold sbrkFailed
    unfold blockSize at brkFits
    omega
  have extended := extendHeap_eq lastBlock padding (sbrk_granted small brkFits) proper
  refine ⟨_, extended.trans (by rw [brkSame]), ?_⟩
  rcases List.eq_nil_or_concat arena.blocks with none | ⟨before, lastOne, some⟩
  · have isNull : lastBlock = null := by rw [isLast, none]; rfl
    have fresh := segment_fresh process.memory false padding fits null_lt null_lt
    refine ⟨?_, rfl, ?_, rep.positive, fits⟩
    · simp [isNull, Arena.extend, none]
    · simpa [isNull, Arena.extend, none] using fresh
  · rw [List.concat_eq_append] at some
    have lastAddr : lastBlock = lastOne.addr := by rw [isLast, some]; simp
    have member : lastOne ∈ arena.blocks := by simp [some]
    have notNull : lastBlock ≠ null := lastAddr ▸ rep.proper member
    have top := (ordered.mem member).2
    have lastFits : lastOne.addr < 2 ^ 64 := by unfold Block.finish at top; omega
    have brkLt : arena.brk < 2 ^ 64 := by omega
    have stored := segment.stored lastOne member
    have moved : Segment (writeField process.memory lastBlock .next arena.brk) null arena.blocks
        arena.brk := by
      rw [some] at segment ordered
      rw [some, lastAddr]
      exact segment.linkNext ordered brkLt
    have away : ∀ start finish, arena.brk ≤ start → Away arena.blocks start finish :=
      fun _ _ above => ordered.away_above above
    refine ⟨?_, rfl, ?_, rep.positive, fits⟩
    · have headSame := rep.head
      rw [some] at headSame
      simpa [notNull, Arena.extend, some] using headSame
    · have fresh := segment_fresh (writeField process.memory lastBlock .next arena.brk) false padding
        fits null_lt lastFits
      have kept := (moved.storeHeader (away _ _ (Nat.le_refl _))
        ⟨n, null, lastOne.addr, 0, arena.brk, padding⟩).fill
        (away (dataOf arena.brk) (dataOf arena.brk + n) (Nat.le_add_right _ _)) 0
      have lastEnd : last null (addrs arena.blocks) = lastOne.addr := by rw [← isLast, lastAddr]
      have ptrRead : readField process.memory lastBlock .ptr = lastOne.addr := by
        rw [lastAddr]
        exact stored.ptr
      simp only [if_pos notNull, ptrRead, Arena.extend]
      rw [segment_append, lastEnd]
      exact ⟨kept, fresh⟩

/-- The walk of `mm_malloc` in a process that represents an arena. -/
theorem Represents.findFit (rep : Represents process arena) (small : n + blockSize < 2 ^ 64) :
    process.findFit n = some (fitOf n arena.blocks process.blockListHead) := by
  unfold Process.findFit
  rw [← findFit_segment rep.segment (fun _ => rep.proper) rep.enough small, ← rep.head]

/-- The walk finds no block exactly when the arena serves the request with none. -/
theorem Represents.absent_iff (rep : Represents process arena) (small : n + blockSize < 2 ^ 64) :
    (∃ lastBlock, process.findFit n = some (.absent lastBlock)) ↔ serve n arena.blocks = none := by
  rw [rep.findFit small]
  rcases serve_cases n arena.blocks with ⟨none, all⟩ | ⟨left, block, right, same, before, fits, some⟩
  · simp [fitOf_absent all, none]
  · rw [same, fitOf_found before fits, ← same, some]
    split <;> simp

/-! ## The two calls -/

/-- The list head is null exactly when the arena has no block. -/
theorem Represents.head_null (rep : Represents process arena) :
    process.blockListHead = null ↔ arena.blocks = [] := by
  rw [rep.head]
  constructor
  · intro isNull
    cases blocks : arena.blocks with
    | nil => rfl
    | cons block rest =>
      rw [blocks] at isNull
      exact absurd isNull (rep.proper (blocks ▸ List.mem_cons_self))
  · intro none
    rw [none]
    rfl

/-- A request that no block fits: `mm_malloc` extends the heap. -/
theorem mmMalloc_extends (padding : UInt32) (rep : Represents process arena)
    (small : n + blockSize < 2 ^ 63) (none : serve n arena.blocks = none)
    (fits : arena.brk + blockSize + n < 2 ^ 64) :
    ∃ process', mmMalloc true padding process n = some (arena.brk + blockSize, process') ∧
      Represents process' (arena.extend n) := by
  have walk := rep.findFit (show n + blockSize < 2 ^ 64 by omega)
  obtain ⟨_, all⟩ | ⟨left, block, right, _, _, _, some⟩ := serve_cases n arena.blocks
  · rw [fitOf_absent all] at walk
    by_cases empty : arena.blocks = []
    · have headNull := rep.head_null.mpr empty
      have isLast : process.blockListHead = last null (addrs arena.blocks) := by
        rw [headNull, empty]
        rfl
      obtain ⟨process', extended, rep'⟩ := extendHeap_refines padding rep isLast small fits
      refine ⟨process', ?_, rep'⟩
      simp [mmMalloc, headNull, headNull ▸ extended, dataOf]
    · have headProper := mt rep.head_null.mp empty
      have isLast : last process.blockListHead (addrs arena.blocks) =
          last null (addrs arena.blocks) := by
        cases blocks : arena.blocks with
        | nil => contradiction
        | cons block rest => simp
      obtain ⟨process', extended, rep'⟩ := extendHeap_refines padding rep isLast small fits
      refine ⟨process', ?_, rep'⟩
      simp [mmMalloc, headProper, walk, extended, dataOf]
  · simp [none] at some

/-- A request that a block fits: `mm_malloc` splits that block or takes it whole. -/
theorem mmMalloc_serves (granted : Bool) (padding : UInt32) (rep : Represents process arena)
    (small : n + blockSize < 2 ^ 64) (same : arena.blocks = left ++ block :: right)
    (before : ∀ other ∈ left, ¬ other.Fits n) (fit : block.Fits n) :
    ∃ memory', mmMalloc granted padding process n =
        some (block.payload, { process with memory := memory' }) ∧
      Segment memory' null (left ++ block.carve n ++ right) null := by
  have walk := rep.findFit small
  have headProper : process.blockListHead ≠ null := by
    rw [ne_eq, rep.head_null, same]
    simp
  have segment := rep.segment
  have ordered := arena.ordered
  rw [same] at segment ordered
  rw [same, fitOf_found before fit] at walk
  by_cases exact : block.size = n + blockSize
  · rw [if_pos exact] at walk
    refine ⟨writeField process.memory block.addr .free 0, ?_, ?_⟩
    · simp [mmMalloc, headProper, walk, dataOf, Block.payload]
    · have taken := segment.writeFree ordered false
      simpa [Block.carve, exact] using taken
  · rw [if_neg exact] at walk
    have room : n + blockSize < block.size := Nat.lt_of_le_of_ne fit.2 (Ne.symm exact)
    have parts := segment_cut padding segment ordered rep.positive rep.fits fit.1 room
    have partsOrdered := ordered.cut room true true
    obtain ⟨_, behind, _, top⟩ := ordered.around rep.positive
    obtain ⟨stored, _, front, _⟩ := segment_cons.mp (segment_append.mp segment).2
    obtain ⟨_, afterAbove⟩ := behind.first_addr rep.fits
    have finishIs : block.finish = block.addr + blockSize + block.size := rfl
    have brkFits := rep.fits
    have splitIs := splitBlock_eq padding stored.ptr stored.size front room (by omega) rfl rfl
      (by omega)
    generalize memoryIs : cut process.memory padding block.addr n (block.addr + n + blockSize)
      (block.size - n - blockSize) (first (addrs right) null) = memory at parts splitIs
    have newRead : readField memory block.addr .next = block.addr + n + blockSize :=
      (segment_cons.mp (segment_append.mp parts).2).2.2.1
    refine ⟨writeField (writeField memory (block.addr + n + blockSize) .free 1) block.addr .free 0,
      ?_, ?_⟩
    · simp [mmMalloc, headProper, walk, splitIs, newRead, dataOf, Block.payload]
    · have shift : ∀ first second : Block, left ++ first :: second :: right =
        (left ++ [first]) ++ second :: right := by simp
      rw [shift] at parts partsOrdered
      have flagged := parts.writeFree partsOrdered true
      rw [← shift] at flagged partsOrdered
      have taken := flagged.writeFree partsOrdered false
      simpa [Block.carve, exact] using taken

/-- The addresses a carved block puts in its place start with its own. -/
theorem first_carve (after : Nat) :
    first (addrs (left ++ block.carve n ++ right)) after =
      first (addrs (left ++ block :: right)) after := by
  have head : ∃ one rest, block.carve n = one :: rest ∧ one.addr = block.addr := by
    unfold Block.carve
    split
    · exact ⟨_, _, rfl, rfl⟩
    · exact ⟨_, _, rfl, rfl⟩
  obtain ⟨one, rest, same, addr⟩ := head
  simp [same, addr]

/-- A request that some block fits is served as the arena serves it, whatever `sbrk` would do. -/
theorem mmMalloc_served (granted : Bool) (padding : UInt32) (rep : Represents process arena)
    (small : n + blockSize < 2 ^ 64) (served : serve n arena.blocks ≠ none) :
    ∃ process', mmMalloc granted padding process n = some ((arena.malloc n).1, process') ∧
      Represents process' (arena.malloc n).2 := by
  obtain ⟨none, _⟩ | ⟨left, block, right, same, before, fit, some⟩ := serve_cases n arena.blocks
  · exact absurd none served
  · obtain ⟨handed, blocks, brk⟩ := Arena.malloc_of_some some
    obtain ⟨memory', served, segment⟩ := mmMalloc_serves granted padding rep small same before fit
    refine ⟨_, by rw [served, handed], ?_, ?_, ?_, rep.positive, ?_⟩
    · rw [blocks, first_carve, ← same]
      exact rep.head
    · rw [brk]
      exact rep.brk
    · rw [blocks]
      exact segment
    · rw [brk]
      exact rep.fits

/-- `mm_malloc` hands out what the arena hands out and leaves what the arena becomes, as long as
an `sbrk` it needs is granted. -/
theorem mmMalloc_refines (padding : UInt32) (rep : Represents process arena)
    (small : n + blockSize < 2 ^ 63)
    (fits : serve n arena.blocks = none → arena.brk + blockSize + n < 2 ^ 64) :
    ∃ process', mmMalloc true padding process n = some ((arena.malloc n).1, process') ∧
      Represents process' (arena.malloc n).2 := by
  by_cases none : serve n arena.blocks = none
  · rw [Arena.malloc_of_none none]
    exact mmMalloc_extends padding rep small none (fits none)
  · exact mmMalloc_served true padding rep (by omega) none

/-- The header behind the payload address of a block is the block. -/
theorem Represents.getBlock (rep : Represents process arena) (member : block ∈ arena.blocks) :
    getBlock block.payload = block.addr := by
  have top := (arena.ordered.mem member).2
  have fits := rep.fits
  unfold Block.finish at top
  have word : block.payload < 2 ^ 64 := by unfold Block.payload; omega
  rw [MmAlloc.getBlock, sub_of_le word (by unfold Block.payload; omega)]
  unfold Block.payload
  omega

/-- Freeing leaves the first address of the list where it was. -/
theorem first_release (p after : Nat) :
    first (addrs (release p blocks)) after = first (addrs blocks) after := by
  cases blocks with
  | nil => rfl
  | cons block rest =>
    have joined : ∀ (one : Block) (tail : List Block), one.addr = block.addr →
        first (addrs (joinNext one tail)) after = block.addr := by
      intro one tail same
      obtain ⟨head, others, eq, addr, _⟩ := joinNext_head one tail
      simp [eq, addr, same]
    rw [release]
    split
    · exact joined _ _ rfl
    · exact joined _ _ rfl

/-- `mm_free` of a used block frees it in the arena. -/
theorem mmFree_refines (rep : Represents process arena) (member : block ∈ arena.blocks)
    (used : block.free = false) :
    ∃ process', mmFree process block.payload = some (.ok process') ∧
      Represents process' (arena.free block.payload) := by
  have found : onList process.memory block.addr walkFuel process.blockListHead = some true := by
    rw [rep.head, onList_segment rep.segment (fun _ => rep.proper) rep.enough,
      decide_eq_true (List.mem_map_of_mem member)]
  have flag : readField process.memory block.addr .free ≠ 1 := by
    rw [(rep.segment.stored block member).free, used]
    decide
  let memory' := fuseAround (writeField process.memory block.addr .free 1) block.addr
  refine ⟨{ process with memory := memory' }, ?_, ?_, rep.brk, ?_, rep.positive, rep.fits⟩
  · simp [mmFree, mmFreeUntil, rep.getBlock member, found, flag, memory']
  · rw [Arena.free, first_release]
    exact rep.head
  · obtain ⟨left, right, same⟩ := List.append_of_mem member
    have segment := rep.segment
    have ordered := arena.ordered
    have coalesced := arena.coalesced
    simp only [Arena.free]
    rw [same] at segment ordered coalesced ⊢
    have marked := segment.writeFree ordered true
    have markedOrdered : Ordered base (left ++ { block with free := true } :: right) arena.brk := by
      obtain ⟨before, behind⟩ := ordered.split
      exact before.append behind
    rcases List.eq_nil_or_concat left with rfl | ⟨front, prev, rfl⟩
    · rw [List.nil_append, release_first]
      exact fuseAround_first marked markedOrdered rep.positive rep.fits rfl
    · rw [List.concat_eq_append] at *
      simp only [List.append_assoc, List.singleton_append] at ordered coalesced marked markedOrdered ⊢
      rw [release_second ordered coalesced]
      exact fuseAround_after marked markedOrdered rep.positive rep.fits rfl

/-! ## Client writes -/

/-- Overwriting changes the one block with the payload address. -/
theorem overwrite_split {index : Nat} {byte : UInt8}
    (ordered : Ordered low (left ++ block :: right) high) :
    overwrite block.payload index byte (left ++ block :: right) =
      left ++ { block with data := block.data.set index byte } :: right := by
  have apart := List.pairwise_append.mp ordered.pairwise
  have before : ∀ other ∈ left, other.payload ≠ block.payload := by
    intro other member same
    have := apart.2.2 other member block List.mem_cons_self
    unfold Block.finish blockSize at this
    unfold Block.payload at same
    omega
  have behind : ∀ other ∈ right, other.payload ≠ block.payload := by
    intro other member same
    have := List.rel_of_pairwise_cons apart.2.1 member
    unfold Block.finish blockSize at this
    unfold Block.payload at same
    omega
  have keep : ∀ blocks : List Block, (∀ other ∈ blocks, other.payload ≠ block.payload) →
      overwrite block.payload index byte blocks = blocks := by
    intro blocks away
    conv_rhs => rw [← List.map_id blocks]
    exact List.map_congr_left fun other member => if_neg (away other member)
  have leftKept := keep left before
  have rightKept := keep right behind
  unfold overwrite at *
  rw [List.map_append, List.map_cons, if_pos rfl, leftKept, rightKept]

/-- A client write inside a payload overwrites the byte in the arena. -/
theorem write_refines {index : Nat} (rep : Represents process arena) (member : block ∈ arena.blocks)
    (inside : index < block.size) (byte : UInt8) :
    Represents { process with memory := process.memory.store (block.payload + index) [byte] }
      (arena.write block.payload index byte) := by
  obtain ⟨left, right, same⟩ := List.append_of_mem member
  have segment := rep.segment
  have ordered := arena.ordered
  have head := rep.head
  rw [same] at segment ordered head
  obtain ⟨leftOrdered, blockOrdered⟩ := ordered.split
  obtain ⟨segLeft, segBlock⟩ := segment_append.mp segment
  obtain ⟨stored, back, front, segRight⟩ := segment_cons.mp segBlock
  have finishIs : block.finish = block.payload + block.size := rfl
  have leftAway : Away left (block.payload + index) (block.payload + index + 1) :=
    leftOrdered.away_above (by unfold Block.payload; omega)
  have rightAway : Away right (block.payload + index) (block.payload + index + 1) :=
    blockOrdered.2.away_below (by omega)
  have header : AgreeOn (process.memory.store (block.payload + index) [byte]) process.memory
      block.addr (block.addr + blockSize) :=
    store_agree (.inl (Nat.le_add_right _ _))
  have kept : ∀ field, readField (process.memory.store (block.payload + index) [byte]) block.addr
      field = readField process.memory block.addr field := fun _ => readField_congr header
  refine ⟨?_, rep.brk, ?_, rep.positive, rep.fits⟩
  · simp only [Arena.write]
    rw [same, overwrite_split ordered]
    simpa using head
  · simp only [Arena.write]
    rw [same, overwrite_split ordered, segment_append, segment_cons]
    refine ⟨segLeft.store leftAway, ⟨?_, ?_, ?_, ?_⟩, ?_, ?_, segRight.store rightAway⟩
    · rw [kept, size_set]
      exact stored.size
    · rw [kept]
      exact stored.free
    · rw [kept]
      exact stored.ptr
    · rw [size_set]
      exact load_store_set.trans (by rw [stored.data])
    · exact (kept .prev).trans back
    · exact (kept .next).trans front

end OsAssignments.MmAlloc
