import Mathlib.Data.List.Chain
import OsAssignments.MmAlloc.Alloc

/-!
# The arena

What the allocator is for, without its memory: a sequence of blocks in address order, each with
its payload, from which requests are served first fit and into which freed blocks are merged
back. An arena carries its two invariants, so every operation below proves once that it keeps
them: the blocks lie in increasing address order between the base and the break, and no two
neighbours are both free. Nothing here asks that neighbours touch in memory.
-/

namespace OsAssignments.MmAlloc

/-- A block with its payload. -/
structure Block where
  /-- The address of the header. -/
  addr : Nat
  /-- Whether the block is free. -/
  free : Bool
  /-- The payload. -/
  data : List UInt8
  deriving DecidableEq

namespace Block

/-- The size of the payload. -/
def size (block : Block) : Nat := block.data.length

/-- The address of the payload. -/
def payload (block : Block) : Nat := block.addr + blockSize

/-- The first address behind the block. -/
def finish (block : Block) : Nat := block.addr + blockSize + block.size

/-- The block can serve a request: it is free and has at least a header to spare. -/
def Fits (n : Nat) (block : Block) : Prop := block.free = true ∧ n + blockSize ≤ block.size

instance (n : Nat) (block : Block) : Decidable (block.Fits n) :=
  inferInstanceAs (Decidable (_ ∧ _))

/-- What a serving block turns into: itself, when it has exactly a header to spare, or a used
block of the requested size and a free block of the rest, both cleared. -/
def carve (n : Nat) (block : Block) : List Block :=
  if block.size = n + blockSize then [{ block with free := false }]
  else
    [⟨block.addr, false, List.replicate n 0⟩,
      ⟨block.addr + n + blockSize, true, List.replicate (block.size - n - blockSize) 0⟩]

/-- Two neighbouring blocks made one, cleared. -/
def merge (block next : Block) : Block :=
  ⟨block.addr, true, List.replicate (block.size + next.size + blockSize) 0⟩

/-- Two neighbours are not both free. -/
def NotBothFree (block next : Block) : Prop := ¬ (block.free = true ∧ next.free = true)

@[simp]
theorem size_mk (addr : Nat) (free : Bool) (data : List UInt8) :
    (Block.mk addr free data).size = data.length := rfl

@[simp]
theorem merge_addr (block next : Block) : (block.merge next).addr = block.addr := rfl

@[simp]
theorem merge_free (block next : Block) : (block.merge next).free = true := rfl

@[simp]
theorem merge_size (block next : Block) :
    (block.merge next).size = block.size + next.size + blockSize := by simp [merge]

/-- Merging three neighbours gives the same block from either side. -/
theorem merge_assoc (first second third : Block) :
    (first.merge second).merge third = first.merge (second.merge third) := by
  have sum : first.size + second.size + blockSize + third.size + blockSize =
      first.size + (second.size + third.size + blockSize) + blockSize := by omega
  simp only [merge, size_mk, List.length_replicate, sum]

end Block

/-! ## Lists of blocks -/

/-- Blocks in increasing address order, none overlapping another, within two bounds. -/
def Ordered : Nat → List Block → Nat → Prop
  | low, [], high => low ≤ high
  | low, block :: rest, high => low ≤ block.addr ∧ Ordered block.finish rest high

/-- No two neighbours are both free. -/
def Coalesced (blocks : List Block) : Prop := blocks.IsChain Block.NotBothFree

/-- Serve a request from the first block that fits: the payload handed out and the new list. -/
def serve (n : Nat) : List Block → Option (Nat × List Block)
  | [] => none
  | block :: rest =>
    if block.Fits n then some (block.payload, block.carve n ++ rest)
    else (serve n rest).map fun (p, rest) => (p, block :: rest)

/-- Put a block in front of a list, merged with the first block there when both are free. -/
def joinNext (block : Block) : List Block → List Block
  | [] => [block]
  | next :: rest =>
    if block.free = true ∧ next.free = true then block.merge next :: rest else block :: next :: rest

/-- Free the block with a given payload, merging it with its free neighbours. -/
def release (p : Nat) : List Block → List Block
  | [] => []
  | block :: rest =>
    if block.payload = p then joinNext { block with free := true } rest
    else joinNext block (release p rest)

/-- Overwrite one payload byte of the block with a given payload. -/
def overwrite (p index : Nat) (byte : UInt8) (blocks : List Block) : List Block :=
  blocks.map fun block =>
    if block.payload = p then { block with data := block.data.set index byte } else block

variable {n p low mid high index : Nat} {byte : UInt8} {block next : Block}
  {blocks left right : List Block}

/-- The bounds of ordered blocks are ordered themselves. -/
theorem Ordered.le (ordered : Ordered low blocks high) : low ≤ high := by
  induction blocks generalizing low with
  | nil => exact ordered
  | cons block rest ih =>
    have tail := ih ordered.2
    unfold Block.finish at tail
    have start := ordered.1
    omega

/-- Ordered blocks are cut, or joined, at any address between them. -/
theorem Ordered.append (first : Ordered low left mid) (second : Ordered mid right high) :
    Ordered low (left ++ right) high := by
  induction left generalizing low with
  | nil =>
    cases right with
    | nil => exact Nat.le_trans first second
    | cons block rest => exact ⟨Nat.le_trans first second.1, second.2⟩
  | cons block rest ih => exact ⟨first.1, ih first.2⟩

/-- Ordered blocks, cut at a block. -/
theorem Ordered.split (ordered : Ordered low (left ++ block :: right) high) :
    Ordered low left block.addr ∧ Ordered block.addr (block :: right) high := by
  induction left generalizing low with
  | nil => exact ⟨ordered.1, Nat.le_refl _, ordered.2⟩
  | cons first rest ih => exact ⟨⟨ordered.1, (ih ordered.2).1⟩, (ih ordered.2).2⟩

/-- The bounds of ordered blocks may be widened. -/
theorem Ordered.widen {low' high' : Nat} (ordered : Ordered low blocks high) (lower : low' ≤ low)
    (upper : high ≤ high') : Ordered low' blocks high' := by
  induction blocks generalizing low low' with
  | nil => exact Nat.le_trans lower (Nat.le_trans ordered upper)
  | cons block rest ih => exact ⟨Nat.le_trans lower ordered.1, ih ordered.2 (Nat.le_refl _)⟩

/-- Ordered blocks lie within their bounds. -/
theorem Ordered.mem (ordered : Ordered low blocks high) (member : block ∈ blocks) :
    low ≤ block.addr ∧ block.finish ≤ high := by
  obtain ⟨left, right, rfl⟩ := List.append_of_mem member
  obtain ⟨before, after⟩ := ordered.split
  exact ⟨before.le, after.2.le⟩

/-- Of two ordered blocks, the earlier ends before the later starts. -/
theorem Ordered.pairwise (ordered : Ordered low blocks high) :
    blocks.Pairwise fun block next => block.finish ≤ next.addr := by
  induction blocks generalizing low with
  | nil => exact .nil
  | cons block rest ih =>
    exact List.pairwise_cons.mpr ⟨fun next member => (ordered.2.mem member).1, ih ordered.2⟩

/-- Ordered blocks have distinct payload addresses. -/
theorem Ordered.payload_inj (ordered : Ordered low blocks high) (member : block ∈ blocks)
    (other : next ∈ blocks) (same : block.payload = next.payload) : block = next := by
  induction blocks generalizing low with
  | nil => contradiction
  | cons head rest ih =>
    have apart : ∀ later ∈ rest, head.payload ≠ later.payload := by
      intro later inside
      have := (ordered.2.mem inside).1
      unfold Block.finish blockSize at this
      unfold Block.payload
      omega
    rcases List.mem_cons.mp member with rfl | inner
    · rcases List.mem_cons.mp other with rfl | inner'
      · rfl
      · exact absurd same (apart next inner')
    · rcases List.mem_cons.mp other with rfl | inner'
      · exact absurd same.symm (apart block inner)
      · exact ih ordered.2 inner inner'

/-- Every block takes at least a header of the room between the bounds. -/
theorem Ordered.length (ordered : Ordered low blocks high) :
    low + blockSize * blocks.length ≤ high := by
  induction blocks generalizing low with
  | nil => simpa using ordered.le
  | cons block rest ih =>
    have tail := ih ordered.2
    have start := ordered.1
    rw [List.length_cons]
    unfold Block.finish at tail
    unfold blockSize at tail ⊢
    omega

/-! ## Serving -/

/-- A request is served by the first block that fits, if any. -/
theorem serve_cases (n : Nat) (blocks : List Block) :
    (serve n blocks = none ∧ ∀ block ∈ blocks, ¬ block.Fits n) ∨
      ∃ left block right, blocks = left ++ block :: right ∧ (∀ other ∈ left, ¬ other.Fits n) ∧
        block.Fits n ∧ serve n blocks = some (block.payload, left ++ block.carve n ++ right) := by
  induction blocks with
  | nil => exact .inl ⟨rfl, by simp⟩
  | cons head rest ih =>
    by_cases fits : head.Fits n
    · exact .inr ⟨[], head, rest, rfl, by simp, fits, by simp [serve, fits]⟩
    · rcases ih with ⟨none, all⟩ | ⟨left, block, right, rfl, before, found, served⟩
      · exact .inl ⟨by simp [serve, fits, none], List.forall_mem_cons.mpr ⟨fits, all⟩⟩
      · exact .inr ⟨head :: left, block, right, rfl, List.forall_mem_cons.mpr ⟨fits, before⟩,
          found, by simp [serve, fits, served]⟩

/-- The parts of a carved block lie in order within it. -/
theorem Block.carve_ordered (fits : block.Fits n) :
    Ordered block.addr (block.carve n) block.finish := by
  have room := fits.2
  unfold Block.carve
  split
  · exact ⟨Nat.le_refl _, Nat.le_refl _⟩
  · simp only [Ordered, Block.finish, Block.size_mk, List.length_replicate]
    omega

/-- Serving keeps the blocks in order. -/
theorem serve_ordered {served : List Block} (ordered : Ordered low blocks high)
    (found : serve n blocks = some (p, served)) : Ordered low served high := by
  rcases serve_cases n blocks with ⟨none, _⟩ | ⟨left, block, right, rfl, _, fits, some⟩
  · simp [none] at found
  · obtain ⟨rfl, rfl⟩ : block.payload = p ∧ left ++ block.carve n ++ right = served := by
      simpa [some] using found
    obtain ⟨before, after⟩ := ordered.split
    rw [List.append_assoc]
    exact before.append ((Block.carve_ordered fits).append after.2)

/-- Serving leaves no two free neighbours: what is split off lies behind a used block and before
the block that followed a free one. -/
theorem serve_coalesced {served : List Block} (coalesced : Coalesced blocks)
    (found : serve n blocks = some (p, served)) : Coalesced served := by
  rcases serve_cases n blocks with ⟨none, _⟩ | ⟨left, block, right, rfl, _, fits, some⟩
  · simp [none] at found
  · obtain ⟨rfl, rfl⟩ : block.payload = p ∧ left ++ block.carve n ++ right = served := by
      simpa [some] using found
    have free := fits.1
    unfold Coalesced at coalesced ⊢
    unfold Block.carve
    rw [List.isChain_append] at coalesced
    obtain ⟨before, after, seam⟩ := coalesced
    rw [List.append_assoc, List.isChain_append]
    split
    · refine ⟨before, ?_, ?_⟩
      · cases right with
        | nil => simp
        | cons next right =>
          rw [List.isChain_cons_cons] at after
          simp [Block.NotBothFree, after.2]
      · simp [Block.NotBothFree]
    · refine ⟨before, ?_, by simp [Block.NotBothFree]⟩
      cases right with
      | nil => simp [Block.NotBothFree]
      | cons next right =>
        rw [List.isChain_cons_cons] at after
        have used : next.free = false := by simpa [Block.NotBothFree, free] using after.1
        simp [Block.NotBothFree, used, after.2]

/-- The used block that a request is served with: the first part of the carved block. -/
def Block.taken (n : Nat) (block : Block) : Block :=
  if block.size = n + blockSize then { block with free := false }
  else ⟨block.addr, false, List.replicate n 0⟩

/-- The used blocks after serving are those before and the one handed out. -/
theorem mem_serve_used {served : List Block} (found : serve n blocks = some (p, served)) :
    ∃ block ∈ blocks, block.free = true ∧ n + blockSize ≤ block.size ∧ block.payload = p ∧
      ∀ other : Block, other.free = false →
        (other ∈ served ↔ other = block.taken n ∨ other ∈ blocks) := by
  rcases serve_cases n blocks with ⟨none, _⟩ | ⟨left, block, right, rfl, _, fits, some⟩
  · simp [none] at found
  · obtain ⟨rfl, rfl⟩ : block.payload = p ∧ left ++ block.carve n ++ right = served := by
      simpa [some] using found
    refine ⟨block, by simp, fits.1, fits.2, rfl, fun other used => ?_⟩
    have notBlock : other ≠ block := by
      rintro rfl
      simp [fits.1] at used
    have part : other ∈ block.carve n ↔ other = block.taken n := by
      unfold Block.carve Block.taken
      split
      · simp
      · have notRest : other ≠ ⟨block.addr + n + blockSize, true,
            List.replicate (block.size - n - blockSize) 0⟩ := by
          rintro rfl
          contradiction
        simp [notRest]
    simp only [List.mem_append, List.mem_cons, part, notBlock, false_or]
    tauto

/-! ## Releasing -/

/-- Joining keeps the blocks in order. -/
theorem joinNext_ordered (lower : low ≤ block.addr) (rest : Ordered block.finish blocks high) :
    Ordered low (joinNext block blocks) high := by
  cases blocks with
  | nil => exact ⟨lower, rest⟩
  | cons next blocks =>
    rw [joinNext]
    split
    · refine ⟨lower, rest.2.widen ?_ (Nat.le_refl _)⟩
      have start := rest.1
      unfold Block.finish at start ⊢
      rw [Block.merge_addr, Block.merge_size]
      omega
    · exact ⟨lower, rest⟩

/-- Joining leaves no two free neighbours. -/
theorem joinNext_coalesced (rest : Coalesced blocks) : Coalesced (joinNext block blocks) := by
  cases blocks with
  | nil => exact .singleton _
  | cons next blocks =>
    rw [joinNext]
    split
    · rename_i both
      cases blocks with
      | nil => exact .singleton _
      | cons second blocks =>
        obtain ⟨apart, tail⟩ := List.isChain_cons_cons.mp rest
        exact List.isChain_cons_cons.mpr ⟨fun free => apart ⟨both.2, free.2⟩, tail⟩
    · rename_i notBoth
      exact List.isChain_cons_cons.mpr ⟨notBoth, rest⟩

/-- A joined list starts where its first block does, and is free there when that block is. -/
theorem joinNext_head (block : Block) (rest : List Block) :
    ∃ head tail, joinNext block rest = head :: tail ∧ head.addr = block.addr ∧
      head.free = block.free := by
  cases rest with
  | nil => exact ⟨block, [], rfl, rfl, rfl⟩
  | cons next rest =>
    by_cases both : block.free = true ∧ next.free = true
    · exact ⟨block.merge next, rest, by simp [joinNext, both], rfl, by simp [both.1]⟩
    · exact ⟨block, next :: rest, by simp [joinNext, both], rfl, rfl⟩

/-- The used blocks of a joined list are those of its parts. -/
theorem mem_joinNext_used {other : Block} (used : other.free = false) :
    other ∈ joinNext block blocks ↔ other = block ∨ other ∈ blocks := by
  cases blocks with
  | nil => simp [joinNext]
  | cons next rest =>
    rw [joinNext]
    split
    · rename_i both
      have notFree : ∀ candidate : Block, candidate.free = true → other ≠ candidate := by
        rintro _ free rfl
        simp [free] at used
      simp [notFree _ both.1, notFree _ both.2, notFree (block.merge next) rfl]
    · simp

/-- Joining a free block to a free one before it or after it first comes to the same. -/
theorem joinNext_merge (free : block.free = true) (nextFree : next.free = true) :
    joinNext (block.merge next) blocks = joinNext block (joinNext next blocks) := by
  cases blocks with
  | nil => simp [joinNext, free, nextFree]
  | cons third blocks =>
    by_cases thirdFree : third.free = true
    · simp [joinNext, free, nextFree, thirdFree, Block.merge_assoc]
    · simp [joinNext, free, nextFree, thirdFree]

/-- A used block is joined with nothing. -/
theorem joinNext_used (used : block.free = false) : joinNext block blocks = block :: blocks := by
  cases blocks <;> simp [joinNext, used]

/-- Releasing keeps the blocks in order. -/
theorem release_ordered (ordered : Ordered low blocks high) :
    Ordered low (release p blocks) high := by
  induction blocks generalizing low with
  | nil => exact ordered
  | cons block rest ih =>
    unfold release
    split
    · exact joinNext_ordered ordered.1 ordered.2
    · exact joinNext_ordered ordered.1 (ih ordered.2)

/-- Releasing leaves no two free neighbours. -/
theorem release_coalesced (coalesced : Coalesced blocks) : Coalesced (release p blocks) := by
  induction blocks with
  | nil => exact coalesced
  | cons block rest ih =>
    have tail : Coalesced rest := coalesced.tail
    unfold release
    split
    · exact joinNext_coalesced tail
    · exact joinNext_coalesced (ih tail)

/-- The used blocks after releasing are those before but the released one. -/
theorem mem_release_used {other : Block} (ordered : Ordered low blocks high)
    (used : other.free = false) :
    other ∈ release p blocks ↔ other ∈ blocks ∧ other.payload ≠ p := by
  induction blocks generalizing low with
  | nil => simp [release]
  | cons block rest ih =>
    have notFreed : other ≠ { block with free := true } := by
      rintro rfl
      contradiction
    unfold release
    split
    · rename_i here
      have later : ∀ next ∈ rest, next.payload ≠ p := by
        intro next member same
        have eq := ordered.payload_inj List.mem_cons_self (List.mem_cons_of_mem _ member)
          (here.trans same.symm)
        have := (ordered.2.mem member).1
        unfold Block.finish blockSize at this
        rw [eq] at this
        omega
      rw [mem_joinNext_used used, List.mem_cons]
      constructor
      · rintro (freed | member)
        · contradiction
        · exact ⟨.inr member, later other member⟩
      · rintro ⟨rfl | member, away⟩
        · contradiction
        · exact .inr member
    · rename_i away
      rw [mem_joinNext_used used, List.mem_cons, ih ordered.2]
      constructor
      · rintro (rfl | ⟨member, apart⟩)
        · exact ⟨.inl rfl, away⟩
        · exact ⟨.inr member, apart⟩
      · rintro ⟨rfl | member, apart⟩
        · exact .inl rfl
        · exact .inr ⟨member, apart⟩

/-- Releasing the first block joins it with what follows. -/
theorem release_first (block : Block) (rest : List Block) :
    release block.payload (block :: rest) = joinNext { block with free := true } rest :=
  if_pos rfl

/-- Releasing a block joins it with what follows and then with the block before it; the blocks
further left stay as they are, since none of them is free beside a free one. -/
theorem release_after {prev : Block} (coalesced : Coalesced (left ++ [prev]))
    (away : ∀ other ∈ left ++ [prev], other.payload ≠ block.payload) :
    release block.payload (left ++ prev :: block :: right) =
      left ++ joinNext prev (joinNext { block with free := true } right) := by
  induction left with
  | nil =>
    have prevAway : prev.payload ≠ block.payload := away prev (by simp)
    simp [release, prevAway]
  | cons head rest ih =>
    have headAway : head.payload ≠ block.payload := away head (by simp)
    have tail := ih coalesced.tail fun other member => away other (List.mem_cons_of_mem _ member)
    rw [List.cons_append, release, if_neg headAway, tail]
    cases rest with
    | nil =>
      have apart : head.NotBothFree prev := (List.isChain_cons_cons.mp coalesced).1
      obtain ⟨first, others, same, _, free⟩ :=
        joinNext_head prev (joinNext { block with free := true } right)
      rw [List.nil_append, same, joinNext, free, if_neg apart]
      rfl
    | cons second rest =>
      have apart : head.NotBothFree second := (List.isChain_cons_cons.mp coalesced).1
      exact if_neg apart

/-- Releasing a block of an ordered list without free neighbours, by the two joins it comes to. -/
theorem release_second {prev : Block}
    (ordered : Ordered low (left ++ prev :: block :: right) high)
    (coalesced : Coalesced (left ++ prev :: block :: right)) :
    release block.payload (left ++ prev :: block :: right) =
      left ++ joinNext prev (joinNext { block with free := true } right) := by
  have shift : left ++ prev :: block :: right = (left ++ [prev]) ++ block :: right := by simp
  have pairs := ordered.pairwise
  rw [shift] at coalesced pairs
  apply release_after coalesced.left_of_append
  intro other member same
  have apart := (List.pairwise_append.mp pairs).2.2 other member block List.mem_cons_self
  unfold Block.finish blockSize at apart
  unfold Block.payload at same
  omega

/-! ## Overwriting -/

/-- Overwriting a payload byte changes no size. -/
theorem size_set (block : Block) (index : Nat) (byte : UInt8) :
    ({ block with data := block.data.set index byte } : Block).size = block.size := by
  simp [Block.size]

/-- Overwriting keeps the blocks in order. -/
theorem overwrite_ordered (ordered : Ordered low blocks high) :
    Ordered low (overwrite p index byte blocks) high := by
  induction blocks generalizing low with
  | nil => exact ordered
  | cons block rest ih =>
    rw [overwrite, List.map_cons]
    split
    · refine ⟨ordered.1, ?_⟩
      rw [Block.finish, size_set]
      exact ih ordered.2
    · exact ⟨ordered.1, ih ordered.2⟩

/-- Overwriting leaves no two free neighbours. -/
theorem overwrite_coalesced (coalesced : Coalesced blocks) :
    Coalesced (overwrite p index byte blocks) := by
  have same : ∀ block : Block, (if block.payload = p then
      { block with data := block.data.set index byte } else block).free = block.free := by
    intro block
    split <;> rfl
  rw [Coalesced, overwrite, List.isChain_map]
  simp only [Block.NotBothFree, same]
  exact coalesced

/-! ## Arenas -/

/-- The blocks between a base address and a break, in order and coalesced. -/
structure Arena (base : Nat) where
  /-- The blocks, in list order. -/
  blocks : List Block
  /-- The program break. -/
  brk : Nat
  /-- List order is address order, and no block reaches past the break. -/
  ordered : Ordered base blocks brk
  /-- No two neighbours are both free. -/
  coalesced : Coalesced blocks

namespace Arena

variable {base : Nat}

/-- The arena before the first request. -/
def empty (base : Nat) : Arena base := ⟨[], base, Nat.le_refl _, .nil⟩

/-- Append a used block of `n` zero bytes at the break. -/
def extend (arena : Arena base) (n : Nat) : Arena base where
  blocks := arena.blocks ++ [⟨arena.brk, false, List.replicate n 0⟩]
  brk := arena.brk + blockSize + n
  ordered := arena.ordered.append ⟨Nat.le_refl _, by simp [Ordered, Block.finish]⟩
  coalesced := List.isChain_append.mpr
    ⟨arena.coalesced, .singleton _, by simp [Block.NotBothFree]⟩

/-- Hand out a payload of at least `n` bytes: from the first block that fits, else from a new
block at the break. -/
def malloc (arena : Arena base) (n : Nat) : Nat × Arena base :=
  match found : serve n arena.blocks with
  | some (p, blocks) =>
    (p, { arena with
          blocks
          ordered := serve_ordered arena.ordered found
          coalesced := serve_coalesced arena.coalesced found })
  | none => (arena.brk + blockSize, arena.extend n)

/-- Take a payload back. -/
def free (arena : Arena base) (p : Nat) : Arena base where
  blocks := release p arena.blocks
  brk := arena.brk
  ordered := release_ordered arena.ordered
  coalesced := release_coalesced arena.coalesced

/-- Overwrite one byte of a payload. -/
def write (arena : Arena base) (p index : Nat) (byte : UInt8) : Arena base where
  blocks := overwrite p index byte arena.blocks
  brk := arena.brk
  ordered := overwrite_ordered arena.ordered
  coalesced := overwrite_coalesced arena.coalesced

/-- Let the break rise by itself. -/
def raise (arena : Arena base) (amount : Nat) : Arena base where
  blocks := arena.blocks
  brk := arena.brk + amount
  ordered := arena.ordered.widen (Nat.le_refl _) (Nat.le_add_right _ _)
  coalesced := arena.coalesced

/-- A request that some block fits is served from it, with the break unmoved. -/
theorem malloc_of_some {arena : Arena base} (found : serve n arena.blocks = some (p, blocks)) :
    (arena.malloc n).1 = p ∧ (arena.malloc n).2.blocks = blocks ∧
      (arena.malloc n).2.brk = arena.brk := by
  unfold malloc
  split
  · rename_i q served same
    obtain ⟨rfl, rfl⟩ : q = p ∧ served = blocks := by simpa [found] using same.symm
    exact ⟨rfl, rfl, rfl⟩
  · simp_all

/-- A request that no block fits extends the arena. -/
theorem malloc_of_none {arena : Arena base} (found : serve n arena.blocks = none) :
    arena.malloc n = (arena.brk + blockSize, arena.extend n) := by
  unfold malloc
  split
  · simp_all
  · rfl

/-- The block handed out by a request is a used block of at least the requested size at a payload
address that no used block had; all other used blocks stay, and no others appear. -/
theorem malloc_used (arena : Arena base) (n : Nat) :
    ∃ new : Block, new.free = false ∧ new.payload = (arena.malloc n).1 ∧ n ≤ new.size ∧
      (∀ other ∈ arena.blocks, other.free = false → other.payload ≠ new.payload) ∧
      ∀ other : Block, other.free = false →
        (other ∈ (arena.malloc n).2.blocks ↔ other = new ∨ other ∈ arena.blocks) := by
  cases found : serve n arena.blocks with
  | none =>
    rw [malloc_of_none found]
    refine ⟨⟨arena.brk, false, List.replicate n 0⟩, rfl, rfl, by simp, ?_, ?_⟩
    · intro other member _ same
      have top := (arena.ordered.mem member).2
      change other.addr + blockSize = arena.brk + blockSize at same
      unfold Block.finish blockSize at top
      omega
    · intro other _
      simp [extend, or_comm]
  | some result =>
    obtain ⟨p, blocks⟩ := result
    obtain ⟨handed, blocksIs, _⟩ := malloc_of_some found
    obtain ⟨block, member, free, room, payload, used⟩ := mem_serve_used found
    have taken : (block.taken n).free = false ∧ (block.taken n).addr = block.addr ∧
        n ≤ (block.taken n).size := by
      unfold Block.taken
      split
      · exact ⟨rfl, rfl, Nat.le_trans (Nat.le_add_right _ _) room⟩
      · exact ⟨rfl, rfl, by simp⟩
    refine ⟨block.taken n, taken.1, ?_, taken.2.2, ?_, ?_⟩
    · rw [handed, ← payload, Block.payload, taken.2.1, Block.payload]
    · intro other inside otherUsed same
      have payloadSame : other.payload = block.payload := by
        rw [same, Block.payload, taken.2.1, Block.payload]
      have eq := arena.ordered.payload_inj inside member payloadSame
      rw [eq, free] at otherUsed
      contradiction
    · intro other otherUsed
      rw [blocksIs]
      exact used other otherUsed

end Arena

end OsAssignments.MmAlloc
