import OsAssignments.MmAlloc.Clearing

/-!
# Sharing the break with other code

The program break belongs to the whole process: a `printf` between two allocator calls may raise
it too, and then two blocks of the list are neighbours without touching in memory. A shared
process is a session with the ranges that `extend_heap` has obtained; other code raises the break
and writes outside those ranges. The blocks cover exactly the ranges obtained as long as `mm_free`
is never called on a block that has a free neighbour on the list that it does not touch, since
`fusion` looks at the links alone.
-/

namespace OsAssignments.MmAlloc

open ByteMemory LinkedList Transition

/-- A session and the address ranges that its `extend_heap` calls obtained from `sbrk`. -/
structure Shared where
  /-- The session. -/
  session : Session
  /-- The ranges obtained, each with its first address and the first address behind it. -/
  obtained : List (Nat × Nat)

/-- An address is in a range that `extend_heap` obtained. -/
def Shared.Owns (shared : Shared) (address : Nat) : Prop :=
  ∃ range ∈ shared.obtained, range.1 ≤ address ∧ address < range.2

/-- What happens in a shared process. -/
inductive Move
  /-- The client of the allocator acts. -/
  | own (event : Event)
  /-- Other code raises the break. -/
  | other (amount : Nat)
  deriving DecidableEq

/-- One action in a shared process. -/
inductive Shared.Step : Shared → Move → Shared → Prop
  /-- The client acts; what the break moves by meanwhile was obtained by `extend_heap`. -/
  | own {session after : Session} {event : Event} {obtained : List (Nat × Nat)}
      (taken : MmAlloc.Step session event after) :
      Step ⟨session, obtained⟩ (.own event)
        ⟨after, (session.process.brk, after.process.brk) :: obtained⟩
  /-- Other code raises the break, and leaves every byte alone that it does not own. -/
  | other {shared : Shared} {memory : ByteMemory} {amount : Nat}
      (fits : shared.session.process.brk + amount < 2 ^ 64)
      (kept : ∀ address, shared.Owns address →
        memory address = shared.session.process.memory address) :
      Step shared (.other amount)
        ⟨{ shared.session with
            process := { shared.session.process with
              memory, brk := shared.session.process.brk + amount } }, shared.obtained⟩

/-- Every byte of every block met from `block_list_head` was obtained by `extend_heap`. -/
def AllOwned (shared : Shared) : Prop :=
  let process := shared.session.process
  ∀ b, Visits null (nextOf process.memory) process.blockListHead b →
    ∀ address, b ≤ address → address < b + blockSize + sizeOf process.memory b →
      shared.Owns address

/-- A block about to be freed touches its free neighbours. -/
def TouchesFree (process : Process) (b : Nat) : Prop :=
  (nextOf process.memory b ≠ null → freeOf process.memory (nextOf process.memory b) ≠ 0 →
    nextOf process.memory b = b + blockSize + sizeOf process.memory b) ∧
  (prevOf process.memory b ≠ null → freeOf process.memory (prevOf process.memory b) ≠ 0 →
    b = prevOf process.memory b + blockSize + sizeOf process.memory (prevOf process.memory b))

/-- Every `mm_free` is of a block that touches its free neighbours. -/
def FreesTouching (before : Shared) : Move → Shared → Prop
  | .own (.free p), _ => TouchesFree before.session.process (getBlock p)
  | _, _ => True

variable {base low high n p address : Nat} {byte : UInt8} {index : Nat} {block next prev : Block}
  {blocks left right served : List Block} {arena : Arena base} {shared after start : Shared}
  {process : Process} {run : List (Move × Shared)}

/-! ## Covered addresses -/

/-- An address lies in one of some blocks. -/
def Covers (blocks : List Block) (address : Nat) : Prop :=
  ∃ block ∈ blocks, block.addr ≤ address ∧ address < block.finish

theorem covers_cons : Covers (block :: blocks) address ↔
    (block.addr ≤ address ∧ address < block.finish) ∨ Covers blocks address := by
  simp [Covers]

theorem covers_append :
    Covers (left ++ right) address ↔ Covers left address ∨ Covers right address := by
  simp [Covers, or_and_right, exists_or]

/-- The parts of a carved block cover what the block did. -/
theorem carve_covers (fits : block.Fits n) :
    Covers (block.carve n) address ↔ block.addr ≤ address ∧ address < block.finish := by
  have room := fits.2
  unfold Block.carve
  split
  · simp [Covers, Block.finish, Block.size]
  · simp only [Covers, List.mem_cons, List.not_mem_nil, or_false, exists_eq_or_imp,
      exists_eq_left, Block.finish, Block.size_mk, List.length_replicate]
    omega

/-- Serving a request covers the same addresses. -/
theorem serve_covers (found : serve n blocks = some (p, served)) :
    Covers served address ↔ Covers blocks address := by
  obtain ⟨none, _⟩ | ⟨left, block, right, rfl, _, fits, some⟩ := serve_cases n blocks
  · simp [none] at found
  · obtain ⟨rfl, rfl⟩ : block.payload = p ∧ left ++ block.carve n ++ right = served := by
      simpa [some] using found
    rw [List.append_assoc, covers_append, covers_append, covers_append, covers_cons,
      carve_covers fits]

/-- A request adds to the addresses covered what it moves the break by. -/
theorem Arena.malloc_covers : Covers (arena.malloc n).2.blocks address ↔
    (arena.brk ≤ address ∧ address < (arena.malloc n).2.brk) ∨ Covers arena.blocks address := by
  cases found : serve n arena.blocks with
  | none =>
    rw [Arena.malloc_of_none found]
    simp only [Arena.extend, covers_append, covers_cons, Block.finish, Block.size_mk,
      List.length_replicate]
    simp [Covers, or_comm]
  | some result =>
    obtain ⟨p, served⟩ := result
    obtain ⟨_, blocksIs, brkIs⟩ := Arena.malloc_of_some found
    rw [blocksIs, brkIs, serve_covers found]
    constructor
    · exact .inr
    · rintro (moved | covered)
      · omega
      · exact covered

/-- Overwriting a payload byte covers the same addresses. -/
theorem overwrite_covers : Covers (overwrite p index byte blocks) address ↔
    Covers blocks address := by
  induction blocks with
  | nil => rfl
  | cons block rest ih =>
    have tail : Covers (List.map _ rest) address ↔ Covers rest address := ih
    rw [overwrite, List.map_cons, covers_cons, covers_cons, tail]
    split
    · rw [Block.finish, size_set, Block.finish]
    · rfl

/-! ## Merging neighbours -/

/-- Joining covers the same addresses when what it merges touches. -/
theorem joinNext_covers (touching : ∀ next ∈ blocks.head?, block.free = true → next.free = true →
    next.addr = block.finish) :
    Covers (joinNext block blocks) address ↔ Covers (block :: blocks) address := by
  cases blocks with
  | nil => rfl
  | cons next rest =>
    rw [joinNext]
    split
    · rename_i both
      have touch := touching next rfl both.1 both.2
      rw [covers_cons, covers_cons, covers_cons, ← or_assoc]
      unfold Block.finish at *
      rw [Block.merge_addr, Block.merge_size]
      exact or_congr_left (by omega)
    · rfl

/-- Merging two blocks covers the address behind the first, whether it was covered or not. -/
theorem joinNext_covers_finish (free : block.free = true) (nextFree : next.free = true) :
    Covers (joinNext block (next :: right)) block.finish := by
  rw [joinNext, if_pos ⟨free, nextFree⟩, covers_cons]
  unfold Block.finish blockSize
  rw [Block.merge_addr, Block.merge_size]
  unfold blockSize
  exact .inl (by omega)

/-- The address behind a block is not covered when the next block does not start there. -/
theorem Ordered.gap (ordered : Ordered low (left ++ block :: next :: right) high)
    (apart : next.addr ≠ block.finish) : ¬ Covers (left ++ block :: next :: right) block.finish := by
  obtain ⟨before, _, behind⟩ := ordered.split
  have above := behind.1
  rintro ⟨other, member, lower, upper⟩
  rcases List.mem_append.mp member with inLeft | inRight
  · have below := (before.mem inLeft).2
    unfold Block.finish at *
    omega
  · rcases List.mem_cons.mp inRight with rfl | later
    · omega
    · have behindNext : next.addr ≤ other.addr := by
        rcases List.mem_cons.mp later with rfl | later
        · exact Nat.le_refl _
        · have start := (behind.2.mem later).1
          unfold Block.finish at start
          omega
      omega

/-- A block touches its free neighbours in a list. -/
structure Touching (left : List Block) (block : Block) (right : List Block) : Prop where
  /-- A free block behind it starts where it ends. -/
  next : ∀ next ∈ right.head?, next.free = true → next.addr = block.finish
  /-- A free block before it ends where it starts. -/
  prev : ∀ prev ∈ left.getLast?, prev.free = true → block.addr = prev.finish

/-- Freeing a block that touches the free block before it covers what lies before it and what it
is joined with behind it. -/
theorem release_covers_parts (ordered : Ordered low (left ++ block :: right) high)
    (coalesced : Coalesced (left ++ block :: right))
    (touch : ∀ prev ∈ left.getLast?, prev.free = true → block.addr = prev.finish) :
    Covers (release block.payload (left ++ block :: right)) address ↔
      Covers left address ∨ Covers (joinNext { block with free := true } right) address := by
  rcases List.eq_nil_or_concat left with rfl | ⟨front, prev, rfl⟩
  · rw [List.nil_append, release_first]
    simp [Covers]
  · rw [List.concat_eq_append] at *
    have shift : front ++ [prev] ++ block :: right = front ++ prev :: block :: right := by simp
    rw [shift] at ordered coalesced ⊢
    obtain ⟨head, tail, joined, addr, _⟩ := joinNext_head { block with free := true } right
    have touchJoined : ∀ next ∈ (joinNext { block with free := true } right).head?,
        prev.free = true → next.free = true → next.addr = prev.finish := by
      intro next isHead prevFree _
      rw [joined, List.head?_cons, Option.mem_some_iff] at isHead
      rw [← isHead, addr]
      exact touch prev (by simp) prevFree
    rw [release_second ordered coalesced, covers_append, joinNext_covers touchJoined, covers_cons,
      covers_append, or_assoc]
    simp [Covers]

/-- Freeing a block that touches its free neighbours covers the same addresses. -/
theorem release_covers (ordered : Ordered low (left ++ block :: right) high)
    (coalesced : Coalesced (left ++ block :: right)) (touching : Touching left block right) :
    Covers (release block.payload (left ++ block :: right)) address ↔
      Covers (left ++ block :: right) address := by
  have touch : ∀ next ∈ right.head?, ({ block with free := true } : Block).free = true →
      next.free = true → next.addr = ({ block with free := true } : Block).finish :=
    fun next isHead _ nextFree => touching.next next isHead nextFree
  rw [release_covers_parts ordered coalesced touching.prev, joinNext_covers touch, covers_append,
    covers_cons, covers_cons]
  rfl

/-- Freeing a block that misses a free neighbour covers an address that was not covered. -/
theorem release_covers_more (ordered : Ordered low (left ++ block :: right) high)
    (coalesced : Coalesced (left ++ block :: right)) (missing : ¬ Touching left block right) :
    ∃ address, Covers (release block.payload (left ++ block :: right)) address ∧
      ¬ Covers (left ++ block :: right) address := by
  by_cases touch : ∀ prev ∈ left.getLast?, prev.free = true → block.addr = prev.finish
  · -- The free block behind lies further up: the joined block reaches into the gap.
    have nextMissing : ¬ ∀ next ∈ right.head?, next.free = true → next.addr = block.finish :=
      fun nextTouch => missing ⟨nextTouch, touch⟩
    push Not at nextMissing
    obtain ⟨next, isHead, nextFree, apart⟩ := nextMissing
    obtain ⟨rest, rfl⟩ := List.head?_eq_some_iff.mp isHead
    refine ⟨block.finish, (release_covers_parts ordered coalesced touch).mpr (.inr ?_),
      ordered.gap apart⟩
    exact @joinNext_covers_finish { block with free := true } next rest rfl nextFree
  · -- The free block before ends further down: joining it reaches into the gap.
    push Not at touch
    obtain ⟨prev, isLast, prevFree, apart⟩ := touch
    obtain ⟨front, rfl⟩ := List.getLast?_eq_some_iff.mp isLast
    have shift : front ++ [prev] ++ block :: right = front ++ prev :: block :: right := by simp
    rw [shift] at ordered coalesced ⊢
    obtain ⟨head, tail, joined, _, free⟩ := joinNext_head { block with free := true } right
    refine ⟨prev.finish, ?_, ordered.gap apart⟩
    rw [release_second ordered coalesced, covers_append, joined]
    exact .inr (joinNext_covers_finish prevFree free)

/-! ## Runs -/

/-- The blocks of a represented arena touch their free neighbours in memory as they do on the
list. -/
theorem Represents.touching_iff (rep : Represents process arena)
    (same : arena.blocks = left ++ block :: right) :
    TouchesFree process block.addr ↔ Touching left block right := by
  have segment := rep.segment
  have stored := segment.stored
  have free : ∀ other ∈ arena.blocks, freeOf process.memory other.addr ≠ 0 ↔ other.free = true := by
    intro other member
    rw [freeOf, (stored other member).free]
    cases other.free <;> simp
  have size : ∀ other ∈ arena.blocks, other.addr + blockSize + sizeOf process.memory other.addr =
      other.finish := by
    intro other member
    rw [sizeOf, (stored other member).size]
    rfl
  have here : block ∈ arena.blocks := by simp [same]
  have inRight : ∀ next ∈ right, next ∈ arena.blocks := by
    intro next member
    simp [same, member]
  have inLeft : ∀ prev ∈ left, prev ∈ arena.blocks := by
    intro prev member
    simp [same, member]
  rw [same] at segment
  obtain ⟨_, back, front, _⟩ := segment_cons.mp (segment_append.mp segment).2
  unfold TouchesFree
  rw [front, back, size block here]
  constructor
  · rintro ⟨nextTouch, prevTouch⟩
    refine ⟨fun next isHead nextFree => ?_, fun prev isLast prevFree => ?_⟩
    · obtain ⟨rest, rfl⟩ := List.head?_eq_some_iff.mp isHead
      have member := inRight next List.mem_cons_self
      exact nextTouch (rep.proper member) ((free next member).mpr nextFree)
    · obtain ⟨rest, rfl⟩ := List.getLast?_eq_some_iff.mp isLast
      have member := inLeft prev (by simp)
      have lastIs : last null (addrs (rest ++ [prev])) = prev.addr := by simp
      rw [lastIs, size prev member] at prevTouch
      exact prevTouch (rep.proper member) ((free prev member).mpr prevFree)
  · rintro ⟨nextTouch, prevTouch⟩
    refine ⟨fun proper nextFree => ?_, fun proper prevFree => ?_⟩
    · cases right with
      | nil => exact absurd rfl proper
      | cons next rest =>
        exact nextTouch next rfl ((free next (inRight next List.mem_cons_self)).mp nextFree)
    · rcases List.eq_nil_or_concat left with rfl | ⟨rest, prev, rfl⟩
      · exact absurd rfl proper
      · rw [List.concat_eq_append] at *
        have member := inLeft prev (by simp)
        have lastIs : last null (addrs (rest ++ [prev])) = prev.addr := by simp
        rw [lastIs] at prevFree ⊢
        rw [size prev member]
        exact prevTouch prev (by simp) ((free prev member).mp prevFree)

/-- The session tracks an arena whose blocks cover exactly what was obtained. -/
def Exact (base : Nat) (shared : Shared) : Prop :=
  ∃ arena : Arena base, Tracks shared.session arena ∧
    ∀ address, shared.Owns address ↔ Covers arena.blocks address

/-- An address is obtained after a client's action when the break moved over it or it was before. -/
theorem owns_cons (session after : Session) {obtained : List (Nat × Nat)} {low high : Nat} :
    (Shared.mk after ((low, high) :: obtained)).Owns address ↔
      (low ≤ address ∧ address < high) ∨ (Shared.mk session obtained).Owns address := by
  simp [Shared.Owns]

/-- When the blocks cover exactly what was obtained, every byte of theirs was. -/
theorem Exact.allOwned (exact : Exact base shared) : AllOwned shared := by
  obtain ⟨arena, tracks, covered⟩ := exact
  have represents := tracks.represents
  intro b visit address above below
  rw [covered]
  rw [represents.head] at visit
  have proper : ∀ addr ∈ addrs arena.blocks, addr ≠ null := by
    intro addr member
    obtain ⟨block, inside, rfl⟩ := List.mem_map.mp member
    exact represents.proper inside
  have listed := (visits_chain_iff represents.segment.links proper).mp visit
  obtain ⟨block, member, rfl⟩ := List.mem_map.mp listed
  rw [sizeOf, (represents.segment.stored block member).size] at below
  exact ⟨block, member, above, below⟩

/-- Before the first call nothing is obtained and no block is there. -/
theorem Initial.exact {session : Session} (initial : Initial session) :
    Exact session.process.brk ⟨session, []⟩ := by
  refine ⟨_, initial.tracks, fun address => ?_⟩
  simp [Shared.Owns, Covers, Arena.empty]

/-- The block of a pointer that is freed, in its place on the list. -/
theorem Tracks.freed {session after : Session} (tracks : Tracks session arena)
    (taken : MmAlloc.Step session (.free p) after) :
    ∃ left block right, arena.blocks = left ++ block :: right ∧ block.payload = p ∧
      getBlock p = block.addr := by
  cases taken with
  | free isLive returned =>
    obtain ⟨block, member, _, rfl, _⟩ := tracks.blockOf isLive
    obtain ⟨left, right, same⟩ := List.append_of_mem member
    exact ⟨left, block, right, same, rfl, tracks.represents.getBlock member⟩

/-- A client's action keeps the cover exact, when a block it frees touches its free neighbours. -/
theorem Exact.own {session after : Session} {event : Event} {obtained : List (Nat × Nat)}
    (exact : Exact base ⟨session, obtained⟩) (taken : MmAlloc.Step session event after)
    (touching : ∀ p, event = .free p → TouchesFree session.process (getBlock p)) :
    Exact base ⟨after, (session.process.brk, after.process.brk) :: obtained⟩ := by
  obtain ⟨arena, tracks, covered⟩ := exact
  have tracks' := tracks.step taken
  refine ⟨_, tracks', fun address => ?_⟩
  rw [owns_cons session after, covered address, tracks.represents.brk, tracks'.represents.brk]
  cases event with
  | malloc size padding p => exact Arena.malloc_covers.symm
  | free p =>
    obtain ⟨left, block, right, same, rfl, header⟩ := tracks.freed taken
    have touch := touching _ rfl
    rw [header, tracks.represents.touching_iff same] at touch
    have ordered := arena.ordered
    have coalesced := arena.coalesced
    simp only [Arena.after, Arena.free]
    rw [same] at ordered coalesced ⊢
    rw [release_covers ordered coalesced touch]
    exact or_iff_right (by omega)
  | write p index byte =>
    simp only [Arena.after, Arena.write]
    rw [overwrite_covers]
    exact or_iff_right (by omega)

/-- Other code that raises the break leaves the cover exact. -/
theorem Exact.other {memory : ByteMemory} {amount : Nat} (exact : Exact base shared)
    (fits : shared.session.process.brk + amount < 2 ^ 64)
    (kept : ∀ address, shared.Owns address →
      memory address = shared.session.process.memory address) :
    Exact base ⟨{ shared.session with
      process := { shared.session.process with
        memory, brk := shared.session.process.brk + amount } }, shared.obtained⟩ := by
  obtain ⟨arena, tracks, covered⟩ := exact
  obtain ⟨represents, sound, complete⟩ := tracks
  have brk := represents.brk
  have segment : Segment memory null arena.blocks null := by
    apply represents.segment.congr
    intro block member address above below
    exact kept address ((covered address).mpr ⟨block, member, above, below⟩)
  refine ⟨arena.raise amount, ⟨⟨represents.head, ?_, segment, represents.positive, ?_⟩, sound,
    complete⟩, covered⟩
  · exact congrArg (· + amount) brk
  · rw [brk] at fits
    exact fits

/-- Freeing a block that misses a free neighbour leaves a block with a byte not obtained. -/
theorem Exact.not_allOwned {session after : Session} {obtained : List (Nat × Nat)}
    (exact : Exact base ⟨session, obtained⟩) (taken : MmAlloc.Step session (.free p) after)
    (missing : ¬ TouchesFree session.process (getBlock p)) :
    ¬ AllOwned ⟨after, (session.process.brk, after.process.brk) :: obtained⟩ := by
  obtain ⟨arena, tracks, covered⟩ := exact
  have tracks' := tracks.step taken
  have represents := tracks'.represents
  obtain ⟨left, block, right, same, rfl, header⟩ := tracks.freed taken
  rw [header, tracks.represents.touching_iff same] at missing
  have ordered := arena.ordered
  have coalesced := arena.coalesced
  rw [same] at ordered coalesced
  obtain ⟨address, covers, notCovers⟩ := release_covers_more ordered coalesced missing
  rw [← same] at covers notCovers
  obtain ⟨merged, member, above, below⟩ := covers
  have member' : merged ∈ (arena.after (.free block.payload)).blocks := member
  intro allOwned
  have proper : ∀ addr ∈ addrs (arena.after (.free block.payload)).blocks, addr ≠ null := by
    intro addr listed
    obtain ⟨other, inside, rfl⟩ := List.mem_map.mp listed
    exact represents.proper inside
  have visit : Visits null (nextOf after.process.memory) after.process.blockListHead merged.addr := by
    rw [represents.head]
    exact (visits_chain_iff represents.segment.links proper).mpr (List.mem_map_of_mem member')
  have size : merged.addr + blockSize + sizeOf after.process.memory merged.addr = merged.finish := by
    rw [sizeOf, (represents.segment.stored merged member').size]
    rfl
  have owned := allOwned merged.addr visit address above (size ▸ below)
  rw [owns_cons session after, tracks.represents.brk, represents.brk, covered address] at owned
  rcases owned with moved | before
  · have still : (arena.after (.free block.payload)).brk = arena.brk := rfl
    omega
  · exact notCovers before

/-- In every run of a shared process the blocks stay within what `extend_heap` obtained exactly
when every `mm_free` is of a block that touches its free neighbours. -/
theorem allOwned_iff_freesTouching {session : Session} (initial : Initial session)
    (steps : IsRun Shared.Step ⟨session, []⟩ run) :
    Always AllOwned ⟨session, []⟩ run ↔ Each FreesTouching ⟨session, []⟩ run := by
  refine @IsRun.always_iff_each _ _ Shared.Step AllOwned (Exact session.process.brk) FreesTouching
    ⟨session, []⟩ run steps initial.exact (fun _ => Exact.allOwned) ?_ ?_
  · intro source move target exact taken meets
    cases taken with
    | own taken =>
      apply exact.own taken
      rintro p rfl
      exact meets
    | other fits kept => exact exact.other fits kept
  · intro source move target exact taken fails
    cases taken with
    | @own session after event obtained taken =>
      cases event with
      | malloc size padding p => exact absurd trivial fails
      | free p => exact exact.not_allOwned taken fails
      | write p index byte => exact absurd trivial fails
    | other fits kept => exact absurd trivial fails

/-- Perform an action; other code that raises the break writes nothing. -/
def Shared.perform (shared : Shared) : Move → Option Shared
  | .own event => (shared.session.perform event).map fun after =>
      ⟨after, (shared.session.process.brk, after.process.brk) :: shared.obtained⟩
  | .other amount =>
    if shared.session.process.brk + amount < 2 ^ 64 then
      some { shared with session.process.brk := shared.session.process.brk + amount }
    else none

/-- Performing an action is a step. -/
theorem Shared.perform_step {move : Move} (performed : shared.perform move = some after) :
    Shared.Step shared move after := by
  cases move with
  | own event =>
    obtain ⟨session, taken, rfl⟩ := Option.map_eq_some_iff.mp performed
    exact .own (Session.perform_step taken)
  | other amount =>
    rw [perform] at performed
    split at performed
    · rename_i fits
      obtain rfl := Option.some.inj performed
      exact .other fits fun _ _ => rfl
    · contradiction

/-- Two blocks with memory of other code between them are freed one after the other. -/
def printfRun : List (Move × Shared) :=
  trace Shared.perform ⟨freshSession, []⟩
    [.own (.malloc 8 0 4136), .other 1000, .own (.malloc 8 0 5184), .own (.free 4136),
      .own (.free 5184)]

/-- The blocks do not always stay within what `extend_heap` obtained. -/
theorem printfRun_merges : IsRun Shared.Step ⟨freshSession, []⟩ printfRun ∧
    ¬ Always AllOwned ⟨freshSession, []⟩ printfRun := by
  refine ⟨isRun_trace (fun _ _ _ => Shared.perform_step) _ _, fun always => ?_⟩
  have head : (final ⟨freshSession, []⟩ printfRun).session.process.blockListHead = 4096 := by
    decide +kernel
  have size : sizeOf (final ⟨freshSession, []⟩ printfRun).session.process.memory 4096 = 56 := by
    decide +kernel
  have obtained : (final ⟨freshSession, []⟩ printfRun).obtained =
      [(5192, 5192), (5192, 5192), (5144, 5192), (4096, 4144)] := by decide +kernel
  have visit := @Visits.here _ null
    (nextOf (final ⟨freshSession, []⟩ printfRun).session.process.memory) 4096 (by decide)
  rw [← head] at visit
  have owned := always.final _ visit 4144 (by omega) (by rw [head, size]; decide)
  simp [Shared.Owns, obtained] at owned

/-- Two blocks that touch are freed after other code has raised the break. -/
def touchingRun : List (Move × Shared) :=
  trace Shared.perform ⟨freshSession, []⟩
    [.own (.malloc 8 0 4136), .own (.malloc 8 0 4184), .other 1000, .own (.free 4136),
      .own (.free 4184)]

/-- The condition decides a run in which touching blocks are merged. -/
theorem allOwned_iff_freesTouching_touchingRun : touchingRun.length = 5 ∧
    (Always AllOwned ⟨freshSession, []⟩ touchingRun ↔
      Each FreesTouching ⟨freshSession, []⟩ touchingRun) := by
  refine ⟨by decide +kernel, allOwned_iff_freesTouching freshSession_initial ?_⟩
  exact isRun_trace (fun _ _ _ => Shared.perform_step) _ _

end OsAssignments.MmAlloc
