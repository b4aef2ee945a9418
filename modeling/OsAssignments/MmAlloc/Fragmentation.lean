import OsAssignments.Library.Coalescing
import OsAssignments.MmAlloc.BlockList

/-!
# Fragmentation

How far a heap grows. A client that never has more than so many payloads of so many bytes live makes
the heap grow up to a bound of these two numbers, however long it runs: `sbrk` is called only where
no free block fits the request, and between two free blocks there is a used one.
-/

namespace OsAssignments.MmAlloc

open Transition

/-- After the step at most so many pointers are live, and a request is for at most so many bytes. -/
structure Modest (count size : Nat) (before : Session) (event : Event) (after : Session) : Prop where
  /-- The live pointers are few. -/
  few : after.live.keys.card ≤ count
  /-- A request is small. -/
  small : ∀ n padding p, event = .malloc n padding p → n ≤ size

/-- The used blocks have at most a header more than a request. -/
def UsedWithin (size : Nat) (blocks : List Block) : Prop :=
  ∀ block ∈ blocks, block.free = false → block.size ≤ size + blockSize

variable {base low high n p bound count size : Nat} {arena : Arena base} {block : Block}
  {blocks served : List Block} {start session before after : Session} {event : Event}

/-! ## Blocks of a bounded size -/

/-- A tiling of bounded blocks is as long as its blocks are many. -/
theorem Tiles.le (tiles : Tiles low blocks high) (small : ∀ block ∈ blocks, block.size ≤ bound) :
    high ≤ low + blocks.length * (blockSize + bound) := by
  induction blocks generalizing low with
  | nil => exact Nat.le_of_eq (tiles.symm.trans (by simp))
  | cons block rest ih =>
    obtain ⟨rfl, tail⟩ := tiles
    obtain ⟨first, others⟩ := List.forall_mem_cons.mp small
    have behind := ih tail others
    rw [List.length_cons, Nat.succ_mul]
    unfold Block.finish at behind
    omega

/-- A block that is taken has at most a header more than the request. -/
theorem Block.taken_size_le (fits : block.Fits n) : (block.taken n).size ≤ n + blockSize := by
  have room := fits.2
  rw [Block.taken]
  split <;> simp_all [Block.size]

/-- A request within the bound keeps the used blocks within theirs. -/
theorem UsedWithin.malloc (within : UsedWithin size arena.blocks) (small : n ≤ size) :
    UsedWithin size (arena.malloc n).2.blocks := by
  intro block member used
  cases found : serve n arena.blocks with
  | none =>
    rw [Arena.malloc_of_none found] at member
    rcases List.mem_append.mp member with old | new
    · exact within block old used
    · obtain rfl := List.mem_singleton.mp new
      rw [Block.size_mk, List.length_replicate]
      omega
  | some result =>
    obtain ⟨p, served⟩ := result
    rw [(Arena.malloc_of_some found).2.1] at member
    obtain ⟨taken, _, free, room, _, members⟩ := mem_serve_used found
    rcases (members block used).mp member with rfl | old
    · exact (Block.taken_size_le ⟨free, room⟩).trans (Nat.add_le_add_right small _)
    · exact within block old used

/-- An action within the bounds keeps the used blocks within theirs. -/
theorem UsedWithin.step (within : UsedWithin size arena.blocks)
    (modest : Modest count size before event after) :
    UsedWithin size (arena.after event).blocks := by
  cases event with
  | malloc n padding p => exact within.malloc (modest.small n padding p rfl)
  | free p =>
    intro block member used
    exact within block ((mem_release_used arena.ordered used).mp member).1 used
  | write p index byte =>
    intro block member used
    obtain ⟨old, inside, rfl⟩ := mem_overwrite.mp member
    split at used
    · rw [if_pos ‹_›, size_set]
      exact within old inside used
    · rw [if_neg ‹_›]
      exact within old inside used

/-! ## Counting blocks -/

/-- There are no more used blocks than live pointers. -/
theorem Tracks.used_le (tracks : Tracks session arena) :
    arena.blocks.countP (fun block => ¬ block.free = true) ≤ session.live.keys.card := by
  have distinct : (arena.blocks.map Block.payload).Nodup := by
    refine List.pairwise_map.mpr (arena.ordered.pairwise.imp ?_)
    intro block next apart
    unfold Block.finish blockSize at apart
    unfold Block.payload
    omega
  let used := (arena.blocks.filter fun block => ¬ block.free = true).map Block.payload
  have nodup : used.Nodup := distinct.sublist (List.filter_sublist.map Block.payload)
  have live : used.toFinset ⊆ session.live.keys := by
    intro p member
    obtain ⟨block, inside, rfl⟩ := List.mem_map.mp (List.mem_toFinset.mp member)
    obtain ⟨old, isUsed⟩ := List.mem_filter.mp inside
    exact Finmap.mem_keys.mpr (tracks.complete block old (by simpa using isUsed))
  calc
    arena.blocks.countP (fun block => ¬ block.free = true)
      = used.length := by rw [List.length_map, List.countP_eq_length_filter]
    _ = used.toFinset.card := (List.toFinset_card_of_nodup nodup).symm
    _ ≤ session.live.keys.card := Finset.card_le_card live

/-- There are at most twice as many blocks as live pointers, and one more. -/
theorem Tracks.length_le (tracks : Tracks session arena) :
    arena.blocks.length ≤ 2 * session.live.keys.card + 1 := by
  have alternating := Coalescing.length_le_of_isChain arena.coalesced
  have used := tracks.used_le
  omega

/-! ## Growth -/

/-- A heap within the bounds: what it tracks, with its used blocks and its break. -/
structure Compact (count size : Nat) (start session : Session) (arena : Arena start.process.brk) :
    Prop where
  /-- The session tracks the arena. -/
  tracks : Tracks session arena
  /-- The blocks fill the heap. -/
  tiled : arena.Tiled
  /-- The used blocks are small. -/
  used : UsedWithin size arena.blocks
  /-- The break is near. -/
  near : arena.brk ≤ start.process.brk + 2 * count * (size + 2 * blockSize)

/-- Where no free block fits, a heap and the block it is extended by are within the bounds. -/
theorem Compact.extend {arena : Arena start.process.brk}
    (compact : Compact count size start before arena) (none : serve n arena.blocks = none)
    (small : n ≤ size) (tracks : Tracks after (arena.extend n))
    (few : after.live.keys.card ≤ count) :
    (arena.extend n).brk ≤ start.process.brk + 2 * count * (size + 2 * blockSize) := by
  have unfit : ∀ block ∈ arena.blocks, ¬ block.Fits n := by
    rcases serve_cases n arena.blocks with ⟨_, unfit⟩ | ⟨_, _, _, _, _, _, some⟩
    · exact unfit
    · rw [none] at some
      cases some
  have sizes : ∀ block ∈ arena.blocks, block.size ≤ size + blockSize := by
    intro block member
    cases free : block.free with
    | false => exact compact.used block member free
    | true =>
      have short : ¬ n + blockSize ≤ block.size := fun room => unfit block member ⟨free, room⟩
      omega
  -- The new block is used, so the blocks before it are at most one more than twice the others.
  have alternating := Coalescing.length_le_of_isChain arena.coalesced
  have used := tracks.used_le
  rw [Arena.extend, List.countP_append] at used
  have blocks : arena.blocks.length + 1 ≤ 2 * count := by
    simp only [List.countP_singleton, Bool.false_eq_true, not_false_eq_true, decide_true,
      if_true] at used
    omega
  have heap : arena.brk ≤
      start.process.brk + arena.blocks.length * (blockSize + (size + blockSize)) :=
    Tiles.le compact.tiled sizes
  have added : (arena.extend n).brk = arena.brk + blockSize + n := rfl
  calc
    (arena.extend n).brk
      ≤ start.process.brk + (arena.blocks.length + 1) * (size + 2 * blockSize) := by
        rw [added, Nat.succ_mul]
        have same : blockSize + (size + blockSize) = size + 2 * blockSize := by omega
        rw [same] at heap
        omega
    _ ≤ start.process.brk + 2 * count * (size + 2 * blockSize) :=
        Nat.add_le_add_left (Nat.mul_le_mul_right _ blocks) _

/-- An action within the bounds keeps a heap within them. -/
theorem Compact.step {arena : Arena start.process.brk}
    (compact : Compact count size start before arena) (taken : Step before event after)
    (modest : Modest count size before event after) :
    Compact count size start after (arena.after event) := by
  have tracks := compact.tracks.step taken
  refine ⟨tracks, compact.tiled.step event, compact.used.step modest, ?_⟩
  cases event with
  | malloc n padding p =>
    cases found : serve n arena.blocks with
    | none =>
      rw [Arena.after, Arena.malloc_of_none found] at tracks ⊢
      exact compact.extend found (modest.small n padding p rfl) tracks modest.few
    | some result =>
      rw [Arena.after, (Arena.malloc_of_some found).2.2]
      exact compact.near
  | free p => exact compact.near
  | write p index byte => exact compact.near

/-- A client that never has more than `count` payloads of `size` bytes live makes the heap grow to at
most `2 * count` such payloads with two headers each, and walks a list of at most two blocks for each
live pointer and one more. -/
theorem heap_bounded (initial : Initial start) {run : List (Event × Session)}
    (steps : IsRun Step start run) (modest : Each (Modest count size) start run) :
    Always (fun session =>
      session.process.brk ≤ start.process.brk + 2 * count * (size + 2 * blockSize) ∧
        ∃ nodes, session.process.blocks = some nodes ∧
          nodes.length ≤ 2 * session.live.keys.card + 1) start run := by
  have compact : Always (fun session => ∃ arena, Compact count size start session arena) start run := by
    refine steps.always_of_each ?_ ?_ modest
    · refine ⟨_, initial.tracks, rfl, ?_, Nat.le_add_right _ _⟩
      intro block member
      cases member
    · rintro source event target ⟨arena, compact⟩ taken modest
      exact ⟨_, compact.step taken modest⟩
  refine compact.imp ?_
  rintro session ⟨arena, tracks, _, _, near⟩
  refine ⟨tracks.represents.brk.trans_le near, _, tracks.represents.walked, ?_⟩
  rw [List.length_map]
  exact tracks.length_le

instance (count size : Nat) (before : Session) (event : Event) (after : Session) :
    Decidable (Modest count size before event after) :=
  match event with
  | .malloc n _ _ => decidable_of_iff (after.live.keys.card ≤ count ∧ n ≤ size)
      ⟨fun both => ⟨both.1, by rintro _ _ _ ⟨⟩; exact both.2⟩,
        fun modest => ⟨modest.few, modest.small _ _ _ rfl⟩⟩
  | .free _ => decidable_of_iff (after.live.keys.card ≤ count)
      ⟨fun few => ⟨few, by rintro _ _ _ ⟨⟩⟩, fun modest => modest.few⟩
  | .write _ _ _ => decidable_of_iff (after.live.keys.card ≤ count)
      ⟨fun few => ⟨few, by rintro _ _ _ ⟨⟩⟩, fun modest => modest.few⟩

/-- The sample run, of two payloads of at most 48 bytes. -/
theorem heap_bounded_sampleRun : sampleRun.length = 4 ∧
    Always (fun session =>
      session.process.brk ≤ 4096 + 2 * 2 * (48 + 2 * blockSize) ∧
        ∃ nodes, session.process.blocks = some nodes ∧
          nodes.length ≤ 2 * session.live.keys.card + 1) freshSession sampleRun :=
  ⟨by decide +kernel, heap_bounded freshSession_initial
    (isRun_trace (fun _ _ _ => Session.perform_step) freshSession _) (by decide +kernel)⟩

end OsAssignments.MmAlloc
