import OsAssignments.MmAlloc.Isolation

/-!
# Reallocation

`mm_realloc` allocates a block, copies as many bytes to it as the old block has, and frees the old
block. The copy is one of client writes exactly when it stays in the block handed out, which is
told before the call by the size of the old block and by whether a free block is taken whole. Then
a reallocation is a run of steps of a session, and everything known of reachable sessions holds
after it.
-/

namespace OsAssignments.MmAlloc

open ByteMemory LinkedList MachineWord Transition

/-- `mm_realloc`: the payload address returned and the process afterwards, or the exit that its
`mm_free` takes. -/
def mmRealloc (granted : Bool) (padding : UInt32) (process : Process) (ptr size : Nat) :
    Option (Except Exit (Nat × Process)) :=
  let sbOld := getBlock ptr
  match mmMalloc granted padding process size with
  | none => none
  | some (ptr1, process) =>
    if ptr1 ≠ null then
      let old := process.memory.load (dataOf sbOld) (readField process.memory sbOld .size)
      match mmFree { process with memory := process.memory.store ptr1 old } ptr with
      | none => none
      | some (.error exit) => some (.error exit)
      | some (.ok process) => some (.ok (ptr1, process))
    else some (.ok (ptr1, process))

/-- What a client relies on when its pointer `p` to `n` bytes is reallocated to `m` bytes at `q`. -/
structure Reallocated (session : Session) (low p n m q : Nat) (padding : UInt32)
    (process : Process) : Prop where
  /-- The bytes copied stay in the block handed out. -/
  stays : ∀ handed allocated,
    mmMalloc true padding session.process m = some (handed, allocated) →
      session.room p ≤ sizeOf allocated.memory (getBlock handed)
  /-- The pointer is not null. -/
  proper : q ≠ null
  /-- There is room for the size asked for. -/
  enough : m ≤ sizeOf process.memory (getBlock q)
  /-- The bytes are those that `p` held, as far as both sizes reach. -/
  content : process.memory.load q (min n m) = session.process.memory.load p (min n m)
  /-- Every other live payload keeps all of its bytes. -/
  others : ∀ r ∈ session.live, r ≠ p →
    AgreeOn process.memory session.process.memory r (r + session.room r)
  /-- The list fills the heap, and its used blocks are those of `q` and of the live pointers but
  for `p`, which is freed. -/
  blockList : ∃ nodes, BlockList process low nodes ∧ ∀ b ∈ nodes,
    freeOf process.memory b = 0 ↔ dataOf b ≠ p ∧ (dataOf b = q ∨ dataOf b ∈ session.live)

/-- The old block is no larger than the size asked for, or a free block is taken whole for it and
the old block is larger by a header at most. -/
def CopyFits (process : Process) (p m : Nat) : Prop :=
  sizeOf process.memory (getBlock p) ≤ m ∨
    ((∃ iter, process.findFit m = some (.whole iter)) ∧
      sizeOf process.memory (getBlock p) ≤ m + blockSize)

variable {base : Nat} {start session after : Session} {arena : Arena base} {event : Event}
  {process process' : Process} {live : Finmap fun _ : Nat => Nat} {p q r n m b : Nat}
  {padding : UInt32} {nodes : List Nat} {bytes : List UInt8}

/-! ## The block handed out -/

/-- A block handed out has the size asked for, or a header more when it is taken whole. -/
theorem Tracks.room_malloc (tracks : Tracks session arena)
    (taken : Step session (.malloc m padding q) after) :
    ((∃ iter, session.process.findFit m = some (.whole iter)) ∧ after.room q = m + blockSize) ∨
      (¬ (∃ iter, session.process.findFit m = some (.whole iter)) ∧ after.room q = m) := by
  have isLive : q ∈ after.live := by
    cases taken with
    | malloc _ _ _ => exact Finmap.mem_insert.mpr (.inl rfl)
  have small : m + blockSize < 2 ^ 64 := by
    cases taken with
    | malloc small _ _ => omega
  have walk := tracks.represents.findFit small
  obtain ⟨rfl, tracks'⟩ := tracks.malloc taken
  -- The block with the payload address is the one that the arena puts there.
  have sized : ∀ new : Block, new ∈ (arena.malloc m).2.blocks →
      new.payload = (arena.malloc m).1 → after.room (arena.malloc m).1 = new.size := by
    intro new member payload
    obtain ⟨block, inside, _, same, room, _⟩ := tracks'.blockOf isLive
    have one := (arena.malloc m).2.ordered.payload_inj inside member (same.trans payload.symm)
    rw [room, one]
  obtain ⟨none, all⟩ | ⟨left, block, right, same, before, fits, some⟩ := serve_cases m arena.blocks
  · rw [fitOf_absent all] at walk
    have size := sized ⟨arena.brk, false, List.replicate m 0⟩
      (by rw [Arena.malloc_of_none none]; exact List.mem_append_right _ List.mem_cons_self)
      (by rw [Arena.malloc_of_none none]; rfl)
    exact .inr ⟨by simp [walk], by simpa using size⟩
  · obtain ⟨handed, blocks, _⟩ := Arena.malloc_of_some some
    rw [same, fitOf_found before fits] at walk
    have place : ∀ new : Block, new ∈ block.carve m → new ∈ (arena.malloc m).2.blocks := by
      intro new member
      rw [blocks, List.append_assoc]
      exact List.mem_append_right _ (List.mem_append_left _ member)
    by_cases exact : block.size = m + blockSize
    · rw [if_pos exact] at walk
      have size := sized { block with free := false } (place _ (by simp [Block.carve, exact]))
        handed.symm
      exact .inl ⟨⟨_, walk⟩, size.trans exact⟩
    · rw [if_neg exact] at walk
      have size := sized ⟨block.addr, false, List.replicate m 0⟩
        (place _ (by simp [Block.carve, exact])) handed.symm
      exact .inr ⟨by simp [walk], by simpa using size⟩

/-- A call leaves the size recorded for a payload that is live before and after it. -/
theorem Tracks.room_kept (tracks : Tracks session arena) (taken : Step session event after)
    (call : ∀ p index byte, event ≠ .write p index byte) (isLive : p ∈ session.live)
    (isLive' : p ∈ after.live) : after.room p = session.room p := by
  obtain ⟨block, member, used, rfl, room, _⟩ := tracks.blockOf isLive
  have kept := tracks.kept taken call isLive' member used
  have tracks' := tracks.step taken
  rw [room, Session.room, tracks'.represents.getBlock kept]
  exact (tracks'.represents.segment.stored block kept).size

/-- The used blocks of the list are those of the live pointers. -/
theorem Tracks.used_iff (tracks : Tracks session arena)
    (walked : session.process.blocks = some nodes) (listed : b ∈ nodes) :
    freeOf session.process.memory b = 0 ↔ dataOf b ∈ session.live := by
  obtain rfl : addrs arena.blocks = nodes := by
    simpa [tracks.represents.walked] using walked
  obtain ⟨block, member, rfl⟩ := List.mem_map.mp listed
  rw [freeOf, (tracks.represents.segment.stored block member).free]
  constructor
  · intro flag
    have used : block.free = false := by simpa using flag
    exact tracks.complete block member used
  · intro isLive
    obtain ⟨other, inside, used, same, _⟩ := tracks.blockOf isLive
    obtain rfl := arena.ordered.payload_inj inside member same
    rw [used]
    rfl

/-! ## The copy -/

/-- Bytes stored in a live payload leave the size that the header of any payload records. -/
theorem Tracks.room_store (tracks : Tracks session arena) (isLive : q ∈ session.live)
    (isLive' : r ∈ session.live) (fits : bytes.length ≤ session.room q) :
    sizeOf (session.process.memory.store q bytes) (getBlock r) = session.room r := by
  obtain ⟨block, member, _, rfl, _⟩ := tracks.blockOf isLive'
  have listed : getBlock block.payload ∈ addrs arena.blocks := by
    rw [tracks.represents.getBlock member]
    exact List.mem_map_of_mem member
  have apart := tracks.separated.headers q isLive _ tracks.represents.walked _ listed
  exact readField_congr (store_agree (by omega))

/-- Bytes copied to a live payload are written one after another. -/
theorem copy_reachable (initial : Initial start) (reached : Reachable Step start ⟨process, live⟩)
    (isLive : q ∈ live) (fits : bytes.length ≤ Session.room ⟨process, live⟩ q) :
    Reachable Step start ⟨{ process with memory := process.memory.store q bytes }, live⟩ := by
  obtain ⟨size, found⟩ := Finmap.mem_iff.mp isLive
  obtain ⟨arena, tracks, _⟩ := reachable_tracks initial reached
  induction bytes using List.reverseRecOn with
  | nil =>
    rw [store_nil]
    exact reached
  | append_singleton rest byte ih =>
    rw [List.length_append, List.length_singleton] at fits
    have written := ih (by omega)
    have inside : rest.length < sizeOf (process.memory.store q rest) (getBlock q) := by
      rw [tracks.room_store isLive isLive (by omega)]
      omega
    rw [← store_append]
    exact written.next (Step.write found (.inr inside))

/-! ## The call -/

/-- The steps that a reallocation is when its copy fits: the block is allocated, the bytes are
copied to it as a client writes them, and the old block is freed. -/
structure Moves (start session after written freed : Session) (p m q : Nat) (padding : UInt32) :
    Prop where
  reached : Reachable Step start session
  isLive : p ∈ session.live
  allocates : Step session (.malloc m padding q) after
  fits : session.room p ≤ after.room q
  copies : Reachable Step start written
  sameLive : written.live = after.live
  copied : written.process.memory =
    after.process.memory.store q (after.process.memory.load p (session.room p))
  releases : Step written (.free p) freed

variable {written freed : Session}

/-- A reallocation whose copy stays in the block handed out is a run of steps of the session. -/
theorem realloc_moves (initial : Initial start) (reached : Reachable Step start session)
    (isLive : p ∈ session.live) (taken : Step session (.malloc m padding q) after)
    (fits : session.room p ≤ after.room q) :
    ∃ written freed, Moves start session after written freed p m q padding ∧
      mmRealloc true padding session.process p m = some (.ok (q, freed.process)) := by
  obtain ⟨arena, tracks, _⟩ := reachable_tracks initial reached
  have reached' := reached.next taken
  obtain ⟨arena', tracks', _⟩ := reachable_tracks initial reached'
  have isLive' : p ∈ after.live := by
    cases taken with
    | malloc _ _ _ => exact Finmap.mem_insert.mpr (.inr isLive)
  have handed : q ∈ after.live := by
    cases taken with
    | malloc _ _ _ => exact Finmap.mem_insert.mpr (.inl rfl)
  have room := tracks.room_kept taken (by simp) isLive isLive'
  have written : Reachable Step start ⟨{ after.process with
      memory := after.process.memory.store q (after.process.memory.load p (session.room p)) },
      after.live⟩ :=
    copy_reachable initial reached' handed (by rw [length_load]; exact fits)
  obtain ⟨arena'', tracks'', _⟩ := reachable_tracks initial written
  obtain ⟨freed, release⟩ := tracks''.free_returns isLive'
  have called : mmMalloc true padding session.process m = some (q, after.process) := by
    cases taken with
    | malloc _ _ returned => exact returned
  have proper : q ≠ null := by
    have above := (tracks'.separated.inside q handed).1
    unfold blockSize at above
    unfold null
    omega
  have freedIs : mmFree { after.process with
      memory := after.process.memory.store q (after.process.memory.load p (session.room p)) } p =
        some (.ok freed.process) := by
    cases release with
    | free _ returned => exact returned
  have payload : dataOf (getBlock p) = p := by
    obtain ⟨block, member, _, rfl, _⟩ := tracks.blockOf isLive
    rw [tracks.represents.getBlock member]
    rfl
  refine ⟨_, freed, ⟨reached, isLive, taken, fits, written, rfl, rfl, release⟩, ?_⟩
  have size : readField after.process.memory (getBlock p) .size = session.room p := room
  unfold mmRealloc
  simp only [called, payload, size, freedIs, if_pos proper]

/-! ## What the client keeps -/

namespace Moves

variable (moves : Moves start session after written freed p m q padding)
include moves

theorem afterLive : after.live = session.live.insert q m := by
  cases moves.allocates with
  | malloc _ _ _ => rfl

theorem freedLive : freed.live = after.live.erase p := by
  rw [← moves.sameLive]
  cases moves.releases with
  | free _ _ => rfl

theorem handed : q ∈ after.live := by
  rw [moves.afterLive]
  exact Finmap.mem_insert.mpr (.inl rfl)

theorem mem_after (member : r ∈ session.live) : r ∈ after.live := by
  rw [moves.afterLive]
  exact Finmap.mem_insert.mpr (.inr member)

theorem mem_written (member : r ∈ after.live) : r ∈ written.live := by
  rw [moves.sameLive]
  exact member

theorem mem_freed (member : r ∈ after.live) (distinct : r ≠ p) : r ∈ freed.live := by
  rw [moves.freedLive]
  exact Finmap.mem_erase.mpr ⟨distinct, member⟩

/-- The block handed out is none that was live. -/
theorem fresh (initial : Initial start) : q ∉ session.live := by
  obtain ⟨arena, tracks, _⟩ := reachable_tracks initial moves.reached
  exact tracks.fresh moves.allocates

/-- The block handed out is not the old one. -/
theorem other (initial : Initial start) : q ≠ p :=
  fun same => moves.fresh initial (same ▸ moves.isLive)

theorem lookup_freed (initial : Initial start) : freed.live.lookup q = some m := by
  rw [moves.freedLive, Finmap.lookup_erase_ne (moves.other initial), moves.afterLive,
    Finmap.lookup_insert]

/-- The copy leaves the size of every live payload. -/
theorem room_written (initial : Initial start) (member : r ∈ after.live) :
    written.room r = after.room r := by
  obtain ⟨arena, tracks, _⟩ := reachable_tracks initial (moves.reached.next moves.allocates)
  rw [Session.room, moves.copied]
  refine tracks.room_store moves.handed member ?_
  rw [length_load]
  exact moves.fits

/-- The allocation leaves the size of every live payload. -/
theorem room_after (initial : Initial start) (member : r ∈ session.live) :
    after.room r = session.room r := by
  obtain ⟨arena, tracks, _⟩ := reachable_tracks initial moves.reached
  exact tracks.room_kept moves.allocates (by simp) member (moves.mem_after member)

/-- The allocation leaves the bytes of every live payload. -/
theorem agree_after (initial : Initial start) (member : r ∈ session.live) :
    AgreeOn after.process.memory session.process.memory r (r + session.room r) := by
  obtain ⟨arena, tracks, _⟩ := reachable_tracks initial moves.reached
  exact tracks.frame moves.allocates (by simp) member (moves.mem_after member)

/-- The release leaves the bytes of every payload but the one freed. -/
theorem agree_freed (initial : Initial start) (member : r ∈ after.live) (distinct : r ≠ p) :
    AgreeOn freed.process.memory written.process.memory r (r + after.room r) := by
  obtain ⟨arena, tracks, _⟩ := reachable_tracks initial moves.copies
  rw [← moves.room_written initial member]
  exact tracks.frame moves.releases (by simp) (moves.mem_written member)
    (moves.mem_freed member distinct)

/-- The bytes at the block handed out are those of the old one, as far as both sizes reach. -/
theorem content (initial : Initial start) (short : n ≤ session.room p) :
    freed.process.memory.load q (min n m) = session.process.memory.load p (min n m) := by
  have kept := moves.agree_freed initial moves.handed (moves.other initial)
  have before := moves.agree_after initial moves.isLive
  have within := moves.fits
  have least : min n m ≤ session.room p := Nat.le_trans (Nat.min_le_left n m) short
  have stored := load_store after.process.memory q (after.process.memory.load p (session.room p))
  rw [length_load] at stored
  calc
    freed.process.memory.load q (min n m) = written.process.memory.load q (min n m) :=
      load_congr (kept.mono (Nat.le_refl _) (by omega))
    _ = (written.process.memory.load q (session.room p)).take (min n m) := (take_load least).symm
    _ = (after.process.memory.load p (session.room p)).take (min n m) := by
      rw [moves.copied, stored]
    _ = after.process.memory.load p (min n m) := take_load least
    _ = session.process.memory.load p (min n m) :=
      load_congr (before.mono (Nat.le_refl _) (by omega))

/-- Every other live payload keeps its bytes through the three steps. -/
theorem others (initial : Initial start) (member : r ∈ session.live) (distinct : r ≠ p) :
    AgreeOn freed.process.memory session.process.memory r (r + session.room r) := by
  obtain ⟨_, tracks, _⟩ := reachable_tracks initial (moves.reached.next moves.allocates)
  have inAfter := moves.mem_after member
  have apart := tracks.separated.disjoint r inAfter q moves.handed
    (fun same => moves.fresh initial (same ▸ member))
  have last := moves.agree_freed initial inAfter distinct
  have within := moves.fits
  rw [moves.room_after initial member] at last apart
  have middle : AgreeOn written.process.memory after.process.memory r (r + session.room r) := by
    rw [moves.copied]
    exact store_agree (by rw [length_load]; omega)
  exact (last.trans middle).trans (moves.agree_after initial member)

/-- After those steps the client has what it relies on. -/
theorem reallocated (initial : Initial start) (found : session.live.lookup p = some n) :
    Reallocated session start.process.brk p n m q padding freed.process := by
  obtain ⟨_, tracks, _⟩ := reachable_tracks initial moves.reached
  obtain ⟨_, tracksAfter, _⟩ := reachable_tracks initial (moves.reached.next moves.allocates)
  obtain ⟨_, tracksFreed, tiled⟩ := reachable_tracks initial (moves.copies.next moves.releases)
  refine ⟨?_, ?_, tracksFreed.separated.enough q m (moves.lookup_freed initial),
    moves.content initial (tracks.separated.enough p n found),
    fun r member distinct => moves.others initial member distinct, ?_⟩
  · intro handed allocated returned
    cases moves.allocates with
    | malloc _ _ returned' =>
      rw [returned'] at returned
      obtain ⟨rfl, rfl⟩ : q = handed ∧ _ = allocated := by simpa using returned
      exact moves.fits
  · have above := (tracksAfter.separated.inside q moves.handed).1
    unfold blockSize at above
    unfold null
    omega
  · refine ⟨_, tracksFreed.represents.blockList tiled, fun b listed => ?_⟩
    rw [tracksFreed.used_iff tracksFreed.represents.walked listed, moves.freedLive,
      Finmap.mem_erase, moves.afterLive, Finmap.mem_insert]

end Moves

/-- `mm_realloc` is safe and keeps what it should for exactly the sizes whose copy fits. -/
theorem mmRealloc_safe_iff (padding : UInt32) (initial : Initial start)
    (reached : Reachable Step start session) (found : session.live.lookup p = some n)
    (small : m + blockSize < 2 ^ 63) (succeeds : SbrkSucceeds session.process m) :
    (∃ q process, mmRealloc true padding session.process p m = some (.ok (q, process)) ∧
      Reallocated session start.process.brk p n m q padding process) ↔
    CopyFits session.process p m := by
  obtain ⟨arena, tracks, _⟩ := reachable_tracks initial reached
  obtain ⟨q, after, taken⟩ := tracks.malloc_returns padding small succeeds
  have sizes := tracks.room_malloc taken
  have called : mmMalloc true padding session.process m = some (q, after.process) := by
    cases taken with
    | malloc _ _ returned => exact returned
  have condition : CopyFits session.process p m ↔ session.room p ≤ after.room q := by
    rw [CopyFits, ← Session.room]
    rcases sizes with ⟨whole, size⟩ | ⟨parted, size⟩
    · rw [size]
      constructor
      · rintro (within | ⟨_, within⟩)
        · exact Nat.le_trans within (Nat.le_add_right _ _)
        · exact within
      · exact fun within => .inr ⟨whole, within⟩
    · rw [size]
      constructor
      · rintro (within | ⟨whole, _⟩)
        · exact within
        · exact absurd whole parted
      · exact .inl
  rw [condition]
  constructor
  · rintro ⟨_, _, _, reallocated⟩
    exact reallocated.stays q after.process called
  · intro fits
    have isLive : p ∈ session.live := Finmap.mem_of_lookup_eq_some found
    obtain ⟨written, freed, moves, returned⟩ := realloc_moves initial reached isLive taken fits
    exact ⟨q, freed.process, returned, moves.reallocated initial found⟩

/-- Two allocations, the first of which is freed. -/
def shrinkingRun : List (Event × Session) :=
  trace Session.perform freshSession [.malloc 48 0 4136, .malloc 60 0 4224, .free 4136]

/-- Shrinking the pointer left to four bytes splits the free block before it, and the sixty bytes
copied there destroy the two headers that follow: `mm_free` does not find the old block any more
and ends the process. -/
theorem mmRealloc_overruns : ¬ ∀ (start session : Session) (p n m : Nat) (padding : UInt32),
    Initial start → Reachable Step start session → session.live.lookup p = some n →
    m + blockSize < 2 ^ 63 → SbrkSucceeds session.process m →
    ∃ q process, mmRealloc true padding session.process p m = some (.ok (q, process)) ∧
      Reallocated session start.process.brk p n m q padding process := by
  intro claim
  obtain ⟨q, process, returned, _⟩ := claim freshSession (final freshSession shrinkingRun) 4224 60 4 0
    freshSession_initial (isRun_trace (fun _ _ _ => Session.perform_step) freshSession _).reachable
    (by decide +kernel) (by decide) (fun _ => by decide +kernel)
  have exits : (mmRealloc true 0 (final freshSession shrinkingRun).process 4224 4).map
      (fun result => match result with
        | .error exit => some exit
        | .ok _ => none) = some (some .notOwned) := by decide +kernel
  rw [returned] at exits
  simp at exits

/-- Reallocating the eight bytes left after the sample run to as many is safe. -/
theorem mmRealloc_safe_sampleRun : sampleRun.length = 4 ∧ ∃ q process,
    mmRealloc true 0 (final freshSession sampleRun).process 4224 8 = some (.ok (q, process)) ∧
      Reallocated (final freshSession sampleRun) 4096 4224 8 8 q 0 process :=
  ⟨by decide +kernel, (mmRealloc_safe_iff 0 freshSession_initial sampleRun_reachable
    (by decide +kernel) (by decide) (fun _ => by decide +kernel)).mpr (.inl (by decide +kernel))⟩

end OsAssignments.MmAlloc
