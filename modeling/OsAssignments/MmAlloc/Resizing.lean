import OsAssignments.MmAlloc.Realloc

/-!
# Sessions that reallocate

A client that resizes its payloads as well. A reallocation whose copy stays in the block handed out
is a run of the three steps that sessions are made of, so it reaches no state that a client without
reallocation does not reach, and the heap goes on refining the map from live pointers to bytes,
where resizing moves the bytes that both sizes have to a pointer that was not live.
-/

namespace OsAssignments.MmAlloc

open ByteMemory LinkedList Transition

/-- What a client that resizes does. -/
inductive Request
  /-- An action of a client that does not. -/
  | plain (event : Event)
  /-- `mm_realloc(p, size)` returning `q`. -/
  | realloc (p size : Nat) (padding : UInt32) (q : Nat)
  deriving DecidableEq

/-- One action of a client that resizes. -/
inductive ResizeStep : Session → Request → Session → Prop
  /-- An action of a client that does not. -/
  | plain {session after : Session} {event : Event} (taken : Step session event after) :
      ResizeStep session (.plain event) after
  /-- A live pointer is reallocated, its bytes fitting the block handed out. -/
  | realloc {process process' : Process} {live : Finmap fun _ : Nat => Nat} {p size q : Nat}
      {padding : UInt32} (isLive : p ∈ live) (small : size + blockSize < 2 ^ 63)
      (succeeds : SbrkSucceeds process size) (fits : CopyFits process p size)
      (returned : mmRealloc true padding process p size = some (.ok (q, process'))) :
      ResizeStep ⟨process, live⟩ (.realloc p size padding q) ⟨process', (live.insert q size).erase p⟩

/-- What the actions of such a client do to a store. -/
inductive Store.Resize : Store → Request → Store → Prop
  /-- An action of a client that does not resize. -/
  | plain {store store' : Store} {event : Event} (taken : Store.Step store event store') :
      Resize store (.plain event) store'
  /-- Resizing moves bytes to a pointer that is not live, as far as both sizes reach. -/
  | realloc {store : Store} {p size q : Nat} {padding : UInt32} {bytes moved : List UInt8}
      (isLive : store.lookup p = some bytes) (fresh : q ∉ store) (length : moved.length = size)
      (kept : moved.take (min bytes.length size) = bytes.take (min bytes.length size)) :
      Resize store (.realloc p size padding q) ((store.insert q moved).erase p)

/-- What the heap of a session keeps of a store. -/
structure Serves (start session : Session) (store : Store) : Prop where
  /-- The memory holds the store's bytes at the live pointers. -/
  holds : Holds store session
  /-- The live payloads are separated. -/
  separated : Separated session start.process.brk
  /-- The list fills the heap, and its used blocks are those of the live pointers. -/
  blockList : ∃ nodes, BlockList session.process start.process.brk nodes ∧ ∀ b ∈ nodes,
    freeOf session.process.memory b = 0 ↔ dataOf b ∈ session.live
  /-- A reallocation whose copy fits returns, when the `sbrk` it may need succeeds. -/
  returns : ∀ p ∈ session.live, ∀ size padding, size + blockSize < 2 ^ 63 →
    SbrkSucceeds session.process size → CopyFits session.process p size →
    ∃ q after, ResizeStep session (.realloc p size padding q) after

variable {base : Nat} {start session after written freed : Session} {arena : Arena base}
  {request : Request} {p q r m n : Nat} {padding : UInt32} {store : Store}

/-! ## One reallocation -/

/-- A copy that fits by what is known before the call stays in the block handed out. -/
theorem Tracks.copy_fits (tracks : Tracks session arena) (fits : CopyFits session.process p m)
    (taken : Step session (.malloc m padding q) after) : session.room p ≤ after.room q := by
  rw [CopyFits, ← Session.room] at fits
  rcases tracks.room_malloc taken with ⟨_, size⟩ | ⟨parted, size⟩
  · rw [size]
    rcases fits with within | ⟨_, within⟩
    · exact Nat.le_trans within (Nat.le_add_right m blockSize)
    · exact within
  · rw [size]
    rcases fits with within | ⟨whole, _⟩
    · exact within
    · exact absurd whole parted

/-- A reallocation whose copy fits is the three steps it is made of. -/
theorem realloc_taken (initial : Initial start) (reached : Reachable Step start session)
    (isLive : p ∈ session.live) (small : m + blockSize < 2 ^ 63)
    (succeeds : SbrkSucceeds session.process m) (fits : CopyFits session.process p m) :
    ∃ q after written freed, Moves start session after written freed p m q padding ∧
      mmRealloc true padding session.process p m = some (.ok (q, freed.process)) ∧
      freed.live = (session.live.insert q m).erase p := by
  obtain ⟨arena, tracks, _⟩ := reachable_tracks initial reached
  obtain ⟨q, after, taken⟩ := tracks.malloc_returns padding small succeeds
  obtain ⟨written, freed, moves, returned⟩ :=
    realloc_moves initial reached isLive taken (tracks.copy_fits fits taken)
  refine ⟨q, after, written, freed, moves, returned, ?_⟩
  rw [moves.freedLive, moves.afterLive]

/-- The session after a reallocation is the one its three steps lead to. -/
theorem ResizeStep.moves (initial : Initial start) (reached : Reachable Step start session)
    (taken : ResizeStep session (.realloc p m padding q) freed) :
    ∃ after written, Moves start session after written freed p m q padding := by
  cases taken with
  | realloc isLive small succeeds fits returned =>
    obtain ⟨q', after, written, freed', moves, returned', live⟩ :=
      realloc_taken initial reached isLive small succeeds fits
    obtain ⟨rfl, rfl⟩ : q = q' ∧ _ = freed'.process := by
      rw [returned, Option.some.injEq, Except.ok.injEq, Prod.mk.injEq] at returned'
      exact returned'
    obtain ⟨process', live'⟩ := freed'
    obtain rfl : live' = _ := live
    exact ⟨after, written, moves⟩

/-- Reallocation reaches no state that is not reached without it. -/
theorem ResizeStep.reaches (initial : Initial start) (reached : Reachable Step start session)
    (taken : ResizeStep session request after) : Reachable Step start after := by
  cases request with
  | plain event =>
    cases taken with
    | plain taken => exact reached.next taken
  | realloc p m padding q =>
    obtain ⟨_, _, moves⟩ := taken.moves initial reached
    exact moves.copies.next moves.releases

/-! ## The simulation -/

/-- The store held after a reallocation: the bytes now at the new pointer under it, and the old
pointer gone. -/
theorem Moves.holds (moves : Moves start session after written freed p m q padding)
    (initial : Initial start) (holds : Holds store session) :
    Holds ((store.insert q (freed.process.memory.load q m)).erase p) freed := by
  obtain ⟨arena, tracks, _⟩ := reachable_tracks initial moves.reached
  intro r
  rw [moves.freedLive, moves.afterLive]
  by_cases old : r = p
  · rw [old, Finmap.lookup_erase, Finmap.lookup_erase]
    rfl
  · rw [Finmap.lookup_erase_ne old, Finmap.lookup_erase_ne old]
    by_cases new : r = q
    · rw [new, Finmap.lookup_insert, Finmap.lookup_insert]
      rfl
    · rw [Finmap.lookup_insert_of_ne _ new, Finmap.lookup_insert_of_ne _ new, holds r]
      exact (tracks.requested fun isLive => moves.others initial isLive old).symm

/-- Every action of a client that resizes is one on the store that the memory holds. -/
theorem resize_simulates (initial : Initial start) (reached : Reachable Step start session)
    (holds : Holds store session) (taken : ResizeStep session request after) :
    ∃ store', Store.Resize store request store' ∧ Holds store' after := by
  obtain ⟨arena, tracks, _⟩ := reachable_tracks initial reached
  cases request with
  | plain event =>
    cases taken with
    | plain taken =>
      obtain ⟨store', taken', holds'⟩ := tracks.simulates holds taken
      exact ⟨store', .plain taken', holds'⟩
  | realloc p m padding q =>
    obtain ⟨_, _, moves⟩ := taken.moves initial reached
    obtain ⟨n, found⟩ := Finmap.mem_iff.mp moves.isLive
    have stored : store.lookup p = some (session.process.memory.load p n) := by
      rw [holds p, found]
      rfl
    have fresh : q ∉ store := mt holds.mem_iff.mp (moves.fresh initial)
    refine ⟨_, .realloc stored fresh length_load ?_, moves.holds initial holds⟩
    rw [length_load, take_load (Nat.min_le_right n m), take_load (Nat.min_le_left n m)]
    exact moves.content initial (tracks.separated.enough p n found)

/-- A reachable session whose memory holds a store serves it. -/
theorem Holds.serves (holds : Holds store session) (initial : Initial start)
    (reached : Reachable Step start session) : Serves start session store := by
  obtain ⟨arena, tracks, tiled⟩ := reachable_tracks initial reached
  refine ⟨holds, tracks.separated, ⟨_, tracks.represents.blockList tiled, fun b listed =>
    tracks.used_iff tracks.represents.walked listed⟩, ?_⟩
  intro p isLive size padding small succeeds fits
  obtain ⟨q, _, _, freed, _, returned, _⟩ :=
    @realloc_taken _ _ _ _ padding initial reached isLive small succeeds fits
  exact ⟨q, _, .realloc isLive small succeeds fits returned⟩

/-- However a client allocates, frees, writes and resizes, as long as the copies of its
reallocations fit, the heap does what the store of live pointers does, and serves it. -/
theorem heap_refines_store {run : List (Request × Session)} (initial : Initial start)
    (steps : IsRun ResizeStep start run) :
    ∃ run', IsRun Store.Resize ∅ run' ∧ run'.map Prod.fst = run.map Prod.fst ∧
      Serves start (final start run) (final ∅ run') := by
  have begun : Holds ∅ start := by
    intro p
    rw [initial.live]
    rfl
  have related : Reachable Step start start ∧ Holds ∅ start := ⟨.start, begun⟩
  have carried : ∀ (source : Session) (request : Request) (target : Session) (store : Store),
      Reachable Step start source ∧ Holds store source → ResizeStep source request target →
      ∃ store', Store.Resize store request store' ∧
        (Reachable Step start target ∧ Holds store' target) := by
    rintro source request target store ⟨reached, holds⟩ taken
    obtain ⟨store', taken', holds'⟩ := resize_simulates initial reached holds taken
    exact ⟨store', taken', taken.reaches initial reached, holds'⟩
  obtain ⟨run', steps', labels, reached, holds⟩ := steps.simulate related carried
  exact ⟨run', steps', labels, holds.serves initial reached⟩

/-! ## A run -/

/-- Perform an action, when it is one the client may take. -/
def Session.resize (session : Session) : Request → Option Session
  | .plain event => session.perform event
  | .realloc p size padding q =>
    if p ∈ session.live ∧ size + blockSize < 2 ^ 63 ∧
        session.process.brk + blockSize + size < 2 ^ 64 ∧
        sizeOf session.process.memory (getBlock p) ≤ size then
      match mmRealloc true padding session.process p size with
      | some (.ok (moved, process)) =>
        if moved = q then some ⟨process, (session.live.insert q size).erase p⟩ else none
      | _ => none
    else none

/-- Performing an action is a step. -/
theorem resize_step (source : Session) (request : Request) (target : Session)
    (performed : source.resize request = some target) : ResizeStep source request target := by
  cases request with
  | plain event => exact .plain (Session.perform_step performed)
  | realloc p size padding q =>
    rw [Session.resize] at performed
    split at performed
    · rename_i allowed
      obtain ⟨isLive, small, room, fits⟩ := allowed
      split at performed
      · rename_i moved process returned
        split at performed
        · rename_i same
          obtain rfl := Option.some.inj performed
          exact .realloc isLive small (fun _ => room) (.inl fits) (same ▸ returned)
        · contradiction
      · contradiction
    · contradiction

/-- Allocate, write, grow the payload and write behind its old end. -/
def growingRun : List (Request × Session) :=
  trace Session.resize freshSession [.plain (.malloc 48 0 4136), .plain (.write 4136 0 1),
    .realloc 4136 60 0 4224, .plain (.write 4224 59 2), .plain (.malloc 8 0 4136)]

/-- The heap of that run, which is performed whole, does what the store does. -/
theorem heap_refines_store_growingRun : growingRun.length = 5 ∧
    ∃ run, IsRun Store.Resize ∅ run ∧ run.map Prod.fst = growingRun.map Prod.fst ∧
      Serves freshSession (final freshSession growingRun) (final ∅ run) := by
  have steps : IsRun ResizeStep freshSession growingRun := isRun_trace resize_step _ _
  exact ⟨by decide +kernel, heap_refines_store freshSession_initial steps⟩

end OsAssignments.MmAlloc
