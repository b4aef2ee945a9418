import Mathlib.Data.Finmap
import OsAssignments.Library.Transition
import OsAssignments.MmAlloc.Refine

/-!
# Sessions with the allocator

A session is a process together with the pointers its client holds and the sizes it asked for.
The client allocates, frees pointers it holds, and writes inside their payloads, the bytes that a
block has beyond the requested size included; every `sbrk` that is called succeeds and returns
the previous break. In every reachable session the process represents an arena whose used blocks
are exactly the client's pointers.
-/

namespace OsAssignments.MmAlloc

open LinkedList Transition

/-- A process and the client's live pointers with the sizes requested for them. -/
structure Session where
  /-- The process. -/
  process : Process
  /-- The live pointers. -/
  live : Finmap fun _ : Nat => Nat

/-- What a client does. -/
inductive Event
  /-- `mm_malloc(size)` returning `p`, with four bytes of stack left in the header. -/
  | malloc (size : Nat) (padding : UInt32) (p : Nat)
  /-- `mm_free(p)`. -/
  | free (p : Nat)
  /-- `p[index] = byte`. -/
  | write (p index : Nat) (byte : UInt8)
  deriving DecidableEq

/-- An `sbrk` that `mm_malloc` needs finds room: the new break is an address. -/
def SbrkSucceeds (process : Process) (size : Nat) : Prop :=
  (∃ lastBlock, process.findFit size = some (.absent lastBlock)) →
    process.brk + blockSize + size < 2 ^ 64

/-- One action of the client. -/
inductive Step : Session → Event → Session → Prop
  /-- A request whose size and header do not overflow returns a pointer. -/
  | malloc {process process' : Process} {live : Finmap fun _ : Nat => Nat} {size p : Nat}
      {padding : UInt32} (small : size + blockSize < 2 ^ 63) (succeeds : SbrkSucceeds process size)
      (returned : mmMalloc true padding process size = some (p, process')) :
      Step ⟨process, live⟩ (.malloc size padding p) ⟨process', live.insert p size⟩
  /-- A live pointer is freed. -/
  | free {process process' : Process} {live : Finmap fun _ : Nat => Nat} {p : Nat}
      (isLive : p ∈ live) (returned : mmFree process p = some (.ok process')) :
      Step ⟨process, live⟩ (.free p) ⟨process', live.erase p⟩
  /-- A byte of a live payload is written: of the size requested, or of the size in the header. -/
  | write {process : Process} {live : Finmap fun _ : Nat => Nat} {p size index : Nat} {byte : UInt8}
      (isLive : live.lookup p = some size)
      (inside : index < size ∨ index < readField process.memory (getBlock p) .size) :
      Step ⟨process, live⟩ (.write p index byte)
        ⟨{ process with memory := process.memory.store (p + index) [byte] }, live⟩

/-- A session before the first call: no list, no live pointer, a proper break. -/
structure Initial (session : Session) : Prop where
  /-- `block_list_head` is still null. -/
  head : session.process.blockListHead = null
  /-- Nothing is live. -/
  live : session.live = ∅
  /-- The break is not the null pointer. -/
  positive : 0 < session.process.brk
  /-- The break is an address. -/
  fits : session.process.brk < 2 ^ 64

/-- What an action does to an arena. -/
def Arena.after {base : Nat} (arena : Arena base) : Event → Arena base
  | .malloc size _ _ => (arena.malloc size).2
  | .free p => arena.free p
  | .write p index byte => arena.write p index byte

variable {base : Nat} {start session after : Session} {arena : Arena base} {event : Event}
  {p q n m : Nat} {block : Block}

/-- A session's process represents an arena whose used blocks are the session's live pointers. -/
structure Tracks (session : Session) (arena : Arena base) : Prop where
  /-- The process represents the arena. -/
  represents : Represents session.process arena
  /-- A live pointer is the payload of a used block of at least the requested size. -/
  sound : ∀ p n, session.live.lookup p = some n →
    ∃ block ∈ arena.blocks, block.free = false ∧ block.payload = p ∧ n ≤ block.size
  /-- The payload of a used block is a live pointer. -/
  complete : ∀ block ∈ arena.blocks, block.free = false → block.payload ∈ session.live

/-- Before the first call a session tracks the empty arena at its break. -/
theorem Initial.tracks (initial : Initial session) :
    Tracks session (Arena.empty session.process.brk) := by
  refine ⟨⟨initial.head, rfl, segment_nil, initial.positive, initial.fits⟩, ?_, ?_⟩
  · intro p n found
    simp [initial.live] at found
  · intro block member
    contradiction

/-- A needed `sbrk` finds room in the terms of the arena. -/
theorem SbrkSucceeds.room {process : Process} (succeeds : SbrkSucceeds process n)
    (rep : Represents process arena) (small : n + blockSize < 2 ^ 63)
    (none : serve n arena.blocks = none) : arena.brk + blockSize + n < 2 ^ 64 := by
  rw [← rep.brk]
  exact succeeds ((rep.absent_iff (by omega)).mpr none)

/-- A request returns what the arena hands out, and the session goes on tracking. -/
theorem Tracks.malloc {padding : UInt32} (tracks : Tracks session arena)
    (taken : Step session (.malloc n padding p) after) :
    p = (arena.malloc n).1 ∧ Tracks after (arena.malloc n).2 := by
  obtain ⟨represents, sound, complete⟩ := tracks
  cases taken with
  | malloc small succeeds returned =>
    obtain ⟨process', called, rep⟩ := mmMalloc_refines padding represents small
      (succeeds.room represents small)
    rw [called] at returned
    obtain ⟨rfl, rfl⟩ : (arena.malloc n).1 = p ∧ process' = _ := by simpa using returned
    obtain ⟨new, used, payload, enough, fresh, members⟩ := arena.malloc_used n
    refine ⟨rfl, rep, ?_, ?_⟩
    · intro q m found
      by_cases same : q = (arena.malloc n).1
      · rw [same, Finmap.lookup_insert, Option.some.injEq] at found
        exact ⟨new, (members new used).mpr (.inl rfl), used, payload.trans same.symm, found ▸ enough⟩
      · rw [Finmap.lookup_insert_of_ne _ same] at found
        obtain ⟨block, member, blockUsed, payloadIs, room⟩ := sound q m found
        exact ⟨block, (members block blockUsed).mpr (.inr member), blockUsed, payloadIs, room⟩
    · intro block member blockUsed
      rw [Finmap.mem_insert]
      rcases (members block blockUsed).mp member with rfl | old
      · exact .inl payload
      · exact .inr (complete block old blockUsed)

/-- Freeing a live pointer returns, and the session goes on tracking. -/
theorem Tracks.free (tracks : Tracks session arena) (taken : Step session (.free p) after) :
    Tracks after (arena.free p) := by
  obtain ⟨represents, sound, complete⟩ := tracks
  cases taken with
  | free isLive returned =>
    obtain ⟨size, found⟩ := Finmap.mem_iff.mp isLive
    obtain ⟨freed, member, used, rfl, _⟩ := sound p size found
    obtain ⟨process', called, rep⟩ := mmFree_refines represents member used
    rw [called] at returned
    obtain rfl : process' = _ := by simpa using returned
    refine ⟨rep, ?_, ?_⟩
    · intro q m found
      have other : q ≠ freed.payload := by
        rintro rfl
        simp at found
      rw [Finmap.lookup_erase_ne other] at found
      obtain ⟨block, inside, blockUsed, rfl, room⟩ := sound q m found
      exact ⟨block, (mem_release_used arena.ordered blockUsed).mpr ⟨inside, other⟩, blockUsed, rfl,
        room⟩
    · intro block inside blockUsed
      obtain ⟨old, other⟩ := (mem_release_used arena.ordered blockUsed).mp inside
      exact Finmap.mem_erase.mpr ⟨other, complete block old blockUsed⟩

/-- The blocks after overwriting a byte: the same but for the payload written. -/
theorem mem_overwrite {blocks : List Block} {index : Nat} {byte : UInt8} {other : Block} :
    other ∈ overwrite p index byte blocks ↔ ∃ block ∈ blocks, other =
      if block.payload = p then { block with data := block.data.set index byte } else block := by
  simp only [overwrite, List.mem_map, eq_comm]

/-- After a client write the session goes on tracking. -/
theorem Tracks.write {index : Nat} {byte : UInt8} (tracks : Tracks session arena)
    (taken : Step session (.write p index byte) after) :
    Tracks after (arena.write p index byte) := by
  obtain ⟨represents, sound, complete⟩ := tracks
  cases taken with
  | write isLive inside =>
    obtain ⟨written, member, _, rfl, room⟩ := sound p _ isLive
    have within : index < written.size := by
      rcases inside with requested | recorded
      · exact Nat.lt_of_lt_of_le requested room
      · rwa [represents.getBlock member, (represents.segment.stored written member).size] at recorded
    have rep := write_refines represents member within byte
    have kept : ∀ block : Block, ∀ changed, changed = (if block.payload = written.payload then
        { block with data := block.data.set index byte } else block) →
        changed.free = block.free ∧ changed.payload = block.payload ∧ changed.size = block.size := by
      rintro block _ rfl
      split
      · exact ⟨rfl, rfl, size_set block index byte⟩
      · exact ⟨rfl, rfl, rfl⟩
    refine ⟨rep, ?_, ?_⟩
    · intro q m found
      obtain ⟨block, inside', blockUsed, payload, enough⟩ := sound q m found
      obtain ⟨free, payload', size⟩ := kept block _ rfl
      exact ⟨_, mem_overwrite.mpr ⟨block, inside', rfl⟩, free.trans blockUsed,
        payload'.trans payload, size ▸ enough⟩
    · intro changed inside' changedUsed
      obtain ⟨block, old, same⟩ := mem_overwrite.mp inside'
      obtain ⟨free, payload, _⟩ := kept block changed same
      rw [payload]
      exact complete block old (free ▸ changedUsed)

/-- Every action of the client keeps the session tracking the arena it turns into. -/
theorem Tracks.step (tracks : Tracks session arena) (taken : Step session event after) :
    Tracks after (arena.after event) := by
  cases event with
  | malloc size padding p => exact (tracks.malloc taken).2
  | free p => exact tracks.free taken
  | write p index byte => exact tracks.write taken

/-- A request within the size bound returns, when the `sbrk` it may need succeeds. -/
theorem Tracks.malloc_returns (tracks : Tracks session arena) (padding : UInt32)
    (small : n + blockSize < 2 ^ 63) (succeeds : SbrkSucceeds session.process n) :
    ∃ p after, Step session (.malloc n padding p) after := by
  obtain ⟨process', called, _⟩ := mmMalloc_refines padding tracks.represents small
    (succeeds.room tracks.represents small)
  exact ⟨_, _, .malloc small succeeds called⟩

/-- Freeing a live pointer returns. -/
theorem Tracks.free_returns (tracks : Tracks session arena) (isLive : p ∈ session.live) :
    ∃ after, Step session (.free p) after := by
  obtain ⟨size, found⟩ := Finmap.mem_iff.mp isLive
  obtain ⟨block, member, used, rfl, _⟩ := tracks.sound p size found
  obtain ⟨process', called, _⟩ := mmFree_refines tracks.represents member used
  exact ⟨_, .free isLive called⟩

/-! ## Tilings -/

/-- Blocks that fill the addresses between two bounds without a gap. -/
def Tiles : Nat → List Block → Nat → Prop
  | low, [], high => low = high
  | low, block :: rest, high => block.addr = low ∧ Tiles block.finish rest high

/-- Tilings are cut, or joined, at any block. -/
theorem tiles_append {low high : Nat} {left right : List Block} :
    Tiles low (left ++ right) high ↔ ∃ mid, Tiles low left mid ∧ Tiles mid right high := by
  induction left generalizing low with
  | nil => simp [Tiles]
  | cons block rest ih => simp [Tiles, ih, and_assoc]

/-- Joining two neighbours of a tiling leaves a tiling. -/
theorem joinNext_tiles {high : Nat} {blocks : List Block} (tail : Tiles block.finish blocks high) :
    Tiles block.addr (joinNext block blocks) high := by
  cases blocks with
  | nil => exact ⟨rfl, tail⟩
  | cons next blocks =>
    rw [joinNext]
    split
    · have finish : (block.merge next).finish = next.finish := by
        have start := tail.1
        unfold Block.finish at *
        rw [Block.merge_addr, Block.merge_size]
        omega
      exact ⟨rfl, finish ▸ tail.2⟩
    · exact ⟨rfl, tail⟩

/-- Freeing a block of a tiling leaves a tiling. -/
theorem release_tiles {low high : Nat} {blocks : List Block} (tiles : Tiles low blocks high) :
    Tiles low (release p blocks) high := by
  induction blocks generalizing low with
  | nil => exact tiles
  | cons block rest ih =>
    obtain ⟨rfl, tail⟩ := tiles
    rw [release]
    split
    · have freed : Tiles ({ block with free := true } : Block).addr
          (joinNext { block with free := true } rest) high := joinNext_tiles tail
      exact freed
    · exact joinNext_tiles (ih tail)

/-- A carved block tiles the place of the block. -/
theorem Block.carve_tiles (fits : block.Fits n) :
    Tiles block.addr (block.carve n) block.finish := by
  have room := fits.2
  unfold Block.carve
  split
  · exact ⟨rfl, rfl⟩
  · simp only [Tiles, Block.finish, Block.size_mk, List.length_replicate]
    exact ⟨trivial, by omega, by omega⟩

/-- Serving a request from a tiling leaves a tiling. -/
theorem serve_tiles {low high : Nat} {blocks served : List Block} (tiles : Tiles low blocks high)
    (found : serve n blocks = some (p, served)) : Tiles low served high := by
  obtain ⟨none, _⟩ | ⟨left, block, right, rfl, _, fits, some⟩ := serve_cases n blocks
  · simp [none] at found
  · obtain ⟨rfl, rfl⟩ : block.payload = p ∧ left ++ block.carve n ++ right = served := by
      simpa [some] using found
    obtain ⟨mid, before, start, behind⟩ := tiles_append.mp tiles
    rw [List.append_assoc]
    exact tiles_append.mpr ⟨mid, before,
      tiles_append.mpr ⟨block.finish, start ▸ Block.carve_tiles fits, behind⟩⟩

/-- Overwriting a payload byte of a tiling leaves a tiling. -/
theorem overwrite_tiles {low high index : Nat} {byte : UInt8} {blocks : List Block}
    (tiles : Tiles low blocks high) : Tiles low (overwrite p index byte blocks) high := by
  induction blocks generalizing low with
  | nil => exact tiles
  | cons block rest ih =>
    obtain ⟨start, tail⟩ := tiles
    rw [overwrite, List.map_cons]
    split
    · refine ⟨start, ?_⟩
      rw [Block.finish, size_set]
      exact ih tail
    · exact ⟨start, ih tail⟩

/-- The blocks of an arena fill the whole heap. -/
def Arena.Tiled (arena : Arena base) : Prop := Tiles base arena.blocks arena.brk

/-- A request leaves a tiled arena tiled, whether served or not. -/
theorem Arena.Tiled.malloc (tiled : arena.Tiled) (n : Nat) : (arena.malloc n).2.Tiled := by
  cases found : serve n arena.blocks with
  | none =>
    rw [Arena.malloc_of_none found]
    refine tiles_append.mpr ⟨arena.brk, tiled, rfl, ?_⟩
    simp [Tiles, Block.finish, Arena.extend]
  | some result =>
    obtain ⟨p, blocks⟩ := result
    obtain ⟨_, blocksIs, brkIs⟩ := Arena.malloc_of_some found
    rw [Arena.Tiled, blocksIs, brkIs]
    exact serve_tiles tiled found

/-- Every action leaves a tiled arena tiled. -/
theorem Arena.Tiled.step (tiled : arena.Tiled) (event : Event) : (arena.after event).Tiled := by
  cases event with
  | malloc size padding p => exact tiled.malloc size
  | free p => exact release_tiles tiled
  | write p index byte => exact overwrite_tiles tiled

/-- Every reachable session tracks a tiled arena that starts at the first break. -/
theorem reachable_tracks (initial : Initial start) (reached : Reachable Step start session) :
    ∃ arena : Arena start.process.brk, Tracks session arena ∧ arena.Tiled := by
  refine @Reachable.invariant _ _ Step start session (fun session =>
    ∃ arena : Arena start.process.brk, Tracks session arena ∧ arena.Tiled) reached
    ⟨_, initial.tracks, rfl⟩ ?_
  rintro source event target ⟨arena, tracks, tiled⟩ taken
  exact ⟨arena.after event, tracks.step taken, tiled.step event⟩

/-! ## Performing actions -/

/-- Perform an action, when it is one the client may take and the break has room for a block. -/
def Session.perform (session : Session) : Event → Option Session
  | .malloc size padding p =>
    if size + blockSize < 2 ^ 63 ∧ session.process.brk + blockSize + size < 2 ^ 64 then
      (mmMalloc true padding session.process size).bind fun returned =>
        if returned.1 = p then some ⟨returned.2, session.live.insert p size⟩ else none
    else none
  | .free p =>
    match session.live.lookup p, mmFree session.process p with
    | some _, some (.ok process) => some ⟨process, session.live.erase p⟩
    | _, _ => none
  | .write p index byte =>
    match session.live.lookup p with
    | some size =>
      if index < size then
        some { session with process.memory := session.process.memory.store (p + index) [byte] }
      else none
    | none => none

/-- Performing an action is a step. -/
theorem Session.perform_step (performed : session.perform event = some after) :
    Step session event after := by
  cases event with
  | malloc size padding p =>
    rw [perform] at performed
    split at performed
    · rename_i room
      obtain ⟨⟨q, process⟩, returned, rest⟩ := Option.bind_eq_some_iff.mp performed
      split at rest
      · rename_i same
        obtain rfl := Option.some.inj rest
        obtain rfl : q = p := same
        exact .malloc room.1 (fun _ => room.2) returned
      · contradiction
    · contradiction
  | free p =>
    rw [perform] at performed
    split at performed
    · rename_i found returned
      obtain rfl := Option.some.inj performed
      exact .free (Finmap.mem_of_lookup_eq_some found) returned
    · contradiction
  | write p index byte =>
    rw [perform] at performed
    split at performed
    · rename_i found
      split at performed
      · rename_i inside
        obtain rfl := Option.some.inj performed
        exact .write found (.inl inside)
      · contradiction
    · contradiction

/-- A process that has called nothing yet, with all its memory zero and the break at 4096. -/
def freshSession : Session := ⟨⟨fun _ => 0, null, 4096⟩, ∅⟩

/-- The fresh session is an initial one. -/
theorem freshSession_initial : Initial freshSession := ⟨rfl, rfl, by decide, by decide⟩

/-- Two allocations with a write to the first, which is then freed. -/
def sampleRun : List (Event × Session) :=
  trace Session.perform freshSession
    [.malloc 48 0 4136, .write 4136 0 1, .malloc 8 0 4224, .free 4136]

/-- The end of the sample run is reachable. -/
theorem sampleRun_reachable : Reachable Step freshSession (final freshSession sampleRun) :=
  (isRun_trace (fun _ _ _ => Session.perform_step) freshSession _).reachable

end OsAssignments.MmAlloc
