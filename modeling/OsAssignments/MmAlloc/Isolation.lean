import OsAssignments.MmAlloc.BlockList

/-!
# The heap as a map of live payloads

What a client may rely on: a finite map from live pointers to byte strings, where allocating adds
a pointer that was not live, freeing forgets one, and writing changes one byte of one string. The
heap of every reachable session simulates this store. The payloads it hands out lie inside the
heap and apart from each other and from every header, and neither call touches a payload that is
live before and after it.
-/

namespace OsAssignments.MmAlloc

open ByteMemory LinkedList Transition

/-- The live pointers with the bytes requested for them. -/
abbrev Store := Finmap fun _ : Nat => List UInt8

/-- What the actions of a client do to a store. -/
inductive Store.Step : Store → Event → Store → Prop
  /-- Allocation adds some bytes of the requested number under a pointer that is not live. -/
  | malloc {store : Store} {size p : Nat} {padding : UInt32} {bytes : List UInt8}
      (fresh : p ∉ store) (length : bytes.length = size) :
      Step store (.malloc size padding p) (store.insert p bytes)
  /-- Freeing forgets a live pointer. -/
  | free {store : Store} {p : Nat} (isLive : p ∈ store) : Step store (.free p) (store.erase p)
  /-- Writing changes one byte of those requested, and none of them further inside the payload. -/
  | write {store : Store} {p index : Nat} {byte : UInt8} {bytes : List UInt8}
      (isLive : store.lookup p = some bytes) :
      Step store (.write p index byte) (store.insert p (bytes.set index byte))

/-- A session's memory holds the bytes of a store at the session's live pointers. -/
def Holds (store : Store) (session : Session) : Prop :=
  ∀ p, store.lookup p = (session.live.lookup p).map (session.process.memory.load p)

/-- The size of the payload at a pointer, as its header records it. -/
def Session.room (session : Session) (p : Nat) : Nat :=
  sizeOf session.process.memory (getBlock p)

/-- The live payloads lie in the heap above `low`, apart from each other and from every header. -/
structure Separated (session : Session) (low : Nat) : Prop where
  /-- A live payload has at least the size requested. -/
  enough : ∀ p size, session.live.lookup p = some size → size ≤ session.room p
  /-- A live payload lies inside the heap. -/
  inside : ∀ p ∈ session.live, low + blockSize ≤ p ∧ p + session.room p ≤ session.process.brk
  /-- Distinct live payloads share no byte. -/
  disjoint : ∀ p ∈ session.live, ∀ q ∈ session.live, p ≠ q →
    p + session.room p ≤ q ∨ q + session.room q ≤ p
  /-- No live payload shares a byte with a header of the list. -/
  headers : ∀ p ∈ session.live, ∀ nodes, session.process.blocks = some nodes → ∀ b ∈ nodes,
    p + session.room p ≤ b ∨ b + blockSize ≤ p

variable {base : Nat} {start session after : Session} {arena : Arena base} {event : Event}
  {p q n index : Nat} {byte : UInt8} {block other : Block} {store : Store}

/-! ## Payloads of a tracked session -/

/-- The block behind a live pointer of a tracked session. -/
theorem Tracks.blockOf (tracks : Tracks session arena) (isLive : p ∈ session.live) :
    ∃ block ∈ arena.blocks, block.free = false ∧ block.payload = p ∧ session.room p = block.size ∧
      session.process.memory.load p block.size = block.data := by
  obtain ⟨size, found⟩ := Finmap.mem_iff.mp isLive
  obtain ⟨block, member, used, rfl, _⟩ := tracks.sound p size found
  have stored := tracks.represents.segment.stored block member
  have room : session.room block.payload = block.size := by
    rw [Session.room, tracks.represents.getBlock member]
    exact stored.size
  exact ⟨block, member, used, rfl, room, stored.data⟩

/-- Of two blocks in order, one ends before the other starts. -/
theorem Ordered.apart {low high : Nat} {blocks : List Block} (ordered : Ordered low blocks high)
    (member : block ∈ blocks) (inside : other ∈ blocks) (distinct : block ≠ other) :
    block.finish ≤ other.addr ∨ other.finish ≤ block.addr := by
  induction blocks generalizing low with
  | nil => contradiction
  | cons head rest ih =>
    rcases List.mem_cons.mp member with rfl | inner
    · rcases List.mem_cons.mp inside with rfl | inner'
      · contradiction
      · exact .inl (ordered.2.mem inner').1
    · rcases List.mem_cons.mp inside with rfl | inner'
      · exact .inr (ordered.2.mem inner).1
      · exact ih ordered.2 inner inner'

/-- The payloads of a tracked session are separated. -/
theorem Tracks.separated (tracks : Tracks session arena) : Separated session base := by
  have ordered := arena.ordered
  have brk := tracks.represents.brk
  refine ⟨?_, ?_, ?_, ?_⟩
  · intro p size found
    obtain ⟨block, member, _, rfl, enough⟩ := tracks.sound p size found
    rw [Session.room, tracks.represents.getBlock member, sizeOf,
      (tracks.represents.segment.stored block member).size]
    exact enough
  · intro p isLive
    obtain ⟨block, member, _, rfl, room, _⟩ := tracks.blockOf isLive
    obtain ⟨bottom, top⟩ := ordered.mem member
    rw [room, brk]
    exact ⟨Nat.add_le_add_right bottom blockSize, top⟩
  · intro p isLive q isLive' distinct
    obtain ⟨block, member, _, rfl, room, _⟩ := tracks.blockOf isLive
    obtain ⟨other, inside, _, rfl, room', _⟩ := tracks.blockOf isLive'
    have apart := ordered.apart member inside (fun same => distinct (congrArg Block.payload same))
    rw [room, room']
    unfold Block.finish at apart
    unfold Block.payload
    omega
  · intro p isLive nodes walked b listed
    obtain ⟨block, member, _, rfl, room, _⟩ := tracks.blockOf isLive
    obtain rfl : addrs arena.blocks = nodes := by
      simpa [tracks.represents.walked] using walked
    obtain ⟨other, inside, rfl⟩ := List.mem_map.mp listed
    rw [room]
    by_cases same : block = other
    · subst same
      exact .inr (Nat.le_refl _)
    · have apart := ordered.apart member inside same
      unfold Block.finish at apart
      unfold Block.payload
      omega

/-! ## Frames -/

/-- A request is served with a pointer that was not live. -/
theorem Tracks.fresh {padding : UInt32} (tracks : Tracks session arena)
    (taken : Step session (.malloc n padding p) after) : p ∉ session.live := by
  obtain ⟨new, _, payload, _, apart, _⟩ := arena.malloc_used n
  obtain ⟨handed, _⟩ := tracks.malloc taken
  intro isLive
  obtain ⟨block, member, used, same, _⟩ := tracks.blockOf isLive
  exact apart block member used (same.trans (handed.trans payload.symm))

/-- The block of a payload that is live before and after a call is there before and after it. -/
theorem Tracks.kept (tracks : Tracks session arena) (taken : Step session event after)
    (call : ∀ p index byte, event ≠ .write p index byte) (isLive' : block.payload ∈ after.live)
    (member : block ∈ arena.blocks) (used : block.free = false) :
    block ∈ (arena.after event).blocks := by
  cases event with
  | malloc size padding p =>
    obtain ⟨new, _, _, _, _, members⟩ := arena.malloc_used size
    exact (members block used).mpr (.inr member)
  | free p =>
    cases taken with
    | free isLive returned =>
      exact (mem_release_used arena.ordered used).mpr ⟨member, (Finmap.mem_erase.mp isLive').1⟩
  | write p index byte => exact absurd rfl (call p index byte)

/-- A call leaves every payload alone that is live before and after it. -/
theorem Tracks.frame (tracks : Tracks session arena) (taken : Step session event after)
    (call : ∀ p index byte, event ≠ .write p index byte) (isLive : p ∈ session.live)
    (isLive' : p ∈ after.live) :
    AgreeOn after.process.memory session.process.memory p (p + session.room p) := by
  obtain ⟨block, member, used, rfl, room, data⟩ := tracks.blockOf isLive
  have kept := tracks.kept taken call isLive' member used
  have data' := ((tracks.step taken).represents.segment.stored block kept).data
  intro address above below
  obtain ⟨index, rfl⟩ := Nat.exists_eq_add_of_le above
  have inside : index < block.size := by omega
  have same : after.process.memory.load block.payload block.size =
      session.process.memory.load block.payload block.size := data'.trans data.symm
  have bytes := congrArg (·[index]?) same
  simpa [inside] using bytes

/-! ## The simulation -/

/-- A store and a session it describes have the same live pointers. -/
theorem Holds.mem_iff (holds : Holds store session) : p ∈ store ↔ p ∈ session.live := by
  rw [← Finmap.lookup_isSome, ← Finmap.lookup_isSome, holds p, Option.isSome_map]

/-- The requested bytes of a payload are left alone when the whole payload is. -/
theorem Tracks.requested {memory : ByteMemory} (tracks : Tracks session arena)
    (agree : p ∈ session.live → AgreeOn memory session.process.memory p (p + session.room p)) :
    (session.live.lookup p).map (memory.load p) =
      (session.live.lookup p).map (session.process.memory.load p) := by
  cases found : session.live.lookup p with
  | none => rfl
  | some size =>
    have enough := tracks.separated.enough p size found
    have whole := agree (Finmap.mem_of_lookup_eq_some found)
    have part : AgreeOn memory session.process.memory p (p + size) :=
      whole.mono (Nat.le_refl _) (Nat.add_le_add_left enough p)
    rw [Option.map_some, Option.map_some, load_congr part]

/-- Every action of the client is an action on the store its memory holds. -/
theorem Tracks.simulates (tracks : Tracks session arena) (holds : Holds store session)
    (taken : Step session event after) :
    ∃ store', Store.Step store event store' ∧ Holds store' after := by
  cases event with
  | malloc size padding p =>
    have fresh := tracks.fresh taken
    have frame := fun q => @Tracks.frame _ _ after _ _ q tracks taken (by simp)
    cases taken with
    | @malloc process process' live _ _ _ small succeeds returned =>
      refine ⟨store.insert p (process'.memory.load p size),
        .malloc (mt holds.mem_iff.mp fresh) length_load, fun q => ?_⟩
      by_cases same : q = p
      · rw [same, Finmap.lookup_insert, Finmap.lookup_insert]
        rfl
      · have lookup : (live.insert p size).lookup q = live.lookup q :=
          Finmap.lookup_insert_of_ne _ same
        rw [Finmap.lookup_insert_of_ne _ same, holds q, lookup]
        exact (tracks.requested fun isLive =>
          frame q isLive (Finmap.mem_insert.mpr (.inr isLive))).symm
  | free p =>
    have frame := fun q => @Tracks.frame _ _ after _ _ q tracks taken (by simp)
    cases taken with
    | @free process process' live _ isLive returned =>
      refine ⟨store.erase p, .free (holds.mem_iff.mpr isLive), fun q => ?_⟩
      by_cases same : q = p
      · rw [same, Finmap.lookup_erase, Finmap.lookup_erase]
        rfl
      · have lookup : (live.erase p).lookup q = live.lookup q := Finmap.lookup_erase_ne same
        rw [Finmap.lookup_erase_ne same, holds q, lookup]
        exact (tracks.requested fun isLive =>
          frame q isLive (Finmap.mem_erase.mpr ⟨same, isLive⟩)).symm
  | write p index byte =>
    cases taken with
    | @write process live _ size _ _ isLive inside =>
      have isLive' : p ∈ live := Finmap.mem_of_lookup_eq_some isLive
      have stored : store.lookup p = some (process.memory.load p size) := by
        rw [holds p, isLive]
        rfl
      have within : index < Session.room ⟨process, live⟩ p := by
        rcases inside with requested | recorded
        · exact Nat.lt_of_lt_of_le requested (tracks.separated.enough p size isLive)
        · exact recorded
      refine ⟨_, .write stored, fun q => ?_⟩
      by_cases same : q = p
      · rw [same, Finmap.lookup_insert, isLive, Option.map_some, Option.some.injEq]
        by_cases requested : index < size
        · exact load_store_set.symm
        · rw [List.set_eq_of_length_le (by rw [length_load]; omega)]
          exact (load_congr (store_agree (.inl (by omega)))).symm
      · rw [Finmap.lookup_insert_of_ne _ same, holds q]
        refine (tracks.requested fun isLive'' => store_agree ?_).symm
        have apart := tracks.separated.disjoint q isLive'' p isLive' same
        rw [List.length_singleton]
        omega

/-- What the heap of a session keeps of the promises of a store. -/
structure Refines (start session : Session) : Prop where
  /-- The live payloads are separated. -/
  separated : Separated session start.process.brk
  /-- The session's memory holds a store that the same kind of actions lead to. -/
  holds : ∃ store, Reachable Store.Step ∅ store ∧ Holds store session
  /-- Every further action is the same action on the store held. -/
  simulates : ∀ store event after, Holds store session → Step session event after →
    ∃ store', Store.Step store event store' ∧ Holds store' after
  /-- A request returns when the `sbrk` it may need succeeds. -/
  mallocReturns : ∀ size padding, size + blockSize < 2 ^ 63 → SbrkSucceeds session.process size →
    ∃ p after, Step session (.malloc size padding p) after
  /-- A request returns a pointer that is not live. -/
  fresh : ∀ size padding p after, Step session (.malloc size padding p) after → p ∉ session.live
  /-- Freeing a live pointer returns. -/
  freeReturns : ∀ p ∈ session.live, ∃ after, Step session (.free p) after
  /-- A request leaves every byte of every live payload alone. -/
  mallocFrame : ∀ size padding p after, Step session (.malloc size padding p) after →
    ∀ q ∈ session.live,
      AgreeOn after.process.memory session.process.memory q (q + session.room q)
  /-- Freeing leaves every byte of every payload alone that stays live. -/
  freeFrame : ∀ p after, Step session (.free p) after → ∀ q ∈ session.live, q ≠ p →
    AgreeOn after.process.memory session.process.memory q (q + session.room q)

/-- The heap of every reachable session refines a map from live pointers to their bytes. -/
theorem refines_reachable (initial : Initial start) (reached : Reachable Step start session) :
    Refines start session := by
  obtain ⟨arena, tracks, _⟩ := reachable_tracks initial reached
  have begun : Holds ∅ start := by
    intro p
    rw [initial.live]
    rfl
  have held : ∃ store, Reachable Store.Step ∅ store ∧ Holds store session := by
    have carried := @Reachable.simulate _ _ _ _ Step start session ∅ Store.Step
      (fun session store => Holds store session) reached begun
    apply carried
    intro source event target store reached' holds taken
    obtain ⟨_, tracks', _⟩ := reachable_tracks initial reached'
    obtain ⟨store', taken', holds'⟩ := tracks'.simulates holds taken
    exact ⟨event, store', taken', holds'⟩
  refine ⟨tracks.separated, held, fun _ _ _ => tracks.simulates,
    fun _ padding => tracks.malloc_returns padding, fun _ _ _ _ => tracks.fresh,
    fun _ => tracks.free_returns, ?_, ?_⟩
  · intro size padding p after taken q isLive
    have isLive' : q ∈ after.live := by
      cases taken with
      | malloc small succeeds returned => exact Finmap.mem_insert.mpr (.inr isLive)
    exact tracks.frame taken (by simp) isLive isLive'
  · intro p after taken q isLive distinct
    have isLive' : q ∈ after.live := by
      cases taken with
      | free isLive'' returned => exact Finmap.mem_erase.mpr ⟨distinct, isLive⟩
    exact tracks.frame taken (by simp) isLive isLive'

/-- The heap at the end of the sample run. -/
theorem refines_sampleRun :
    sampleRun.length = 4 ∧ Refines freshSession (final freshSession sampleRun) :=
  ⟨by decide +kernel, refines_reachable freshSession_initial sampleRun_reachable⟩

end OsAssignments.MmAlloc
