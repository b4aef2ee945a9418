import Mathlib.Order.Bounds.Basic
import OsAssignments.MmAlloc.BlockList

/-!
# First fit

A request should be served by the free block of lowest address that is large enough, and the heap
should grow only when there is none. `mm_malloc` passes over a free block unless it has a header
to spare on top of the size asked for, so it does the right thing exactly when the block that
should serve has that much.
-/

namespace OsAssignments.MmAlloc

open ByteMemory LinkedList Transition

/-- A free block of the list is large enough for a request. -/
structure HasRoom (process : Process) (n b : Nat) : Prop where
  /-- It is on the list. -/
  listed : ∃ nodes, process.blocks = some nodes ∧ b ∈ nodes
  /-- It is free. -/
  free : freeOf process.memory b = 1
  /-- It has the size asked for. -/
  room : n ≤ sizeOf process.memory b

/-- The free block of lowest address that is large enough for a request. -/
def LowestFit (process : Process) (n b : Nat) : Prop := IsLeast {b | HasRoom process n b} b

/-- What first fit promises of a request and the pointer returned for it. -/
structure FirstFit (process : Process) (n p : Nat) (after : Process) : Prop where
  /-- The heap grows exactly when no free block is large enough. -/
  grows : after.brk ≠ process.brk ↔ ¬ ∃ b, HasRoom process n b
  /-- Otherwise the lowest of those serves. -/
  lowest : ∀ b, LowestFit process n b → p = dataOf b
  /-- It is split only when the rest can hold a header. -/
  splits : ∀ b, LowestFit process n b → after.blocks ≠ process.blocks →
    n + blockSize ≤ sizeOf process.memory b

/-- The block that should serve a request, if there is one, has a header to spare. -/
def HeaderSpare (process : Process) (n : Nat) : Prop :=
  ∀ b, LowestFit process n b → n + blockSize ≤ sizeOf process.memory b

variable {base n b : Nat} {start session : Session} {arena : Arena base}
  {process after : Process} {block : Block} {left right : List Block}

/-- Where a free block is large enough, one of them is the lowest. -/
theorem exists_lowestFit (some : ∃ b, HasRoom process n b) : ∃ b, LowestFit process n b := by
  classical
  exact ⟨Nat.find some, Nat.find_spec some, fun _ fits => Nat.find_min' some fits⟩

/-- The blocks with room are the free ones of the arena that are large enough. -/
theorem Represents.hasRoom_iff (rep : Represents process arena) :
    HasRoom process n b ↔
      ∃ block ∈ arena.blocks, block.addr = b ∧ block.free = true ∧ n ≤ block.size := by
  have walked := rep.walked
  constructor
  · rintro ⟨⟨nodes, listed, member⟩, free, room⟩
    obtain rfl : addrs arena.blocks = nodes := by simpa [walked] using listed
    obtain ⟨block, inside, rfl⟩ := List.mem_map.mp member
    have stored := rep.segment.stored block inside
    rw [freeOf, stored.free] at free
    rw [sizeOf, stored.size] at room
    exact ⟨block, inside, rfl, by simpa using free, room⟩
  · rintro ⟨block, inside, rfl, free, room⟩
    have stored := rep.segment.stored block inside
    refine ⟨⟨_, walked, List.mem_map_of_mem inside⟩, ?_, ?_⟩
    · rw [freeOf, stored.free, free]
      rfl
    · rw [sizeOf, stored.size]
      exact room

/-- Where no block of the arena has a header to spare and the heap grows, first fit is kept
exactly when no free block is large enough. -/
theorem firstFit_grown (rep : Represents process arena) (none : ∀ block ∈ arena.blocks, ¬ block.Fits n)
    (grown : after.brk ≠ process.brk) (p : Nat) :
    FirstFit process n p after ↔ HeaderSpare process n := by
  constructor
  · intro first b lowest
    exact absurd ⟨b, lowest.1⟩ (first.grows.mp grown)
  · intro spare
    have nothing : ¬ ∃ b, HasRoom process n b := by
      intro some
      obtain ⟨b, lowest⟩ := exists_lowestFit some
      have room := spare b lowest
      obtain ⟨block, member, rfl, free, _⟩ := rep.hasRoom_iff.mp lowest.1
      rw [sizeOf, (rep.segment.stored block member).size] at room
      exact none block member ⟨free, room⟩
    exact ⟨iff_of_true grown nothing, fun b lowest => absurd ⟨b, lowest.1⟩ nothing, fun b lowest =>
      absurd ⟨b, lowest.1⟩ nothing⟩

/-- Where the first block with a header to spare serves, first fit is kept exactly when no block
before it is free and large enough. -/
theorem firstFit_served (rep : Represents process arena)
    (same : arena.blocks = left ++ block :: right) (before : ∀ other ∈ left, ¬ other.Fits n)
    (fits : block.Fits n) (kept : after.brk = process.brk) :
    FirstFit process n block.payload after ↔ HeaderSpare process n := by
  have member : block ∈ arena.blocks := same ▸ List.mem_append_right left List.mem_cons_self
  have served : HasRoom process n block.addr := by
    apply rep.hasRoom_iff.mpr
    exact ⟨block, member, rfl, fits.1, Nat.le_trans (Nat.le_add_right _ _) fits.2⟩
  constructor
  · intro first b lowest
    have chosen : block.addr = b := Nat.add_right_cancel (first.lowest b lowest)
    rw [← chosen, sizeOf, (rep.segment.stored block member).size]
    exact fits.2
  · intro spare
    refine ⟨iff_of_false (fun grown => grown kept) (fun nothing => nothing ⟨_, served⟩), ?_,
      fun b lowest _ => spare b lowest⟩
    intro b lowest
    have room := spare b lowest
    have below : b ≤ block.addr := lowest.2 served
    obtain ⟨other, inside, rfl, free, _⟩ := rep.hasRoom_iff.mp lowest.1
    rw [sizeOf, (rep.segment.stored other inside).size] at room
    have ordered := arena.ordered
    rw [same] at inside ordered
    -- The lowest block has a header to spare, so it is none of those before the one that serves.
    have behind : other ∈ block :: right := (List.mem_append.mp inside).resolve_left fun inLeft =>
      before other inLeft ⟨free, room⟩
    have above := (ordered.split.2.mem behind).1
    have chosen : block.addr = other.addr := Nat.le_antisymm above below
    exact congrArg (· + blockSize) chosen

/-- In every reachable session first fit is kept for exactly the requests for which the block that
should serve has a header to spare. -/
theorem firstFit_iff (padding : UInt32) (initial : Initial start)
    (reached : Reachable Step start session) (small : n + blockSize < 2 ^ 63)
    (succeeds : SbrkSucceeds session.process n) :
    (∃ p after, mmMalloc true padding session.process n = some (p, after) ∧
      FirstFit session.process n p after) ↔ HeaderSpare session.process n := by
  obtain ⟨arena, tracks, _⟩ := reachable_tracks initial reached
  have rep := tracks.represents
  obtain ⟨after, returned, rep'⟩ := mmMalloc_refines padding rep small (succeeds.room rep small)
  have reduce : (∃ p after', mmMalloc true padding session.process n = some (p, after') ∧
      FirstFit session.process n p after') ↔
        FirstFit session.process n (arena.malloc n).1 after := by
    constructor
    · rintro ⟨p, after', returned', first⟩
      rw [returned, Option.some.injEq, Prod.mk.injEq] at returned'
      rw [returned'.1, returned'.2]
      exact first
    · exact fun first => ⟨_, _, returned, first⟩
  rw [reduce]
  rcases serve_cases n arena.blocks with ⟨none, all⟩ | ⟨left, block, right, same, before, fits, some⟩
  · apply firstFit_grown rep all
    rw [rep'.brk, rep.brk, Arena.malloc_of_none none]
    simp only [Arena.extend, blockSize]
    omega
  · obtain ⟨handed, _, brk⟩ := Arena.malloc_of_some some
    rw [handed]
    apply firstFit_served rep same before fits
    rw [rep'.brk, rep.brk, brk]

/-- A request of twenty bytes after the sample run passes over a free block of forty-eight. -/
theorem firstFit_passes : ¬ ∀ (start session : Session) (n : Nat) (padding : UInt32),
    Initial start → Reachable Step start session → n + blockSize < 2 ^ 63 →
    SbrkSucceeds session.process n →
    ∃ p after, mmMalloc true padding session.process n = some (p, after) ∧
      FirstFit session.process n p after := by
  intro claim
  obtain ⟨p, after, returned, first⟩ := claim freshSession (final freshSession sampleRun) 20 0
    freshSession_initial sampleRun_reachable (by decide) (fun _ => by decide +kernel)
  have grown : (mmMalloc true 0 (final freshSession sampleRun).process 20).map
      (fun result => result.2.brk) = some 4292 := by decide +kernel
  rw [returned] at grown
  have top : after.brk = 4292 := Option.some.inj grown
  have larger : after.brk ≠ (final freshSession sampleRun).process.brk := by
    rw [top]
    decide +kernel
  apply first.grows.mp larger
  exact ⟨4096, ⟨[4096, 4184], by decide +kernel, by decide⟩, by decide +kernel, by decide +kernel⟩

/-- A request of four bytes after the sample run is served first fit. -/
theorem firstFit_sampleRun : sampleRun.length = 4 ∧ ∃ p after,
    mmMalloc true 0 (final freshSession sampleRun).process 4 = some (p, after) ∧
      FirstFit (final freshSession sampleRun).process 4 p after := by
  refine ⟨by decide +kernel, (firstFit_iff 0 freshSession_initial sampleRun_reachable (by decide)
    (fun _ => by decide +kernel)).mpr ?_⟩
  intro b lowest
  have walked : (final freshSession sampleRun).process.blocks = some [4096, 4184] := by
    decide +kernel
  obtain ⟨nodes, listed, member⟩ := lowest.1.listed
  rw [walked, Option.some.injEq] at listed
  rw [← listed, List.mem_cons, List.mem_singleton] at member
  rcases member with rfl | rfl
  · decide +kernel
  · have used : freeOf (final freshSession sampleRun).process.memory 4184 = 0 := by decide +kernel
    have free := lowest.1.free
    rw [used] at free
    contradiction

end OsAssignments.MmAlloc
