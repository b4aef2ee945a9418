import OsAssignments.MmAlloc.Isolation

/-!
# Cleared payloads

`extend_heap`, `split_block` and `fusion` clear the payloads they make. A free block with exactly
a header to spare is taken whole by `mm_malloc` and cleared by nobody, neither there nor when it
was freed, so a request served that way is given what the last owner left.
-/

namespace OsAssignments.MmAlloc

open ByteMemory LinkedList Transition

/-- The bytes requested read zero when `mm_malloc` returns. -/
def ZeroFilled (_ : Session) : Event → Session → Prop
  | .malloc size _ p, after => after.process.memory.load p size = List.replicate size 0
  | _, _ => True

/-- A free block that a request will take whole already holds as many zero bytes. -/
def TakesCleared (before : Session) : Event → Session → Prop
  | .malloc size _ _, _ => ∀ iter, before.process.findFit size = some (.whole iter) →
      before.process.memory.load (dataOf iter) size = List.replicate size 0
  | _, _ => True

instance (before : Session) (event : Event) (after : Session) :
    Decidable (ZeroFilled before event after) := by
  cases event with
  | malloc size padding p => exact inferInstanceAs (Decidable (_ = _))
  | free p => exact inferInstanceAs (Decidable True)
  | write p index byte => exact inferInstanceAs (Decidable True)

variable {base n p : Nat} {start session after : Session} {arena : Arena base} {event : Event}
  {block : Block} {padding : UInt32} {run : List (Event × Session)}

/-- The block handed out is the first part of the block carved. -/
theorem Block.taken_mem : block.taken n ∈ block.carve n := by
  unfold Block.taken Block.carve
  split <;> simp

/-- The payload of a block in a represented arena begins with the block's first bytes. -/
theorem Represents.load_take {process : Process} (rep : Represents process arena)
    (member : block ∈ arena.blocks) (enough : n ≤ block.size) :
    process.memory.load block.payload n = block.data.take n := by
  rw [← (rep.segment.stored block member).data, take_load enough]

/-- A request is given zero bytes exactly when it takes no block whole or that block was clear. -/
theorem Tracks.zeroFilled_iff (tracks : Tracks session arena)
    (taken : Step session (.malloc n padding p) after) :
    after.process.memory.load p n = List.replicate n 0 ↔
      ∀ iter, session.process.findFit n = some (.whole iter) →
        session.process.memory.load (dataOf iter) n = List.replicate n 0 := by
  obtain ⟨rfl, tracks'⟩ := tracks.malloc taken
  have represents := tracks.represents
  have represents' := tracks'.represents
  have small : n + blockSize < 2 ^ 64 := by
    cases taken with
    | malloc small succeeds returned => omega
  have walk := represents.findFit small
  obtain ⟨none, all⟩ | ⟨left, block, right, same, before, fits, some⟩ := serve_cases n arena.blocks
  · -- No block fits: the heap is extended by a cleared block, and none is taken whole.
    rw [fitOf_absent all] at walk
    rw [Arena.malloc_of_none none] at represents' ⊢
    have fresh : (⟨arena.brk, false, List.replicate n 0⟩ : Block) ∈ (arena.extend n).blocks :=
      List.mem_append_right _ List.mem_cons_self
    have bytes := represents'.load_take fresh (n := n) (by simp)
    have cleared : after.process.memory.load (arena.brk + blockSize) n = List.replicate n 0 :=
      bytes.trans (by simp)
    exact ⟨fun _ iter whole => by simp [walk] at whole, fun _ => cleared⟩
  · obtain ⟨handed, blocks, _⟩ := Arena.malloc_of_some some
    have member : block.taken n ∈ (arena.malloc n).2.blocks := by
      rw [blocks, List.append_assoc]
      exact List.mem_append_right _ (List.mem_append_left _ Block.taken_mem)
    have held : block ∈ arena.blocks := by simp [same]
    rw [same, fitOf_found before fits] at walk
    rw [handed]
    by_cases exact : block.size = n + blockSize
    · -- The block is taken whole: its bytes are the same before and after.
      have takenIs : block.taken n = { block with free := false } := if_pos exact
      have enough : n ≤ block.size := by omega
      rw [takenIs] at member
      have bytes := represents'.load_take member enough
      have bytes' := represents.load_take held enough
      rw [if_pos exact] at walk
      have kept : after.process.memory.load block.payload n =
          session.process.memory.load block.payload n := bytes.trans bytes'.symm
      rw [kept]
      constructor
      · intro cleared iter whole
        obtain rfl : block.addr = iter := by simpa [walk] using whole
        exact cleared
      · exact fun cleared => cleared block.addr walk
    · -- The block is split, and its first part cleared.
      have takenIs : block.taken n = ⟨block.addr, false, List.replicate n 0⟩ := if_neg exact
      rw [takenIs] at member
      have bytes := represents'.load_take member (n := n) (by simp)
      have cleared : after.process.memory.load block.payload n = List.replicate n 0 :=
        bytes.trans (by simp)
      rw [if_neg exact] at walk
      exact ⟨fun _ iter whole => by simp [walk] at whole, fun _ => cleared⟩

/-- In every run the requests are given zero bytes exactly when each of them that takes a free
block whole takes one that holds zero bytes already. -/
theorem zeroFilled_iff_takesCleared (initial : Initial start) (steps : IsRun Step start run) :
    Each ZeroFilled start run ↔ Each TakesCleared start run := by
  refine @IsRun.each_iff_each _ _ Step
    (fun session => ∃ arena : Arena start.process.brk, Tracks session arena)
    ZeroFilled start run TakesCleared steps ⟨_, initial.tracks⟩ ?_ ?_
  · rintro source event target ⟨arena, tracks⟩ taken
    exact ⟨_, tracks.step taken⟩
  · rintro source event target ⟨arena, tracks⟩ taken
    cases event with
    | malloc size padding p => exact tracks.zeroFilled_iff taken
    | free p => exact Iff.rfl
    | write p index byte => exact Iff.rfl

/-- A client that frees 48 bytes with a byte set and asks for 8 is given that byte. -/
def staleRun : List (Event × Session) :=
  trace Session.perform freshSession
    [.malloc 48 0 4136, .write 4136 0 1, .free 4136, .malloc 8 0 4136]

/-- Requests are not always given zero bytes. -/
theorem staleRun_stale :
    IsRun Step freshSession staleRun ∧ ¬ Each ZeroFilled freshSession staleRun := by
  refine ⟨isRun_trace (fun _ _ _ => Session.perform_step) _ _, ?_⟩
  decide +kernel

/-- A client that frees 48 bytes and asks for 8 without having written any. -/
def clearedRun : List (Event × Session) :=
  trace Session.perform freshSession [.malloc 48 0 4136, .free 4136, .malloc 8 0 4136]

/-- The condition decides a run in which a cleared block is taken whole. -/
theorem zeroFilled_iff_takesCleared_clearedRun : clearedRun.length = 3 ∧
    (Each ZeroFilled freshSession clearedRun ↔ Each TakesCleared freshSession clearedRun) := by
  refine ⟨by decide +kernel, zeroFilled_iff_takesCleared freshSession_initial ?_⟩
  exact isRun_trace (fun _ _ _ => Session.perform_step) _ _

end OsAssignments.MmAlloc
