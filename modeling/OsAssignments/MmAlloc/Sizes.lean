import OsAssignments.MmAlloc.Refusal

/-!
# Sizes near the end of the words

A request may be for any number of bytes that a `size_t` counts. `mm_malloc` adds the size of a
header to it in each of its two tests and in the argument of `sbrk`, which is signed. The sums come
out right below 2⁶³, and up to 2⁶⁴ as long as `sbrk` is not asked; beyond, a huge request passes
for a small one or shrinks the heap.
-/

namespace OsAssignments.MmAlloc

open ByteMemory LinkedList MachineWord Transition

/-- Nothing that is computed for a request wraps or turns negative, and a block handed out has the
size asked for below the break. -/
structure SizesSound (granted : Bool) (padding : UInt32) (process : Process) (n : Nat) : Prop where
  /-- The block handed out records at least the size, and so many bytes lie below the break. -/
  handed : ∀ p after, mmMalloc granted padding process n = some (p, after) → p ≠ dataOf null →
    n ≤ sizeOf after.memory (getBlock p) ∧ p + n ≤ after.brk
  /-- The sum that a free block is tested against does not wrap. -/
  tested : (∃ nodes, process.blocks = some nodes ∧ ∃ b ∈ nodes, freeOf process.memory b = 1) →
    add n blockSize = n + blockSize
  /-- The increment that `sbrk` is called with is neither wrapped nor negative. -/
  moved : (∃ lastBlock, process.findFit n = some (.absent lastBlock)) →
    toSigned (add n blockSize) = ((n + blockSize : Nat) : Int)
  /-- The difference that `split_block` records does not wrap. -/
  split : ∀ b, process.findFit n = some (.split b) → n + blockSize ≤ sizeOf process.memory b

/-- The size and a header are an increment for `sbrk`, or a free block has as many bytes. -/
def SizeFits (process : Process) (n : Nat) : Prop :=
  n + blockSize < 2 ^ 63 ∨
    (n + blockSize < 2 ^ 64 ∧ ¬ ∃ lastBlock, process.findFit n = some (.absent lastBlock))

variable {base n b p fuel iter lastBlock : Nat} {memory : ByteMemory} {nodes : List Nat} {fit : Fit}
  {start session : Session} {arena : Arena base} {process : Process} {granted : Bool}
  {padding : UInt32}

/-- A walk that does not end behind the last block has met a free one. -/
theorem findFit_meets (walked : walk null (nextOf memory) fuel iter = some nodes)
    (found : findFit memory n fuel iter lastBlock = some fit) (here : ∀ last, fit ≠ .absent last) :
    ∃ b ∈ nodes, freeOf memory b = 1 := by
  induction fuel generalizing iter lastBlock nodes with
  | zero => contradiction
  | succ fuel ih =>
    rw [walk] at walked
    rw [findFit] at found
    by_cases isNull : iter = null
    · rw [if_pos isNull] at found
      exact absurd (Option.some.inj found).symm (here lastBlock)
    · rw [if_neg isNull] at walked found
      obtain ⟨rest, tail, rfl⟩ := Option.map_eq_some_iff.mp walked
      by_cases free : readField memory iter .free = 1
      · exact ⟨iter, List.mem_cons_self, free⟩
      · rw [if_pos free] at found
        obtain ⟨b, member, isFree⟩ := ih tail found
        exact ⟨b, List.mem_cons_of_mem iter member, isFree⟩

/-- A block that an arena hands out lies below the break with the size asked for. -/
theorem Represents.handed {after : Process} (rep : Represents after (arena.malloc n).2) :
    n ≤ sizeOf after.memory (MmAlloc.getBlock (arena.malloc n).1) ∧ (arena.malloc n).1 + n ≤ after.brk := by
  obtain ⟨new, used, payload, enough, _, members⟩ := arena.malloc_used n
  have member : new ∈ (arena.malloc n).2.blocks := (members new used).mpr (.inl rfl)
  have top := ((arena.malloc n).2.ordered.mem member).2
  rw [← payload, rep.getBlock member, sizeOf, (rep.segment.stored new member).size, rep.brk]
  unfold Block.finish at top
  unfold Block.payload
  exact ⟨enough, by omega⟩

/-- A request that is not served is refused, or its increment leads to an address. -/
theorem refused_or_room (granted : Bool) (rep : Represents process arena) (small : n + blockSize < 2 ^ 63)
    (absent : ∃ lastBlock, process.findFit n = some (.absent lastBlock)) :
    Refused granted process n ∨ (granted = true ∧ arena.brk + blockSize + n < 2 ^ 64) := by
  have brk := rep.brk
  have target : (process.brk : Int) + toSigned (add n blockSize) = (process.brk + (n + blockSize) : Nat) := by
    rw [add_of_lt (by omega), toSigned_of_lt small]
    push_cast
    rfl
  by_cases room : granted = true ∧ process.brk + (n + blockSize) < 2 ^ 64
  · exact .inr ⟨room.1, by omega⟩
  · refine .inl ⟨absent, ?_⟩
    have refuses : ¬ (granted = true ∧ 0 ≤ (process.brk : Int) + toSigned (add n blockSize) ∧
        (process.brk : Int) + toSigned (add n blockSize) < 2 ^ 64) := by
      rw [target]
      rintro ⟨yes, _, below⟩
      exact room ⟨yes, by omega⟩
    unfold sbrk
    simp only [if_neg refuses]

/-- A request whose increment is an `int64_t` is refused or handed a block of its size. -/
theorem Represents.handed_absent {after : Process} (rep : Represents process arena)
    (small : n + blockSize < 2 ^ 63) (absent : ∃ lastBlock, process.findFit n = some (.absent lastBlock))
    (returned : mmMalloc granted padding process n = some (p, after)) (proper : p ≠ dataOf null) :
    n ≤ sizeOf after.memory (MmAlloc.getBlock p) ∧ p + n ≤ after.brk := by
  rcases refused_or_room granted rep small absent with refused | ⟨rfl, room⟩
  · rw [mmMalloc_refused padding refused, Option.some.injEq, Prod.mk.injEq] at returned
    exact absurd returned.1.symm proper
  · obtain ⟨after', called, rep'⟩ := mmMalloc_refines padding rep small (fun _ => room)
    rw [called, Option.some.injEq, Prod.mk.injEq] at returned
    rw [← returned.1, ← returned.2]
    exact rep'.handed

/-- A request that a free block serves is handed a block of its size. -/
theorem Represents.handed_served {after : Process} (rep : Represents process arena)
    (word : n + blockSize < 2 ^ 64) (served : ¬ ∃ lastBlock, process.findFit n = some (.absent lastBlock))
    (returned : mmMalloc granted padding process n = some (p, after)) :
    n ≤ sizeOf after.memory (MmAlloc.getBlock p) ∧ p + n ≤ after.brk := by
  obtain ⟨after', called, rep'⟩ :=
    mmMalloc_served granted padding rep word (mt (rep.absent_iff word).mpr served)
  rw [called, Option.some.injEq, Prod.mk.injEq] at returned
  rw [← returned.1, ← returned.2]
  exact rep'.handed

/-- A block that is split has a header to spare. -/
theorem Represents.split_room (rep : Represents process arena) (word : n + blockSize < 2 ^ 64)
    (split : process.findFit n = some (.split b)) : n + blockSize ≤ sizeOf process.memory b := by
  rw [rep.findFit word] at split
  rcases serve_cases n arena.blocks with ⟨_, all⟩ | ⟨left, block, right, same, before, fits, _⟩
  · rw [fitOf_absent all] at split
    simp at split
  · rw [same, fitOf_found before fits] at split
    have member : block ∈ arena.blocks := same ▸ List.mem_append_right left List.mem_cons_self
    by_cases exact : block.size = n + blockSize
    · simp [exact] at split
    · rw [if_neg exact, Option.some.injEq, Fit.split.injEq] at split
      rw [← split, sizeOf, (rep.segment.stored block member).size]
      exact fits.2

/-- For a size that fits everything comes out right. -/
theorem Represents.sizesSound (padding : UInt32) (rep : Represents process arena)
    (fits : SizeFits process n) : SizesSound granted padding process n := by
  have word : n + blockSize < 2 ^ 64 := by
    rcases fits with small | ⟨word, _⟩ <;> omega
  have signed : (∃ lastBlock, process.findFit n = some (.absent lastBlock)) → n + blockSize < 2 ^ 63 :=
    fun absent => fits.resolve_right fun served => served.2 absent
  refine ⟨fun p after returned proper => ?_, fun _ => add_of_lt word, fun absent => ?_, fun b =>
    rep.split_room word⟩
  · by_cases absent : ∃ lastBlock, process.findFit n = some (.absent lastBlock)
    · exact rep.handed_absent (signed absent) absent returned proper
    · exact rep.handed_served word absent returned
  · rw [add_of_lt word]
    exact toSigned_of_lt (signed absent)

/-- In every reachable session a request of any size comes out right exactly when the size fits,
whether `sbrk` grants memory or not. -/
theorem sizesSound_iff (granted : Bool) (padding : UInt32) (initial : Initial start)
    (reached : Reachable Step start session) :
    SizesSound granted padding session.process n ↔ SizeFits session.process n := by
  obtain ⟨arena, tracks, _⟩ := reachable_tracks initial reached
  constructor
  · intro sound
    by_cases absent : ∃ lastBlock, session.process.findFit n = some (.absent lastBlock)
    · -- A signed reading below zero or of a wrapped sum is not the sum.
      have moved := sound.moved absent
      refine .inl ?_
      unfold toSigned add at moved
      split at moved <;> omega
    · obtain ⟨fit, found⟩ : ∃ fit, session.process.findFit n = some fit :=
        findFit_ends tracks.represents.walked
      have here : ∀ last, fit ≠ .absent last := by
        rintro last rfl
        exact absent ⟨last, found⟩
      have tested := sound.tested ⟨_, tracks.represents.walked,
        findFit_meets tracks.represents.walked found here⟩
      unfold add at tested
      exact .inr ⟨by omega, absent⟩
  · exact fun fits => tracks.represents.sizesSound padding fits

/-- A block of eight bytes that is free again. -/
def eightFreeRun : List (Event × Session) :=
  trace Session.perform freshSession [.malloc 8 0 4136, .free 4136]

/-- A request whose sum with a header wraps to eight is handed the block of eight bytes. -/
theorem sizes_wrap : ¬ ∀ (start session : Session) (n : Nat) (granted : Bool) (padding : UInt32),
    Initial start → Reachable Step start session → n < 2 ^ 64 →
    SizesSound granted padding session.process n := by
  intro claim
  have reached : Reachable Step freshSession (final freshSession eightFreeRun) :=
    (isRun_trace (fun _ _ _ => Session.perform_step) freshSession _).reachable
  have sound := claim freshSession (final freshSession eightFreeRun) (2 ^ 64 - 32) true 0
    freshSession_initial reached (by decide)
  have called : (mmMalloc true 0 (final freshSession eightFreeRun).process (2 ^ 64 - 32)).map
      (fun result => (result.1, sizeOf result.2.memory 4096)) = some (4136, 8) := by decide +kernel
  obtain ⟨⟨p, after⟩, returned, result⟩ := Option.map_eq_some_iff.mp called
  obtain ⟨rfl, size⟩ := Prod.mk.inj result
  have enough := (sound.handed _ after returned (by decide)).1
  rw [show MmAlloc.getBlock 4136 = 4096 by decide, size] at enough
  exact absurd enough (by decide)

/-- After the sample run a request for which the heap must grow comes out right, and is handed a block. -/
theorem sizesSound_sampleRun :
    ((mmMalloc true 0 (final freshSession sampleRun).process 16).map Prod.fst = some 4272) ∧
      SizesSound true 0 (final freshSession sampleRun).process 16 :=
  ⟨by decide +kernel,
    (sizesSound_iff true 0 freshSession_initial sampleRun_reachable).mpr (.inl (by decide))⟩

end OsAssignments.MmAlloc
