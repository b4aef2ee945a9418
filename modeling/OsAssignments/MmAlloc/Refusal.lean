import OsAssignments.MmAlloc.Freeing
import OsAssignments.MmAlloc.Realloc

/-!
# When the system refuses memory

`extend_heap` returns the null pointer when `sbrk` fails, and its callers take the address of the
payload of whatever it returned before anyone looks. So `mm_malloc` hands out the address of a
payload behind a header at null, and `mm_realloc`, whose test is for null, goes on with it. The
heap is left as it was by the one and written to by the other.
-/

namespace OsAssignments.MmAlloc

open ByteMemory LinkedList MachineWord Transition

/-- No free block serves a request, and `sbrk` fails for it. -/
structure Refused (granted : Bool) (process : Process) (n : Nat) : Prop where
  /-- The walk ends behind the last block. -/
  absent : ∃ lastBlock, process.findFit n = some (.absent lastBlock)
  /-- The system has no memory to give. -/
  fails : (sbrk granted process (add n blockSize)).1 = sbrkFailed

/-- A process has the list head and the heap of another. -/
def Unharmed (process after : Process) : Prop :=
  process.blockListHead = after.blockListHead ∧ ∃ nodes, SameHeap process after nodes

/-- `mm_malloc` reports that there is no memory, and does no harm. -/
def MallocReports (granted : Bool) (padding : UInt32) (process : Process) (n : Nat) : Prop :=
  ∃ after, mmMalloc granted padding process n = some (null, after) ∧ Unharmed process after

/-- `mm_realloc` of a pointer reports that there is no memory, and does no harm. -/
def ReallocReports (granted : Bool) (padding : UInt32) (process : Process) (p n : Nat) : Prop :=
  ∃ after, mmRealloc granted padding process p n = some (.ok (null, after)) ∧ Unharmed process after

variable {granted : Bool} {process : Process} {n p s lastBlock : Nat} {padding : UInt32}

/-- Where `sbrk` fails, `extend_heap` returns the null pointer and writes nothing. -/
theorem extendHeap_failed (fails : (sbrk granted process (add s blockSize)).1 = sbrkFailed) :
    extendHeap granted padding process lastBlock s =
      (null, (sbrk granted process (add s blockSize)).2) := by
  unfold extendHeap
  simp only [fails, if_true]

/-- A refused request returns the address of a payload at null and writes nothing. -/
theorem mmMalloc_refused (padding : UInt32) (refused : Refused granted process n) :
    mmMalloc granted padding process n =
      some (dataOf null, (sbrk granted process (add n blockSize)).2) := by
  obtain ⟨lastBlock, walk⟩ := refused.absent
  unfold mmMalloc
  by_cases empty : process.blockListHead = null
  · rw [if_pos empty]
    simp only [extendHeap_failed refused.fails]
  · rw [if_neg empty, walk]
    simp only [extendHeap_failed refused.fails]

/-- No refused request is reported: neither call returns null, from any process. -/
theorem refused_unreported (padding : UInt32) (refused : Refused granted process n) :
    ¬ MallocReports granted padding process n ∧ ∀ p, ¬ ReallocReports granted padding process p n := by
  have called := mmMalloc_refused padding refused
  have proper : dataOf null ≠ null := by decide
  constructor
  · rintro ⟨after', returned, _⟩
    rw [called, Option.some.injEq, Prod.mk.injEq] at returned
    exact proper returned.1
  · rintro p ⟨after', returned, _⟩
    simp only [mmRealloc, called, if_pos proper] at returned
    split at returned
    · contradiction
    · cases returned
    · rw [Option.some.injEq, Except.ok.injEq, Prod.mk.injEq] at returned
      exact proper returned.1

/-- The first request of a process that the system refuses is not reported. -/
theorem freshSession_unreported : ¬ ∀ (start session : Session) (granted : Bool) (padding : UInt32)
    (n : Nat), Initial start → Reachable Step start session → n < 2 ^ 64 →
    Refused granted session.process n →
    MallocReports granted padding session.process n ∧
      ∀ p ∈ session.live, ReallocReports granted padding session.process p n := by
  intro claim
  have walk : freshSession.process.findFit 8 = some (.absent null) := by decide +kernel
  have refused : Refused false freshSession.process 8 := ⟨⟨null, walk⟩, rfl⟩
  obtain ⟨after, returned, _⟩ := (claim freshSession freshSession false 0 8 freshSession_initial
    .start (by decide) refused).1
  have called : (mmMalloc false 0 freshSession.process 8).map Prod.fst = some 40 := by decide +kernel
  rw [returned] at called
  have isNull : null = 40 := Option.some.inj called
  contradiction

/-- A refused request after the sample run, for a pointer that is live and for a new one. -/
theorem refused_unreported_sampleRun : Refused false (final freshSession sampleRun).process 16 ∧
    ¬ MallocReports false 0 (final freshSession sampleRun).process 16 ∧
      4224 ∈ (final freshSession sampleRun).live ∧
        ¬ ReallocReports false 0 (final freshSession sampleRun).process 4224 16 := by
  have walk : (final freshSession sampleRun).process.findFit 16 = some (.absent 4184) := by
    decide +kernel
  have refused : Refused false (final freshSession sampleRun).process 16 := ⟨⟨4184, walk⟩, rfl⟩
  obtain ⟨malloc, realloc⟩ := refused_unreported 0 refused
  exact ⟨refused, malloc, by decide +kernel, realloc 4224⟩

end OsAssignments.MmAlloc
