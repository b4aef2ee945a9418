import OsAssignments.MmAlloc.BlockList

/-!
# Pointers that may be freed

Which pointers a client owns is a matter of what it has called so far: those that an `mm_malloc`
has returned and that no later `mm_free` has taken. `mm_free` sees the block list alone. It finds
out all the same: it returns for exactly the owned pointers, and for every other one it ends the
process before it has written anything.
-/

namespace OsAssignments.MmAlloc

open ByteMemory LinkedList MachineWord Transition

/-- An allocation of the run has returned the pointer, and no later call has freed it. -/
def Owned (p : Nat) (run : List (Event × Session)) : Prop :=
  ∃ before size padding after rest, run = before ++ (.malloc size padding p, after) :: rest ∧
    ∀ move ∈ rest, move.1 ≠ .free p

variable {base p : Nat} {start session after : Session} {arena : Arena base}
  {event : Event} {run : List (Event × Session)}

/-! ## The history of a run -/

/-- A pointer is owned after a first step and more when it is owned by what follows, or the step
allocates it and nothing that follows frees it. -/
theorem owned_cons : Owned p ((event, after) :: run) ↔
    Owned p run ∨ ((∃ size padding, event = .malloc size padding p) ∧
      ∀ move ∈ run, move.1 ≠ .free p) := by
  constructor
  · rintro ⟨before, size, padding, after', rest, split, kept⟩
    cases before with
    | nil =>
      obtain ⟨same, rfl⟩ := List.cons_eq_cons.mp split
      exact .inr ⟨⟨size, padding, (Prod.mk.inj same).1⟩, kept⟩
    | cons first before =>
      obtain ⟨_, tail⟩ := List.cons_eq_cons.mp split
      exact .inl ⟨before, size, padding, after', rest, tail, kept⟩
  · rintro (⟨before, size, padding, after', rest, rfl, kept⟩ | ⟨⟨size, padding, rfl⟩, kept⟩)
    · exact ⟨(event, after) :: before, size, padding, after', rest, rfl, kept⟩
    · exact ⟨[], size, padding, after, run, rfl, kept⟩

/-- A step makes a pointer live that it allocates, and keeps the live ones that it does not free. -/
theorem Step.live_iff (taken : Step session event after) :
    p ∈ after.live ↔ (∃ size padding, event = .malloc size padding p) ∨
      (p ∈ session.live ∧ event ≠ .free p) := by
  cases taken with
  | malloc small succeeds returned =>
    rw [Finmap.mem_insert]
    constructor
    · rintro (rfl | old)
      · exact .inl ⟨_, _, rfl⟩
      · exact .inr ⟨old, by simp⟩
    · rintro (⟨size, padding, same⟩ | ⟨old, _⟩)
      · exact .inl (Event.malloc.inj same).2.2.symm
      · exact .inr old
  | free isLive returned =>
    rw [Finmap.mem_erase]
    constructor
    · rintro ⟨other, old⟩
      exact .inr ⟨old, fun same => other (Event.free.inj same).symm⟩
    · rintro (⟨size, padding, same⟩ | ⟨old, other⟩)
      · contradiction
      · exact ⟨fun same => other (same ▸ rfl), old⟩
  | write isLive inside =>
    constructor
    · exact fun old => .inr ⟨old, by simp⟩
    · rintro (⟨size, padding, same⟩ | ⟨old, _⟩)
      · contradiction
      · exact old

/-- After a run those pointers are live that it owns, or that were live and that it does not free. -/
theorem live_final_iff (steps : IsRun Step session run) :
    p ∈ (final session run).live ↔
      Owned p run ∨ (p ∈ session.live ∧ ∀ move ∈ run, move.1 ≠ .free p) := by
  induction run generalizing session with
  | nil =>
    have nothing : ¬ Owned p [] := by
      rintro ⟨before, size, padding, after, rest, split, _⟩
      simp at split
    simp [final, nothing]
  | cons move rest ih =>
    obtain ⟨event, target⟩ := move
    obtain ⟨taken, rest'⟩ := steps
    have later := and_congr_left fun _ : ∀ move ∈ rest, move.1 ≠ .free p => @Step.live_iff p _ _ _ taken
    rw [final, ih rest', owned_cons, later, List.forall_mem_cons, or_and_right, or_assoc, and_assoc]

/-! ## The call -/

/-- The header address computed from a pointer is that of a block only for its payload address. -/
theorem payload_of_getBlock {block : Block} (word : p < 2 ^ 64) (fits : block.addr + blockSize < 2 ^ 64)
    (same : getBlock p = block.addr) : block.payload = p := by
  unfold getBlock sub at same
  unfold Block.payload
  unfold blockSize at fits same ⊢
  omega

/-- For a pointer that is not live `mm_free` takes an exit and leaves the process as it was. -/
theorem Tracks.free_exits (tracks : Tracks session arena) (word : p < 2 ^ 64)
    (notLive : p ∉ session.live) :
    ∃ exit, mmFreeUntil session.process p = some (some exit, session.process) := by
  have rep := tracks.represents
  have walk : onList session.process.memory (getBlock p) walkFuel session.process.blockListHead =
      some (decide (getBlock p ∈ addrs arena.blocks)) := by
    rw [rep.head]
    exact onList_segment rep.segment (fun _ => rep.proper) rep.enough
  by_cases listed : getBlock p ∈ addrs arena.blocks
  · rw [decide_eq_true listed] at walk
    obtain ⟨block, member, same⟩ := List.mem_map.mp listed
    have top := (arena.ordered.mem member).2
    have fits := rep.fits
    unfold Block.finish at top
    have payload := payload_of_getBlock word (by omega) same.symm
    -- A used block with this payload would be live.
    have free : block.free = true := by
      by_contra used
      have isLive := tracks.complete block member (Bool.eq_false_iff.mpr used)
      rw [payload] at isLive
      exact notLive isLive
    have flag : readField session.process.memory (getBlock p) .free = 1 := by
      rw [← same, (rep.segment.stored block member).free, free]
      rfl
    refine ⟨.alreadyFree, ?_⟩
    simp only [mmFreeUntil, walk, flag, if_true]
  · rw [decide_eq_false listed] at walk
    refine ⟨.notOwned, ?_⟩
    simp only [mmFreeUntil, walk]

/-- After every run `mm_free` returns for exactly the pointers that the client owns, and for every
other word it exits with the process unchanged. -/
theorem mmFree_returns_iff (initial : Initial start) (steps : IsRun Step start run)
    (word : p < 2 ^ 64) :
    ((∃ process, mmFree (final start run).process p = some (.ok process)) ↔ Owned p run) ∧
      (¬ Owned p run → ∃ exit,
        mmFreeUntil (final start run).process p = some (some exit, (final start run).process)) := by
  obtain ⟨arena, tracks, _⟩ := reachable_tracks initial steps.reachable
  have owned : p ∈ (final start run).live ↔ Owned p run := by
    rw [live_final_iff steps, initial.live]
    simp [Finmap.notMem_empty]
  rw [← owned]
  generalize final start run = session at tracks
  refine ⟨⟨?_, ?_⟩, fun notLive => tracks.free_exits word notLive⟩
  · rintro ⟨process, returned⟩
    by_contra notLive
    obtain ⟨exit, ended⟩ := tracks.free_exits word notLive
    rw [mmFree, ended] at returned
    simp at returned
  · intro isLive
    obtain ⟨after, taken⟩ := tracks.free_returns isLive
    cases taken with
    | free _ returned => exact ⟨_, returned⟩

/-- After the sample run `mm_free` takes the pointer that is left and no other one. -/
theorem mmFree_returns_sampleRun : sampleRun.length = 4 ∧
    ((∃ process, mmFree (final freshSession sampleRun).process 4136 = some (.ok process)) ↔
      Owned 4136 sampleRun) ∧
    (¬ Owned 4136 sampleRun → ∃ exit, mmFreeUntil (final freshSession sampleRun).process 4136 =
      some (some exit, (final freshSession sampleRun).process)) :=
  ⟨by decide +kernel, mmFree_returns_iff freshSession_initial
    (isRun_trace (fun _ _ _ => Session.perform_step) freshSession _) (by decide)⟩

end OsAssignments.MmAlloc
