import OsAssignments.MmAlloc.Layout

/-!
# Fusion on laid out blocks

`fusion` and the way `mm_free` chains it, on a memory that holds a list of blocks. Fusion looks
only at the links, so the two blocks it joins need not touch: the joined block then starts where
the first did and ends before the second did, and the list stays well formed either way.
-/

namespace OsAssignments.MmAlloc

open ByteMemory LinkedList MachineWord

variable {memory : ByteMemory} {low high : Nat} {block next : Block} {left right : List Block}

/-! ## Fusion -/

/-- The memory that fusion leaves when it absorbs: the header of the grown block, the back link
of the block behind, the cleared payload. -/
def absorbed (memory : ByteMemory) (b size after : Nat) : ByteMemory :=
  (linkBack (writeField (writeField memory b .size size) b .next after) after b).fill
    (dataOf b) size 0

/-- The fields of the grown block's header. -/
theorem readField_absorbed (memory : ByteMemory) {b size after : Nat} (sizeFits : size < 2 ^ 64) (afterFits : after < 2 ^ 64)
    (away : after = null ∨ b + blockSize ≤ after) (field : Field) :
    readField (absorbed memory b size after) b field =
      if field = .size then size else if field = .next then after
      else readField memory b field := by
  have cleared : readField (absorbed memory b size after) b field =
      readField (linkBack (writeField (writeField memory b .size size) b .next after) after b) b
        field := readField_congr (fill_agree (.inl (Nat.le_refl _)))
  have backed : readField (linkBack (writeField (writeField memory b .size size) b .next after)
      after b) b field =
      readField (writeField (writeField memory b .size size) b .next after) b field := by
    rcases away with rfl | away
    · rfl
    · exact readField_congr (linkBack_agree (.inl away))
  rw [cleared, backed]
  cases field with
  | size => exact (readField_unwritten (by decide)).trans (readField_written sizeFits)
  | next => exact readField_written afterFits
  | prev => exact (readField_unwritten (by decide)).trans (readField_unwritten (by decide))
  | free => exact (readField_unwritten (by decide)).trans (readField_unwritten (by decide))
  | ptr => exact (readField_unwritten (by decide)).trans (readField_unwritten (by decide))

/-- Fusion of a block with a free next block, from the fields it reads. -/
theorem fusion_eq {b following size after : Nat} (proper : b ≠ null)
    (ptr : readField memory b .ptr = b) (front : readField memory b .next = following)
    (followingProper : following ≠ null) (free : readField memory following .free ≠ 0)
    (gap : b + blockSize ≤ following) (sum : add (add (readField memory b .size)
      (readField memory following .size)) blockSize = size) (sizeFits : size < 2 ^ 64)
    (behind : readField memory following .next = after) (afterFits : after < 2 ^ 64)
    (away : after = null ∨ b + blockSize ≤ after) :
    fusion memory b = (b, absorbed memory b size after) := by
  have behind' : readField (writeField memory b .size size) following .next = after :=
    (readField_congr (writeField_agree (.inr gap))).trans behind
  have nextRead : readField (writeField (writeField memory b .size size) b .next after) b .next =
      after := readField_written afterFits
  have ptrRead : readField (writeField (writeField memory b .size size) b .next after) b .ptr = b :=
    (readField_unwritten (by decide)).trans ((readField_unwritten (by decide)).trans ptr)
  have backRead : readField (linkBack (writeField (writeField memory b .size size) b .next after)
      after b) b .size = size := by
    have kept : readField (writeField (writeField memory b .size size) b .next after) b .size =
        size := (readField_unwritten (by decide)).trans (readField_written sizeFits)
    rcases away with rfl | away
    · exact kept
    · exact (readField_congr (linkBack_agree (.inl away))).trans kept
  unfold linkBack at backRead
  unfold fusion absorbed linkBack
  simp only [proper, ptr, front, followingProper, free, sum, behind', nextRead, ptrRead, backRead,
    ne_eq, not_false_eq_true, if_true, if_false]

/-- A place in the middle of ordered blocks: the blocks on either side are apart from it. -/
theorem Ordered.around (ordered : Ordered low (left ++ block :: right) high) (positive : 0 < low) :
    Ordered low left block.addr ∧ Ordered block.finish right high ∧ 0 < block.addr ∧
      block.finish ≤ high := by
  obtain ⟨before, after⟩ := ordered.split
  exact ⟨before, after.2, Nat.lt_of_lt_of_le positive before.le, after.2.le⟩

/-- The first of ordered blocks, or null, is a word at or above their lower bound. -/
theorem Ordered.first_addr (ordered : Ordered low blocks high) (fits : high < 2 ^ 64) :
    first (addrs blocks) null < 2 ^ 64 ∧
      (first (addrs blocks) null = null ∨ low ≤ first (addrs blocks) null) := by
  cases blocks with
  | nil => exact ⟨Nat.two_pow_pos 64, .inl rfl⟩
  | cons block rest =>
    have top := ordered.2.le
    unfold Block.finish at top
    simp only [addrs, List.map_cons, first_cons]
    exact ⟨by omega, .inr ordered.1⟩

/-- Redirecting the back link of the first block after a place leaves segments before it alone. -/
theorem Segment.linkBack_before {before after back : Nat}
    (segment : Segment memory before left after) (ordered : Ordered low left high)
    (behind : first (addrs right) null = null ∨ high ≤ first (addrs right) null) :
    Segment (MmAlloc.linkBack memory (first (addrs right) null) back) before left after := by
  apply segment.congr
  intro other member
  rcases behind with none | above
  · rw [none]
    exact fun _ _ _ => rfl
  · exact linkBack_agree (.inl (Nat.le_trans (ordered.mem member).2 above))

/-- The absorbing memory holds the two blocks as one. -/
theorem segment_absorbed (whole : Segment memory null (left ++ block :: next :: right) null)
    (ordered : Ordered low (left ++ block :: next :: right) high) (positive : 0 < low)
    (fits : high < 2 ^ 64) (free : block.free = true) :
    Segment (absorbed memory block.addr (block.merge next).size (first (addrs right) null)) null
      (left ++ block.merge next :: right) null := by
  obtain ⟨before, tail, proper, _⟩ := ordered.around positive
  have behind : Ordered next.finish right high := tail.2
  have mergedEnd : block.addr + blockSize + (block.merge next).size ≤ next.finish := by
    have gap := tail.1
    rw [Block.merge_size]
    unfold Block.finish at *
    omega
  have top := behind.le
  obtain ⟨afterFits, afterAbove⟩ := behind.first_addr fits
  have afterAway : first (addrs right) null = null ∨
      block.addr + blockSize ≤ first (addrs right) null := by omega
  have sizeFits : (block.merge next).size < 2 ^ 64 := by omega
  obtain ⟨segLeft, segBlock⟩ := segment_append.mp whole
  obtain ⟨stored, back, _, segNext⟩ := segment_cons.mp segBlock
  obtain ⟨_, _, _, segRight⟩ := segment_cons.mp segNext
  have leftAway : ∀ finish, Away left block.addr finish :=
    fun _ => before.away_above (Nat.le_refl _)
  have payloadAway : ∀ finish, Away left (dataOf block.addr) finish :=
    fun _ => before.away_above (Nat.le_add_right _ _)
  have rightAway : ∀ start finish, finish ≤ next.finish → Away right start finish :=
    fun _ _ below => behind.away_below below
  have header := readField_absorbed memory sizeFits afterFits afterAway
  rw [segment_append, segment_cons]
  refine ⟨?_, ⟨?_, ?_, ?_, ?_⟩, ?_, ?_, ?_⟩
  · have moved := (segLeft.writeField (leftAway _) .size (block.merge next).size).writeField
      (leftAway _) .next (first (addrs right) null)
    exact (moved.linkBack_before before (by omega)).fill (payloadAway _) 0
  · simpa using header .size
  · rw [Block.merge_addr, header .free]
    simpa [free] using stored.free
  · rw [Block.merge_addr, header .ptr]
    simpa using stored.ptr
  · have zeros : (block.merge next).data = List.replicate (block.merge next).size 0 := by
      rw [Block.merge_size]
      rfl
    rw [zeros]
    exact load_fill
  · rw [Block.merge_addr, prevOf, header .prev]
    simpa using back
  · simpa using header .next
  · have headerAway : Away right block.addr (block.addr + blockSize) := rightAway _ _ (by omega)
    have moved := (segRight.writeField headerAway .size (block.merge next).size).writeField
      headerAway .next (first (addrs right) null)
    exact (moved.linkBack behind (by omega) (by omega)).fill (rightAway _ _ mergedEnd) 0

/-- Fusion of a free block joins it with what follows. -/
theorem fusion_joinNext (whole : Segment memory null (left ++ block :: right) null)
    (ordered : Ordered low (left ++ block :: right) high) (positive : 0 < low)
    (fits : high < 2 ^ 64) (free : block.free = true) :
    (fusion memory block.addr).1 = block.addr ∧
      Segment (fusion memory block.addr).2 null (left ++ joinNext block right) null := by
  obtain ⟨_, tail, start, _⟩ := ordered.around positive
  have proper : block.addr ≠ null := Nat.ne_of_gt start
  obtain ⟨stored, _, front, segRight⟩ := segment_cons.mp (segment_append.mp whole).2
  cases right with
  | nil =>
    have idle : fusion memory block.addr = (block.addr, memory) := by
      simp [fusion, proper, front, stored.ptr]
    rw [idle]
    exact ⟨rfl, whole⟩
  | cons next right =>
    obtain ⟨storedNext, _, frontNext, _⟩ := segment_cons.mp segRight
    have above : block.finish ≤ next.addr := tail.1
    have gap : block.addr + blockSize ≤ next.addr := Nat.le_trans (Nat.le_add_right _ _) above
    have nextProper : next.addr ≠ null := by unfold null; omega
    by_cases nextFree : next.free = true
    · have top := tail.2.le
      obtain ⟨afterFits, afterAbove⟩ := tail.2.first_addr fits
      unfold Block.finish at above top afterAbove
      have sum : add (add (readField memory block.addr .size) (readField memory next.addr .size))
          blockSize = (block.merge next).size := by
        have sizes : add block.size next.size = block.size + next.size := add_of_lt (by omega)
        rw [stored.size, storedNext.size, Block.merge_size, sizes]
        exact add_of_lt (by omega)
      have flag : readField memory next.addr .free ≠ 0 := by
        rw [storedNext.free, nextFree]
        decide
      have grown := fusion_eq proper stored.ptr front nextProper flag gap sum
        (by rw [Block.merge_size]; omega) frontNext afterFits (by omega)
      rw [grown, joinNext, if_pos ⟨free, nextFree⟩]
      exact ⟨rfl, segment_absorbed whole ordered positive fits free⟩
    · have flag : readField memory next.addr .free = 0 := by
        rw [storedNext.free, Bool.eq_false_iff.mpr nextFree]
        rfl
      have idle : fusion memory block.addr = (block.addr, memory) := by
        simp [fusion, proper, front, stored.ptr, flag]
      rw [idle, joinNext, if_neg (fun both => nextFree both.2)]
      exact ⟨rfl, whole⟩

/-! ## Freeing -/

/-- The fusions of `mm_free`, with no block before the freed one. -/
theorem fuseAround_first (whole : Segment memory null (block :: right) null)
    (ordered : Ordered low (block :: right) high) (positive : 0 < low) (fits : high < 2 ^ 64)
    (free : block.free = true) :
    Segment (fuseAround memory block.addr) null (joinNext block right) null := by
  obtain ⟨_, back, _, _⟩ := segment_cons.mp whole
  have joined := (@fusion_joinNext memory low high block [] right whole ordered positive fits free).2
  simpa [fuseAround, back] using joined

/-- The fusions of `mm_free`, with a block before the freed one. -/
theorem fuseAround_after {prev : Block}
    (whole : Segment memory null (left ++ prev :: block :: right) null)
    (ordered : Ordered low (left ++ prev :: block :: right) high) (positive : 0 < low)
    (fits : high < 2 ^ 64) (free : block.free = true) :
    Segment (fuseAround memory block.addr) null
      (left ++ joinNext prev (joinNext block right)) null := by
  obtain ⟨before, tail, start, _⟩ := ordered.around positive
  have prevProper : prev.addr ≠ null := Nat.ne_of_gt start
  obtain ⟨storedPrev, _, _, segBlock⟩ := segment_cons.mp (segment_append.mp whole).2
  obtain ⟨_, back, _, _⟩ := segment_cons.mp segBlock
  by_cases prevFree : prev.free = true
  · have flag : readField memory prev.addr .free ≠ 0 := by
      rw [storedPrev.free, prevFree]
      decide
    obtain ⟨firstPtr, firstSeg⟩ := fusion_joinNext whole ordered positive fits prevFree
    rw [joinNext, if_pos ⟨prevFree, free⟩] at firstSeg
    have mergedOrdered : Ordered low (left ++ prev.merge block :: right) high := by
      have joined : Ordered prev.addr (joinNext prev (block :: right)) high :=
        joinNext_ordered (Nat.le_refl _) tail
      rw [joinNext, if_pos ⟨prevFree, free⟩] at joined
      exact before.append joined
    have secondSeg := (fusion_joinNext firstSeg mergedOrdered positive fits rfl).2
    rw [joinNext_merge prevFree free, Block.merge_addr] at secondSeg
    simpa [fuseAround, back, prevProper, flag, firstPtr] using secondSeg
  · have used : prev.free = false := Bool.eq_false_iff.mpr prevFree
    have flag : readField memory prev.addr .free = 0 := by
      rw [storedPrev.free, used]
      rfl
    have shift : left ++ prev :: block :: right = (left ++ [prev]) ++ block :: right := by simp
    rw [shift] at whole ordered
    have joined := (fusion_joinNext whole ordered positive fits free).2
    simpa [fuseAround, back, prevProper, flag, joinNext_used used] using joined

end OsAssignments.MmAlloc
