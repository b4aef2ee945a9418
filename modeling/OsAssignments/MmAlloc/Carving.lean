import OsAssignments.MmAlloc.Fusion

/-!
# New headers on laid out blocks

The memory writes that put a header where there was none: the new last block of `extend_heap`,
the rest that `split_block` cuts off. Both copy a header and clear the payload behind it, and
both redirect a link of a neighbour.
-/

namespace OsAssignments.MmAlloc

open ByteMemory LinkedList MachineWord

variable {memory : ByteMemory} {low high n : Nat} {block : Block} {left right : List Block}
  {padding : UInt32}

/-! ## Fresh headers -/

/-- The null pointer is a word. -/
theorem null_lt : null < 2 ^ 64 := Nat.two_pow_pos 64

/-- A header copied to memory, with the payload behind it cleared, is a block of its own. -/
theorem segment_fresh (memory : ByteMemory) {addr size after before : Nat} (free : Bool)
    (padding : UInt32) (fits : addr + blockSize + size < 2 ^ 64) (afterFits : after < 2 ^ 64)
    (beforeFits : before < 2 ^ 64) :
    Segment ((storeHeader memory addr ⟨size, after, before, free.toNat, addr, padding⟩).fill
        (dataOf addr) size 0) before [⟨addr, free, List.replicate size 0⟩] after := by
  let sb : SBlock := ⟨size, after, before, free.toNat, addr, padding⟩
  have header : ∀ field, readField ((storeHeader memory addr sb).fill (dataOf addr) size 0) addr
      field = readField (storeHeader memory addr sb) addr field :=
    fun _ => readField_congr (fill_agree (.inl (Nat.le_refl _)))
  have flagFits : free.toNat % 2 ^ 32 = free.toNat := by cases free <;> rfl
  rw [segment_cons]
  refine ⟨⟨?_, ?_, ?_, ?_⟩, ?_, ?_, segment_nil⟩
  · rw [header, readField_storeHeader, Block.size_mk, List.length_replicate]
    exact Nat.mod_eq_of_lt (show size < 2 ^ 64 by omega)
  · rw [header, readField_storeHeader]
    exact flagFits
  · rw [header, readField_storeHeader]
    exact Nat.mod_eq_of_lt (show addr < 2 ^ 64 by omega)
  · rw [Block.size_mk, List.length_replicate]
    exact load_fill
  · rw [prevOf, header, readField_storeHeader]
    exact Nat.mod_eq_of_lt beforeFits
  · rw [nextOf, header, readField_storeHeader]
    exact Nat.mod_eq_of_lt afterFits

/-! ## Extending -/

/-- Redirecting the forward link of the last block moves the end of the segment. -/
theorem Segment.linkNext {before after target : Nat} {lastOne : Block}
    (segment : Segment memory before (left ++ [lastOne]) after)
    (ordered : Ordered low (left ++ [lastOne]) high) (fits : target < 2 ^ 64) :
    Segment (MmAlloc.writeField memory lastOne.addr .next target) before (left ++ [lastOne])
      target := by
  obtain ⟨segLeft, segLast⟩ := segment_append.mp segment
  obtain ⟨stored, back, _, _⟩ := segment_cons.mp segLast
  have away : Away left lastOne.addr (lastOne.addr + blockSize) :=
    ordered.split.1.away_above (Nat.le_refl _)
  rw [segment_append, segment_cons]
  exact ⟨segLeft.writeField away .next target, stored.writeLink (.inl rfl),
    (readField_unwritten (by decide)).trans back, readField_written fits, segment_nil⟩

/-! ## Splitting -/

/-- Assigning the flag of one block of a list changes that block only. -/
theorem Segment.writeFree {before after : Nat} (segment : Segment memory before (left ++ block :: right) after)
    (ordered : Ordered low (left ++ block :: right) high) (free : Bool) :
    Segment (MmAlloc.writeField memory block.addr .free free.toNat) before
      (left ++ { block with free } :: right) after := by
  obtain ⟨segLeft, segBlock⟩ := segment_append.mp segment
  obtain ⟨stored, back, front, segRight⟩ := segment_cons.mp segBlock
  obtain ⟨leftOrdered, blockOrdered⟩ := ordered.split
  have leftAway : Away left block.addr (block.addr + blockSize) :=
    leftOrdered.away_above (Nat.le_refl _)
  have rightAway : Away right block.addr (block.addr + blockSize) :=
    blockOrdered.2.away_below (Nat.le_add_right _ _)
  rw [segment_append, segment_cons]
  exact ⟨segLeft.writeField leftAway .free free.toNat, stored.writeFree,
    (readField_unwritten (by decide)).trans back, (readField_unwritten (by decide)).trans front,
    segRight.writeField rightAway .free free.toNat⟩

/-- What `split_block` writes behind the shortened block: the back link of the block that
followed, and the header and cleared payload of the rest. -/
def remainder (memory : ByteMemory) (padding : UInt32) (b new rest after : Nat) : ByteMemory :=
  (storeHeader (linkBack memory after new) new ⟨rest, after, b, 1, new, padding⟩).fill
    (dataOf new) rest 0

/-- Ranges below the rest are left alone. -/
theorem remainder_agree {b new rest after start finish : Nat} (below : finish ≤ new)
    (away : after = null ∨ finish ≤ after) :
    AgreeOn (remainder memory padding b new rest after) memory start finish := by
  have filled : AgreeOn (remainder memory padding b new rest after)
      (storeHeader (linkBack memory after new) new ⟨rest, after, b, 1, new, padding⟩) start finish :=
    fill_agree (.inl (Nat.le_trans below (Nat.le_add_right _ _)))
  apply filled.trans
  apply (storeHeader_agree (.inl below)).trans
  rcases away with rfl | away
  · exact fun _ _ _ => rfl
  · exact linkBack_agree (.inl away)

/-- The memory that `split_block` leaves. -/
def cut (memory : ByteMemory) (padding : UInt32) (b s new rest after : Nat) : ByteMemory :=
  (remainder (writeField (writeField memory b .size s) b .next new) padding b new rest after).fill
    (dataOf b) s 0

/-- `split_block`, from the fields it reads. -/
theorem splitBlock_eq {b s total new rest after : Nat} (padding : UInt32)
    (ptr : readField memory b .ptr = b)
    (size : readField memory b .size = total) (front : readField memory b .next = after)
    (room : s + blockSize < total) (fits : b + blockSize + total < 2 ^ 64)
    (newIs : new = b + s + blockSize) (restIs : rest = total - s - blockSize)
    (away : after = null ∨ new ≤ after) :
    splitBlock padding memory b s = cut memory padding b s new rest after := by
  have newSum : add (add b s) blockSize = new := by
    have inner : add b s = b + s := add_of_lt (by omega)
    rw [inner, newIs]
    exact add_of_lt (by omega)
  have restDiff : sub (sub total s) blockSize = rest := by
    have inner : sub total s = total - s := sub_of_le (by omega) (by omega)
    rw [inner, restIs]
    exact sub_of_le (by omega) (by omega)
  have restRead : ∀ memory', readField (storeHeader memory' new ⟨rest, after, b, 1, new, padding⟩)
      new .size = rest := by
    intro memory'
    rw [readField_storeHeader]
    exact Nat.mod_eq_of_lt (show rest < 2 ^ 64 by omega)
  have sizeRead : readField (remainder (writeField (writeField memory b .size s) b .next new)
      padding b new rest after) b .size = s := by
    have header : AgreeOn (remainder (writeField (writeField memory b .size s) b .next new)
        padding b new rest after) (writeField (writeField memory b .size s) b .next new) b
        (b + blockSize) := remainder_agree (by omega) (by omega)
    rw [readField_congr header]
    exact (readField_unwritten (by decide)).trans
      (readField_written (show s < 2 ^ 64 by omega))
  unfold remainder linkBack at sizeRead
  unfold splitBlock cut remainder linkBack
  simp only [ptr, size, front, newSum, restDiff, restRead, sizeRead]

/-- The two parts of a block lie in order in its place. -/
theorem Ordered.cut (ordered : Ordered low (left ++ block :: right) high)
    (room : n + blockSize < block.size) (free restFree : Bool) :
    Ordered low (left ++ ⟨block.addr, free, List.replicate n 0⟩ :: ⟨block.addr + n + blockSize,
      restFree, List.replicate (block.size - n - blockSize) 0⟩ :: right) high := by
  obtain ⟨before, behind⟩ := ordered.split
  refine before.append ⟨Nat.le_refl _, ?_, behind.2.widen ?_ (Nat.le_refl _)⟩
  · simp only [Block.finish, Block.size_mk, List.length_replicate]
    omega
  · simp only [Block.finish, Block.size_mk, List.length_replicate]
    omega

/-- Cutting a free block leaves two free blocks, both cleared, in its place. -/
theorem segment_cut (padding : UInt32)
    (whole : Segment memory null (left ++ block :: right) null)
    (ordered : Ordered low (left ++ block :: right) high) (positive : 0 < low)
    (fits : high < 2 ^ 64) (free : block.free = true) (room : n + blockSize < block.size) :
    Segment (cut memory padding block.addr n (block.addr + n + blockSize)
        (block.size - n - blockSize) (first (addrs right) null)) null
      (left ++ ⟨block.addr, true, List.replicate n 0⟩ :: ⟨block.addr + n + blockSize, true,
        List.replicate (block.size - n - blockSize) 0⟩ :: right) null := by
  obtain ⟨before, behind, start, top⟩ := ordered.around positive
  obtain ⟨afterFits, afterAbove⟩ := behind.first_addr fits
  obtain ⟨segLeft, segBlock⟩ := segment_append.mp whole
  obtain ⟨stored, back, _, segRight⟩ := segment_cons.mp segBlock
  have finishIs : block.finish = block.addr + blockSize + block.size := rfl
  generalize newIs : block.addr + n + blockSize = new
  generalize restIs : block.size - n - blockSize = rest
  generalize firstIs : first (addrs right) null = after at *
  have newEnd : new + blockSize + rest = block.finish := by omega
  let resized := writeField (writeField memory block.addr .size n) block.addr .next new
  have rightAway : ∀ from' to', to' ≤ block.finish → Away right from' to' :=
    fun _ _ below => behind.away_below below
  have below : AgreeOn (remainder resized padding block.addr new rest after) resized block.addr
      (block.addr + blockSize) := remainder_agree (by omega) (by omega)
  have headerKept : AgreeOn (cut memory padding block.addr n new rest after) resized block.addr
      (block.addr + blockSize) := (fill_agree (.inl (Nat.le_refl _))).trans below
  have header : ∀ field, readField (cut memory padding block.addr n new rest after) block.addr
      field = readField resized block.addr field := fun _ => readField_congr headerKept
  have unwritten : ∀ field, field ≠ .next → field ≠ .size →
      readField resized block.addr field = readField memory block.addr field :=
    fun _ notNext notSize => (readField_unwritten notNext).trans (readField_unwritten notSize)
  rw [segment_append, segment_cons]
  refine ⟨?_, ⟨?_, ?_, ?_, ?_⟩, ?_, ?_, ?_⟩
  · have leftAway : Away left block.addr (block.addr + blockSize) :=
      before.away_above (Nat.le_refl _)
    have moved : Segment resized null left block.addr :=
      (segLeft.writeField leftAway .size n).writeField leftAway .next new
    have kept : Segment (remainder resized padding block.addr new rest after) null left
        block.addr := by
      apply moved.congr
      intro other member
      have below := (before.mem member).2
      exact remainder_agree (by omega) (by omega)
    exact kept.fill (before.away_above (Nat.le_add_right _ _)) 0
  · rw [header, Block.size_mk, List.length_replicate]
    exact (readField_unwritten (by decide)).trans (readField_written (show n < 2 ^ 64 by omega))
  · rw [header, unwritten .free (by decide) (by decide), stored.free, free]
  · rw [header, unwritten .ptr (by decide) (by decide), stored.ptr]
  · rw [Block.size_mk, List.length_replicate]
    exact load_fill
  · rw [prevOf, header, unwritten .prev (by decide) (by decide)]
    exact back
  · rw [nextOf, header]
    exact readField_written (show new < 2 ^ 64 by omega)
  · have fresh := segment_fresh (linkBack resized after new) true padding (show
      new + blockSize + rest < 2 ^ 64 by omega) afterFits (show block.addr < 2 ^ 64 by omega)
    have freshAway : Away [⟨new, true, List.replicate rest 0⟩] (dataOf block.addr)
        (dataOf block.addr + n) := by
      intro other member
      rw [List.mem_singleton.mp member]
      exact .inr (show block.addr + blockSize + n ≤ new by omega)
    have headerAway : Away right block.addr (block.addr + blockSize) := rightAway _ _ (by omega)
    have moved : Segment resized block.addr right null :=
      (segRight.writeField headerAway .size n).writeField headerAway .next new
    have linked : Segment (linkBack resized after new) new right null :=
      firstIs ▸ moved.linkBack behind (by omega) (by omega)
    have stored := (linked.storeHeader (rightAway new (new + blockSize) (by omega))
      ⟨rest, after, block.addr, 1, new, padding⟩).fill (rightAway (dataOf new) (dataOf new + rest)
      (by unfold dataOf; omega)) 0
    have cleared := stored.fill (rightAway (dataOf block.addr) (dataOf block.addr + n)
      (by unfold dataOf; omega)) 0
    refine (@segment_append _ _ _ [⟨new, true, List.replicate rest 0⟩] right).mpr ⟨?_, cleared⟩
    rw [firstIs]
    exact fresh.fill freshAway 0

end OsAssignments.MmAlloc
