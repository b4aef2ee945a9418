import OsAssignments.MmAlloc.Arena

/-!
# Blocks laid out in memory

How a memory holds blocks: every header names the size, the flag, its own address and its two
neighbours, and every payload holds the bytes of its block. A segment of blocks survives any
write away from it, and each list operation of the source is described once by what it does to
the segments around the blocks it touches.
-/

namespace OsAssignments.MmAlloc

open ByteMemory LinkedList MachineWord

/-- A header and a payload in memory are those of a block, links apart. -/
structure Stored (memory : ByteMemory) (block : Block) : Prop where
  /-- The size recorded is the length of the payload. -/
  size : readField memory block.addr .size = block.size
  /-- The flag recorded is 0 or 1. -/
  free : readField memory block.addr .free = block.free.toNat
  /-- The address recorded is the block's own. -/
  ptr : readField memory block.addr .ptr = block.addr
  /-- The payload bytes. -/
  data : memory.load block.payload block.size = block.data

/-- The `next` link of a header. -/
abbrev nextOf (memory : ByteMemory) (block : Nat) : Nat := readField memory block .next

/-- The `prev` link of a header. -/
abbrev prevOf (memory : ByteMemory) (block : Nat) : Nat := readField memory block .prev

/-- The addresses of blocks. -/
abbrev addrs (blocks : List Block) : List Nat := blocks.map Block.addr

/-- Blocks stored in memory and linked between two ends. -/
structure Segment (memory : ByteMemory) (before : Nat) (blocks : List Block) (after : Nat) :
    Prop where
  /-- The links. -/
  links : Chain (nextOf memory) (prevOf memory) before (addrs blocks) after
  /-- The headers and payloads. -/
  stored : ∀ block ∈ blocks, Stored memory block

/-- Every block lies wholly outside an address range. -/
def Away (blocks : List Block) (start finish : Nat) : Prop :=
  ∀ block ∈ blocks, block.finish ≤ start ∨ finish ≤ block.addr

variable {memory other : ByteMemory} {before after low high start finish : Nat} {block next : Block}
  {blocks left right : List Block} {field : Field} {value : Nat}

/-- A block depends only on the bytes of its own range. -/
theorem Stored.congr (stored : Stored memory block)
    (agree : AgreeOn other memory block.addr block.finish) : Stored other block := by
  have header : AgreeOn other memory block.addr (block.addr + blockSize) :=
    agree.mono (Nat.le_refl _) (Nat.le_add_right _ _)
  have payload : AgreeOn other memory block.payload (block.payload + block.size) :=
    agree.mono (Nat.le_add_right _ _) (Nat.le_refl _)
  exact ⟨(readField_congr header).trans stored.size, (readField_congr header).trans stored.free,
    (readField_congr header).trans stored.ptr, (load_congr payload).trans stored.data⟩

/-- Writing a link of a header changes nothing else about its block. -/
theorem Stored.writeLink (stored : Stored memory block) (link : field = .next ∨ field = .prev) :
    Stored (writeField memory block.addr field value) block := by
  have payload : AgreeOn (writeField memory block.addr field value) memory block.payload
      (block.payload + block.size) := writeField_agree (.inr (Nat.le_refl _))
  have kept : ∀ other, other ≠ .next → other ≠ .prev →
      readField (MmAlloc.writeField memory block.addr field value) block.addr other =
        readField memory block.addr other := by
    intro other notNext notPrev
    rcases link with rfl | rfl
    · exact readField_unwritten notNext
    · exact readField_unwritten notPrev
  exact ⟨(kept .size (by decide) (by decide)).trans stored.size,
    (kept .free (by decide) (by decide)).trans stored.free,
    (kept .ptr (by decide) (by decide)).trans stored.ptr, (load_congr payload).trans stored.data⟩

/-- Writing the flag of a header changes only the flag of its block. -/
theorem Stored.writeFree {free : Bool} (stored : Stored memory block) :
    Stored (writeField memory block.addr .free free.toNat) { block with free } := by
  have payload : AgreeOn (writeField memory block.addr .free free.toNat) memory block.payload
      (block.payload + block.size) := writeField_agree (.inr (Nat.le_refl _))
  have flag : free.toNat < 256 ^ Field.free.width := by cases free <;> decide
  exact ⟨(readField_unwritten (by decide)).trans stored.size, readField_written flag,
    (readField_unwritten (by decide)).trans stored.ptr, (load_congr payload).trans stored.data⟩

/-- A segment depends only on the bytes of its blocks. -/
theorem Segment.congr (segment : Segment memory before blocks after)
    (agree : ∀ block ∈ blocks, AgreeOn other memory block.addr block.finish) :
    Segment other before blocks after := by
  have header : ∀ addr ∈ addrs blocks, ∀ field, readField other addr field =
      readField memory addr field := by
    intro addr member field
    obtain ⟨block, inside, rfl⟩ := List.mem_map.mp member
    exact readField_congr ((agree block inside).mono (Nat.le_refl _) (Nat.le_add_right _ _))
  exact ⟨segment.links.congr (fun addr member => header addr member .next)
      (fun addr member => header addr member .prev),
    fun block member => (segment.stored block member).congr (agree block member)⟩

/-- A field write away from a segment leaves it in place. -/
theorem Segment.writeField {addr : Nat} (segment : Segment memory before blocks after)
    (away : Away blocks addr (addr + blockSize)) (field : Field) (value : Nat) :
    Segment (writeField memory addr field value) before blocks after :=
  segment.congr fun block member => writeField_agree (away block member)

/-- A header copied away from a segment leaves it in place. -/
theorem Segment.storeHeader {addr : Nat} (segment : Segment memory before blocks after)
    (away : Away blocks addr (addr + blockSize)) (sb : SBlock) :
    Segment (storeHeader memory addr sb) before blocks after :=
  segment.congr fun block member => storeHeader_agree (away block member)

/-- A fill away from a segment leaves it in place. -/
theorem Segment.fill {count : Nat} (segment : Segment memory before blocks after)
    (away : Away blocks start (start + count)) (byte : UInt8) :
    Segment (memory.fill start count byte) before blocks after :=
  segment.congr fun block member => fill_agree (away block member)

/-- A store away from a segment leaves it in place. -/
theorem Segment.store {bytes : List UInt8} (segment : Segment memory before blocks after)
    (away : Away blocks start (start + bytes.length)) :
    Segment (memory.store start bytes) before blocks after :=
  segment.congr fun block member => store_agree (away block member)

/-- A segment is cut, or two are joined, at any point. -/
theorem segment_append :
    Segment memory before (left ++ right) after ↔
      Segment memory before left (first (addrs right) after) ∧
        Segment memory (last before (addrs left)) right after := by
  constructor
  · intro segment
    have links := segment.links
    rw [addrs, List.map_append, chain_append] at links
    exact ⟨⟨links.1, fun block member => segment.stored block (List.mem_append_left _ member)⟩,
      ⟨links.2, fun block member => segment.stored block (List.mem_append_right _ member)⟩⟩
  · rintro ⟨first, second⟩
    refine ⟨?_, ?_⟩
    · rw [addrs, List.map_append, chain_append]
      exact ⟨first.links, second.links⟩
    · intro block member
      rcases List.mem_append.mp member with member | member
      · exact first.stored block member
      · exact second.stored block member

/-- A segment of one block and more. -/
theorem segment_cons :
    Segment memory before (block :: right) after ↔
      Stored memory block ∧ prevOf memory block.addr = before ∧
        nextOf memory block.addr = first (addrs right) after ∧
        Segment memory block.addr right after := by
  constructor
  · rintro ⟨⟨back, front, links⟩, stored⟩
    exact ⟨stored block List.mem_cons_self, back, front, links,
      fun other member => stored other (List.mem_cons_of_mem _ member)⟩
  · rintro ⟨here, back, front, rest⟩
    exact ⟨⟨back, front, rest.links⟩, List.forall_mem_cons.mpr ⟨here, rest.stored⟩⟩

/-- No block is an empty segment. -/
theorem segment_nil : Segment memory before [] after := ⟨trivial, by simp⟩

/-- Blocks that end below an address are away from every range above it. -/
theorem Ordered.away_above (ordered : Ordered low blocks high) (above : high ≤ start) :
    Away blocks start finish :=
  fun _ member => .inl (Nat.le_trans (ordered.mem member).2 above)

/-- Blocks that start above an address are away from every range below it. -/
theorem Ordered.away_below (ordered : Ordered low blocks high) (below : finish ≤ low) :
    Away blocks start finish :=
  fun _ member => .inr (Nat.le_trans below (ordered.mem member).1)

/-- The assignment to a neighbour's `prev` that `split_block` and `fusion` guard by a null test. -/
def linkBack (memory : ByteMemory) (node back : Nat) : ByteMemory :=
  if node ≠ null then writeField memory node .prev back else memory

/-- Redirecting the back link of the first block after a place moves the start of the segment. -/
theorem Segment.linkBack {back : Nat} (segment : Segment memory before blocks null)
    (ordered : Ordered low blocks high) (positive : 0 < low) (small : back < 2 ^ 64) :
    Segment (linkBack memory (first (addrs blocks) null) back) back blocks null := by
  cases blocks with
  | nil => exact segment_nil
  | cons block rest =>
    obtain ⟨stored, _, front, tail⟩ := segment_cons.mp segment
    have proper : block.addr ≠ null := by
      have := ordered.1
      unfold null
      omega
    have restAway : Away rest block.addr (block.addr + blockSize) :=
      ordered.2.away_below (Nat.le_add_right _ _)
    rw [addrs, List.map_cons, first_cons, MmAlloc.linkBack, if_pos proper, segment_cons]
    exact ⟨stored.writeLink (.inr rfl), readField_written small,
      (readField_unwritten (by decide)).trans front, tail.writeField restAway .prev back⟩

/-- Redirecting a back link leaves every range apart from that header alone. -/
theorem linkBack_agree {node back : Nat} (away : finish ≤ node ∨ node + blockSize ≤ start) :
    AgreeOn (linkBack memory node back) memory start finish := by
  unfold linkBack
  split
  · exact writeField_agree away
  · exact fun _ _ _ => rfl

end OsAssignments.MmAlloc
