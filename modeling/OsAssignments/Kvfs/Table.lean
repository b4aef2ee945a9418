import OsAssignments.Kvfs.Fnode

/-!
# The table in memory

The global `kvfs`: an array of file records with a 32-bit count. `lookup` compares names from the
front with an `int` as its counter, so a search that passes entry 2³¹ − 1 overflows it; short of
that it finds the first record with the name, or none.
-/

namespace OsAssignments.Kvfs

/-- The ways an operation ends without returning. -/
inductive Halt
  /-- `exit(1)` after "corrupt superblock". -/
  | corrupt
  /-- `exit(1)` because the superblock file cannot be opened. -/
  | cannotOpen
  /-- An `int` counter overflows, which is undefined. -/
  | overflow
  /-- An access leaves its array or record, which is undefined. -/
  | outOfBounds
  deriving DecidableEq, Repr

/-- The values from which an `int` overflows. -/
def intLimit : Nat := 2 ^ 31

/-- The `kvfs_t` that `kvfs` points to. -/
@[ext]
structure Table where
  /-- `data`: the records. -/
  entries : List Fnode
  /-- `size`, which counts them, is a `uint32_t`. -/
  counted : entries.length < 2 ^ 32
  deriving DecidableEq

namespace Table

/-- The table of no files. -/
def empty : Table := ⟨[], by decide⟩

/-- Change the record at an index. -/
def modify (table : Table) (index : Nat) (change : Fnode → Fnode) : Table :=
  ⟨table.entries.modify index change, by rw [List.length_modify]; exact table.counted⟩

/-- Grow the array by a record. The count of the largest array wraps to zero, and its last record
is then stored outside. -/
def push (table : Table) (fnode : Fnode) : Except Halt Table :=
  if room : table.entries.length + 1 < 2 ^ 32 then
    .ok ⟨table.entries ++ [fnode], by simpa using room⟩
  else .error .outOfBounds

end Table

/-- The loop of `lookup` from record `i` on. A comparison may run on into the records behind. -/
def lookupFrom (filename : CString) : Nat → List Fnode → Except Halt (Option Nat)
  | i, [] => if i = intLimit then .error .overflow else .ok none
  | i, fnode :: rest =>
    if i = intLimit then .error .overflow
    else
      match CString.compare (ByteRecord.join (fnode :: rest)) filename.bytes with
      | none => .error .outOfBounds
      | some true => .ok (some i)
      | some false => lookupFrom filename (i + 1) rest

/-- `lookup`: the index of the first record with a name; nothing stands for −1. -/
def lookup (table : Table) (filename : CString) : Except Halt (Option Nat) :=
  lookupFrom filename 0 table.entries

variable {filename : CString} {table : Table} {entries left right : List Fnode} {fnode : Fnode}
  {i index : Nat}

/-- The first record with a name, among the records before it and behind it. -/
structure FirstNamed (filename : CString) (entries left : List Fnode) (fnode : Fnode)
    (right : List Fnode) : Prop where
  /-- Where the record is. -/
  place : entries = left ++ fnode :: right
  /-- It has the name. -/
  named : Named filename fnode
  /-- No record before it has. -/
  before : ∀ other ∈ left, ¬ Named filename other

/-- The record is one of the table. -/
theorem FirstNamed.mem (first : FirstNamed filename entries left fnode right) : fnode ∈ entries := by
  rw [first.place]
  exact List.mem_append_right left List.mem_cons_self

/-- So are the others. -/
theorem FirstNamed.mem_others (first : FirstNamed filename entries left fnode right) {other : Fnode}
    (member : other ∈ left ++ right) : other ∈ entries := by
  rw [first.place]
  rcases List.mem_append.mp member with inLeft | inRight
  · exact List.mem_append_left _ inLeft
  · exact List.mem_append_right left (List.mem_cons_of_mem fnode inRight)

/-- A comparison with a name that is shorter than a record is decided within the first record. -/
theorem compare_join_within (within : filename.length < fnodeSize) :
    CString.compare (ByteRecord.join (fnode :: entries)) filename.bytes =
      some (decide (Named filename fnode)) := by
  have whole := fnode.length_bytes
  have room : filename.stored.length ≤ fnode.bytes.length := by
    rw [CString.length_stored, whole]
    exact within
  have enough : filename.length < (fnode.bytes ++ ByteRecord.join entries).length := by
    rw [List.length_append]
    omega
  have front : filename.stored <+: fnode.bytes ++ ByteRecord.join entries ↔ Named filename fnode :=
    ⟨fun there => List.prefix_of_prefix_length_le there (List.prefix_append _ _) room,
      fun named => List.prefix_append_of_prefix named⟩
  rw [ByteRecord.join, List.flatMap_cons, ← ByteRecord.join, CString.compare_eq enough]
  exact congrArg some (decide_eq_decide.mpr front)

/-- A comparison with a short name is. -/
theorem compare_join (short : Short filename) :
    CString.compare (ByteRecord.join (fnode :: entries)) filename.bytes =
      some (decide (Named filename fnode)) :=
  compare_join_within (Nat.lt_trans short (by decide))

/-- So is any comparison when the first record has a zero byte. -/
theorem compare_join_zero (zero : (0 : UInt8) ∈ fnode.bytes) :
    CString.compare (ByteRecord.join (fnode :: entries)) filename.bytes =
      some (decide (Named filename fnode)) :=
  CString.compare_append zero filename.proper

/-- Some record has the name, and one is the first of them, or none has. -/
theorem firstNamed_or_absent (filename : CString) (entries : List Fnode) :
    (∃ left fnode right, FirstNamed filename entries left fnode right) ∨
      ∀ fnode ∈ entries, ¬ Named filename fnode := by
  induction entries with
  | nil => exact .inr (by simp)
  | cons head rest ih =>
    by_cases named : Named filename head
    · exact .inl ⟨[], head, rest, rfl, named, by simp⟩
    · rcases ih with ⟨left, fnode, right, place, found, before⟩ | absent
      · exact .inl ⟨head :: left, fnode, right, by rw [place]; rfl, found,
          List.forall_mem_cons.mpr ⟨named, before⟩⟩
      · exact .inr (List.forall_mem_cons.mpr ⟨named, absent⟩)

/-- The loop finds the first record with a name that is shorter than a record, unless the counter
overflows before. -/
theorem lookupFrom_found_within (within : filename.length < fnodeSize) (start : i ≤ intLimit)
    (found : FirstNamed filename entries left fnode right) :
    lookupFrom filename i entries =
      if i + left.length < intLimit then .ok (some (i + left.length)) else .error .overflow := by
  obtain ⟨rfl, named, before⟩ := found
  induction left generalizing i with
  | nil =>
    by_cases limit : i = intLimit
    · simp [lookupFrom, limit]
    · have below : i < intLimit := Nat.lt_of_le_of_ne start limit
      simp [lookupFrom, limit, compare_join_within within, named, below]
  | cons head rest ih =>
    have notHead := before head List.mem_cons_self
    rw [List.cons_append, lookupFrom]
    by_cases limit : i = intLimit
    · rw [if_pos limit, if_neg (by omega)]
    · rw [if_neg limit, compare_join_within within, decide_eq_false notHead]
      have tail := @ih (i + 1) (by omega) fun other member =>
        before other (List.mem_cons_of_mem _ member)
      have sum : i + 1 + rest.length = i + (head :: rest).length := by
        rw [List.length_cons]
        omega
      rw [sum] at tail
      exact tail

/-- The loop finds the first record with a short name, unless the counter overflows before. -/
theorem lookupFrom_found (short : Short filename) (start : i ≤ intLimit)
    (found : FirstNamed filename entries left fnode right) :
    lookupFrom filename i entries =
      if i + left.length < intLimit then .ok (some (i + left.length)) else .error .overflow :=
  lookupFrom_found_within (Nat.lt_trans short (by decide)) start found

/-- The loop finds nothing when no record has a short name, unless the counter overflows. -/
theorem lookupFrom_absent (short : Short filename) (start : i ≤ intLimit)
    (absent : ∀ fnode ∈ entries, ¬ Named filename fnode) :
    lookupFrom filename i entries =
      if i + entries.length < intLimit then .ok none else .error .overflow := by
  induction entries generalizing i with
  | nil =>
    by_cases limit : i = intLimit
    · simp [lookupFrom, limit]
    · have below : i < intLimit := Nat.lt_of_le_of_ne start limit
      simp [lookupFrom, limit, below]
  | cons head rest ih =>
    have notHead := absent head List.mem_cons_self
    rw [lookupFrom]
    by_cases limit : i = intLimit
    · rw [if_pos limit, if_neg (by omega)]
    · rw [if_neg limit, compare_join short, decide_eq_false notHead]
      have tail := @ih (i + 1) (by omega) fun other member =>
        absent other (List.mem_cons_of_mem _ member)
      have sum : i + 1 + rest.length = i + (head :: rest).length := by
        rw [List.length_cons]
        omega
      rw [sum] at tail
      exact tail

/-- A loop that finds a record compares the first one, and stops at it or goes on. -/
theorem lookupFrom_cons (searched : lookupFrom filename i (fnode :: right) = .ok (some index)) :
    i ≠ intLimit ∧
      ((CString.compare (ByteRecord.join (fnode :: right)) filename.bytes = some true ∧ i = index) ∨
        (CString.compare (ByteRecord.join (fnode :: right)) filename.bytes = some false ∧
          lookupFrom filename (i + 1) right = .ok (some index))) := by
  rw [lookupFrom] at searched
  by_cases limit : i = intLimit
  · rw [if_pos limit] at searched
    cases searched
  · rw [if_neg limit] at searched
    refine ⟨limit, ?_⟩
    cases compared : CString.compare (ByteRecord.join (fnode :: right)) filename.bytes with
    | none =>
      rw [compared] at searched
      cases searched
    | some equal =>
      rw [compared] at searched
      cases equal with
      | true =>
        cases searched
        exact .inl ⟨rfl, rfl⟩
      | false => exact .inr ⟨rfl, searched⟩

/-- A loop finds no record before the one it starts at. -/
theorem lookupFrom_le (searched : lookupFrom filename i entries = .ok (some index)) : i ≤ index := by
  induction entries generalizing i with
  | nil =>
    rw [lookupFrom] at searched
    split at searched <;> cases searched
  | cons head rest ih =>
    rcases lookupFrom_cons searched with ⟨_, ⟨_, here⟩ | ⟨_, later⟩⟩
    · exact Nat.le_of_eq here
    · have bound := ih later
      omega

/-- A loop finds no record that its counter does not reach. -/
theorem lookupFrom_lt (start : i ≤ intLimit)
    (searched : lookupFrom filename i entries = .ok (some index)) : index < intLimit := by
  induction entries generalizing i with
  | nil =>
    rw [lookupFrom] at searched
    split at searched <;> cases searched
  | cons head rest ih =>
    rcases lookupFrom_cons searched with ⟨limit, ⟨_, here⟩ | ⟨_, later⟩⟩
    · omega
    · exact ih (by omega) later

/-- A loop that finds a later record passes the first one. -/
theorem lookupFrom_passes
    (searched : lookupFrom filename i (fnode :: right) = .ok (some (i + 1 + index))) :
    i ≠ intLimit ∧
      CString.compare (ByteRecord.join (fnode :: right)) filename.bytes = some false ∧
      lookupFrom filename (i + 1) right = .ok (some (i + 1 + index)) := by
  rcases lookupFrom_cons searched with ⟨limit, ⟨_, here⟩ | passed⟩
  · omega
  · exact ⟨limit, passed⟩

/-- Where the loop finds a record with a zero byte, the record has the name. -/
theorem lookupFrom_named (zero : (0 : UInt8) ∈ fnode.bytes)
    (searched : lookupFrom filename i (left ++ fnode :: right) = .ok (some (i + left.length))) :
    Named filename fnode := by
  induction left generalizing i with
  | nil =>
    rcases lookupFrom_cons searched with ⟨_, ⟨equal, _⟩ | ⟨_, later⟩⟩
    · rw [compare_join_zero zero] at equal
      exact of_decide_eq_true (Option.some.inj equal)
    · have bound := lookupFrom_le later
      rw [List.length_nil] at bound
      omega
  | cons head rest ih =>
    have sum : i + (head :: rest).length = i + 1 + rest.length := by
      rw [List.length_cons]
      omega
    rw [sum] at searched
    exact ih (lookupFrom_passes searched).2.2

/-- The loop finds a record that is exchanged for one with the name. -/
theorem lookupFrom_exchange {fnode' : Fnode} (named : Named filename fnode')
    (searched : lookupFrom filename i (left ++ fnode :: right) = .ok (some (i + left.length))) :
    lookupFrom filename i (left ++ fnode' :: right) = .ok (some (i + left.length)) := by
  have within : filename.length < fnodeSize := by
    have front := named.length_le
    rw [CString.length_stored, fnode'.length_bytes] at front
    omega
  induction left generalizing i with
  | nil =>
    have limit := (lookupFrom_cons searched).1
    rw [List.nil_append, lookupFrom, if_neg limit, compare_join_within within,
      decide_eq_true named]
    rfl
  | cons head rest ih =>
    have sum : i + (head :: rest).length = i + 1 + rest.length := by
      rw [List.length_cons]
      omega
    rw [sum] at searched ⊢
    obtain ⟨limit, passed, later⟩ := lookupFrom_passes searched
    rw [compare_join_within within] at passed
    rw [List.cons_append, lookupFrom, if_neg limit, compare_join_within within, passed]
    exact ih later

/-- A record has one place as the first with its name. -/
theorem FirstNamed.unique {left' right' : List Fnode} {fnode' : Fnode}
    (found : FirstNamed filename entries left fnode right)
    (found' : FirstNamed filename entries left' fnode' right') :
    left = left' ∧ fnode = fnode' ∧ right = right' := by
  obtain ⟨place, named, before⟩ := found
  obtain ⟨place', named', before'⟩ := found'
  rw [place] at place'
  obtain ⟨middle, same, rest⟩ | ⟨middle, same, rest⟩ := List.append_eq_append_iff.mp place'
  · cases middle with
    | nil =>
      obtain ⟨rfl, rfl⟩ := List.cons_eq_cons.mp rest
      exact ⟨by simpa using same.symm, rfl, rfl⟩
    | cons head tail =>
      obtain ⟨rfl, _⟩ := List.cons_eq_cons.mp rest
      exact absurd named (before' fnode (by simp [same]))
  · cases middle with
    | nil =>
      obtain ⟨rfl, rfl⟩ := List.cons_eq_cons.mp rest
      exact ⟨by simpa using same, rfl, rfl⟩
    | cons head tail =>
      obtain ⟨rfl, _⟩ := List.cons_eq_cons.mp rest
      exact absurd named' (before fnode' (by simp [same]))

/-- `lookup` returns an index exactly when it is that of the first record with the name. -/
theorem lookup_eq_some (short : Short filename) :
    lookup table filename = .ok (some index) ↔ index < intLimit ∧
      ∃ left fnode right, FirstNamed filename table.entries left fnode right ∧
        left.length = index := by
  rcases firstNamed_or_absent filename table.entries with ⟨left, fnode, right, found⟩ | absent
  · rw [lookup, lookupFrom_found short (Nat.zero_le _) found, Nat.zero_add]
    constructor
    · intro returned
      by_cases below : left.length < intLimit
      · rw [if_pos below] at returned
        obtain rfl : left.length = index := by simpa using returned
        exact ⟨below, left, fnode, right, found, rfl⟩
      · simp [below] at returned
    · rintro ⟨below, left', fnode', right', found', rfl⟩
      rw [(found.unique found').1, if_pos below]
  · rw [lookup, lookupFrom_absent short (Nat.zero_le _) absent]
    constructor
    · intro returned
      split at returned <;> simp at returned
    · rintro ⟨_, left, fnode, right, found, _⟩
      exact absurd found.named (absent fnode found.mem)

/-- `lookup` returns −1 exactly when no record has the name and the counter goes through all. -/
theorem lookup_eq_none (short : Short filename) :
    lookup table filename = .ok none ↔ table.entries.length < intLimit ∧
      ∀ fnode ∈ table.entries, ¬ Named filename fnode := by
  rcases firstNamed_or_absent filename table.entries with ⟨left, fnode, right, found⟩ | absent
  · rw [lookup, lookupFrom_found short (Nat.zero_le _) found]
    constructor
    · intro returned
      split at returned <;> simp at returned
    · rintro ⟨_, absent⟩
      exact absurd found.named (absent fnode found.mem)
  · rw [lookup, lookupFrom_absent short (Nat.zero_le _) absent, Nat.zero_add]
    constructor
    · intro returned
      by_cases below : table.entries.length < intLimit
      · exact ⟨below, absent⟩
      · simp [below] at returned
    · rintro ⟨below, _⟩
      exact if_pos below

/-- Changing the record behind some others. -/
theorem modify_split (change : Fnode → Fnode) :
    (left ++ fnode :: right).modify left.length change = left ++ change fnode :: right := by
  induction left with
  | nil => rfl
  | cons head rest ih => simp [ih]

/-- The record at an index, among those before and behind it. -/
theorem entries_split (there : entries[index]? = some fnode) :
    ∃ left right, entries = left ++ fnode :: right ∧ left.length = index := by
  obtain ⟨inside, rfl⟩ := List.getElem?_eq_some_iff.mp there
  exact ⟨entries.take index, entries.drop (index + 1), by simp, by rw [List.length_take]; omega⟩

/-- The record at an index that is changed. -/
theorem modify_there {change : Fnode → Fnode} (there : table.entries[index]? = some fnode) :
    (table.modify index change).entries[index]? = some (change fnode) := by
  rw [Table.modify, List.getElem?_modify_eq, there]
  rfl

/-- A path that finds a record with a zero byte is the name of it. -/
theorem lookup_named (zero : (0 : UInt8) ∈ fnode.bytes)
    (there : table.entries[index]? = some fnode)
    (searched : lookup table filename = .ok (some index)) : Named filename fnode := by
  obtain ⟨left, right, place, rfl⟩ := entries_split there
  rw [lookup, place, ← Nat.zero_add left.length] at searched
  exact lookupFrom_named zero searched

/-- A path that finds a record finds it when it has been changed but for the name. -/
theorem lookup_modify {change : Fnode → Fnode} (there : table.entries[index]? = some fnode)
    (named : Named filename (change fnode)) (searched : lookup table filename = .ok (some index)) :
    lookup (table.modify index change) filename = .ok (some index) := by
  obtain ⟨left, right, place, rfl⟩ := entries_split there
  rw [lookup, place, ← Nat.zero_add left.length] at searched
  have exchanged := lookupFrom_exchange named searched
  rw [Nat.zero_add] at exchanged
  rw [lookup, Table.modify]
  simp only
  rw [place, modify_split]
  exact exchanged

/-- A record pushed comes last. -/
theorem push_eq {pushed : Table} (returned : table.push fnode = .ok pushed) :
    pushed.entries = table.entries ++ [fnode] := by
  unfold Table.push at returned
  split at returned
  · cases returned
    rfl
  · contradiction

end OsAssignments.Kvfs
