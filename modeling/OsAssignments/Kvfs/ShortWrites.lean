import OsAssignments.Kvfs.Recovery

/-!
# Short and failed writes

`write_superblock` means to leave the process when one of its two `write` calls does not transfer
all it was given. Its checks compare `!write_sz`, which is 0 or 1, with the size asked for: the
first is never true, and the second only for a failed write of no records. Behind every other
short or failed write the function returns 0.
-/

namespace OsAssignments.Kvfs

open ByteRecord

variable {table : Table} {count records : Reply} {old : List UInt8} {n : Nat}

/-- What a `write` of so many bytes can give: a count up to them, or −1. -/
def Possible (requested : Nat) (reply : Reply) : Prop := ∀ transferred ∈ reply, transferred ≤ requested

/-- `write_superblock` returns with the whole table in the file, or takes the exit for a corrupt
superblock. -/
def ReportsWrites (superblock : Option (List UInt8)) (table : Table) (count records : Reply) : Prop :=
  writeSuperblock superblock table count records = .ok (image table) ∨
    writeSuperblock superblock table count records = .error .corrupt

/-- Both writes transfer all they are given, or there are no records and writing them fails. -/
def Transferred (table : Table) (count records : Reply) : Prop :=
  (count = some 4 ∧ records = some (table.entries.length * fnodeSize)) ∨
    (table.entries.length = 0 ∧ records = none)

/-! ## The checks -/

/-- The first check of `write_superblock` is never true. -/
theorem notOf_count : notOf count ≠ 4 := by
  unfold notOf
  split <;> decide

/-- The second check is true exactly for a failed write of no records. -/
theorem notOf_records (possible : Possible (n * fnodeSize) records) :
    notOf records = n * fnodeSize ↔ n = 0 ∧ records = none := by
  unfold notOf fnodeSize
  cases records with
  | none =>
    rw [if_neg (by simp), and_iff_left rfl]
    omega
  | some transferred =>
    have bound := possible transferred rfl
    unfold fnodeSize at bound
    by_cases none : transferred = 0
    · rw [if_pos (by rw [none])]
      simp only [reduceCtorEq, and_false, iff_false]
      omega
    · rw [if_neg (by simpa using none)]
      simp only [reduceCtorEq, and_false, iff_false]
      omega

/-- `write_superblock` of a truncated file exits for a failed write of no records, and returns with
what was transferred otherwise. -/
theorem writeSuperblock_cleared (possible : Possible (table.entries.length * fnodeSize) records) :
    writeSuperblock (clearSuperblock (some old)) table count records =
      if table.entries.length = 0 ∧ records = none then .error .corrupt
      else .ok (written [] table count records) := by
  rw [clearSuperblock, Option.map_some, writeSuperblock, if_neg notOf_count]
  simp only [notOf_records possible]

/-! ## What is left in the file -/

/-- A truncated file holds the whole table exactly when every byte was transferred. -/
theorem written_image_iff (possible : Possible 4 count)
    (possible' : Possible (table.entries.length * fnodeSize) records) :
    written [] table count records = image table ↔
      count.getD 0 = 4 ∧ records.getD 0 = table.entries.length * fnodeSize := by
  have countBound : count.getD 0 ≤ 4 := by
    cases count with
    | none => exact Nat.zero_le 4
    | some transferred => exact possible transferred rfl
  have recordsBound : records.getD 0 ≤ table.entries.length * fnodeSize := by
    cases records with
    | none => exact Nat.zero_le _
    | some transferred => exact possible' transferred rfl
  have size := LittleEndian.length_encode 4 table.entries.length
  have total := @length_join fnodeSize table.entries
  rw [written_empty countBound]
  constructor
  · intro whole
    have length := congrArg List.length whole
    simp only [image, List.length_append, List.length_take, size, total] at length
    omega
  · rintro ⟨four, all⟩
    rw [four, all, List.take_of_length_le (Nat.le_of_eq size),
      List.take_of_length_le (Nat.le_of_eq total), image]

/-- Behind a truncation `write_superblock` reports every short or failed write exactly when there
is none to report, or it is that of no records. -/
theorem reportsWrites_iff (old : List UInt8) (possible : Possible 4 count)
    (possible' : Possible (table.entries.length * fnodeSize) records) :
    ReportsWrites (clearSuperblock (some old)) table count records ↔
      Transferred table count records := by
  rw [ReportsWrites, Transferred, writeSuperblock_cleared possible']
  by_cases exits : table.entries.length = 0 ∧ records = none
  · simp [exits]
  · rw [if_neg exits]
    simp only [exits, or_false, reduceCtorEq, Except.ok.injEq]
    rw [written_image_iff possible possible']
    constructor
    · rintro ⟨four, all⟩
      cases count with
      | none => contradiction
      | some transferred =>
        cases records with
        | none =>
          refine absurd ⟨?_, rfl⟩ exits
          rw [Option.getD_none] at all
          exact (Nat.mul_eq_zero.mp all.symm).resolve_right (by decide)
        | some transferred' => exact ⟨congrArg some four, congrArg some all⟩
    · rintro ⟨rfl, rfl⟩
      exact ⟨rfl, rfl⟩

/-- The write of one record fails for want of room on the disk, and `write_superblock` returns. -/
theorem shortWrite_unreported : ¬ ∀ (old : List UInt8) (table : Table) (count records : Reply),
    Possible 4 count → Possible (table.entries.length * fnodeSize) records →
      ReportsWrites (clearSuperblock (some old)) table count records := by
  intro claim
  have possible : Possible (oneFile.entries.length * fnodeSize) none := by
    rintro transferred ⟨⟩
  have possible' : Possible 4 (some 4) := by
    rintro transferred ⟨⟩
    exact Nat.le_refl 4
  rcases claim [] oneFile (some 4) none possible' possible with saved | exits
  · rw [writeSuperblock_cleared possible, if_neg (by decide)] at saved
    have whole := (written_image_iff possible' possible).mp (Except.ok.inj saved)
    exact absurd whole.2 (by decide)
  · rw [writeSuperblock_cleared possible, if_neg (by decide)] at exits
    contradiction

/-- Two records of which every byte is transferred are saved over a longer file. -/
theorem reportsWrites_twoRecords :
    ReportsWrites (clearSuperblock (some longerFile)) twoRecords (some 4) (some 4104) :=
  (reportsWrites_iff longerFile (by rintro transferred ⟨⟩; exact Nat.le_refl 4)
    (by rintro transferred ⟨⟩; exact Nat.le_refl 4104)).mpr (.inl ⟨rfl, rfl⟩)

end OsAssignments.Kvfs
