import Mathlib.Data.List.Basic
import Mathlib.Logic.Function.Basic

/-!
# Lists of records as maps

A list of records that is searched from the front for a key. Where no two records have the same
key, the list is a map from keys to records: putting a record in, taking one out and exchanging one
for another change the map at the keys of those records alone, wherever in the list they are.
-/

namespace Keyed

variable {κ ρ : Type} [DecidableEq κ] (keyOf : ρ → κ)

/-- The first record with a key. -/
def find (records : List ρ) (key : κ) : Option ρ := records.find? fun record => keyOf record = key

variable {keyOf} {records left right : List ρ} {record changed : ρ} {key : κ}

/-- In two lists laid one after the other the first is searched first. -/
theorem find_append : find keyOf (left ++ right) key = (find keyOf left key).or (find keyOf right key) :=
  List.find?_append

/-- Only a key that no record has is not found. -/
theorem find_eq_none : find keyOf records key = none ↔ ∀ record ∈ records, keyOf record ≠ key := by
  simp [find]

/-- A record put in anywhere is found under its key, when no other has it, and the other keys are
found as before. -/
theorem find_insert (fresh : ∀ other ∈ left ++ right, keyOf other ≠ keyOf record) :
    find keyOf (left ++ record :: right) =
      Function.update (find keyOf (left ++ right)) (keyOf record) (some record) := by
  funext key
  by_cases same : key = keyOf record
  · subst same
    have before : find keyOf left (keyOf record) = none :=
      find_eq_none.mpr fun other member => fresh other (List.mem_append_left right member)
    rw [Function.update_self, find_append, before]
    simp [find]
  · have passed : find keyOf (record :: right) key = find keyOf right key := by
      simp [find, Ne.symm same]
    rw [Function.update_of_ne same, find_append, passed, find_append]

/-- A record taken out leaves its key unused, and the other keys are found as before. -/
theorem find_remove (others : ∀ other ∈ left ++ right, keyOf other ≠ keyOf record) :
    find keyOf (left ++ right) =
      Function.update (find keyOf (left ++ record :: right)) (keyOf record) none := by
  have gone : find keyOf (left ++ right) (keyOf record) = none := find_eq_none.mpr others
  rw [find_insert others, Function.update_idem, ← gone, Function.update_eq_self]

/-- A record exchanged for another, whose key no third one has, moves from key to key. -/
theorem find_exchange (others : ∀ other ∈ left ++ right, keyOf other ≠ keyOf record)
    (free : ∀ other ∈ left ++ right, keyOf other ≠ keyOf changed) :
    find keyOf (left ++ changed :: right) =
      Function.update (Function.update (find keyOf (left ++ record :: right)) (keyOf record) none)
        (keyOf changed) (some changed) := by
  rw [find_insert free, find_remove others]

/-- A record exchanged for another with the same key takes its place. -/
theorem find_replace (others : ∀ other ∈ left ++ right, keyOf other ≠ keyOf record)
    (same : keyOf changed = keyOf record) :
    find keyOf (left ++ changed :: right) =
      Function.update (find keyOf (left ++ record :: right)) (keyOf record) (some changed) := by
  rw [find_exchange others (same ▸ others), same, Function.update_idem]

end Keyed
