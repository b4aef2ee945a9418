import Mathlib.Data.List.Chain
import Mathlib.Data.List.Perm.Basic

/-!
# Coalescing lists

Lists whose neighbouring items may be merged into one. Pushing an item in front of a list merges
it with the first item there when both are mergeable, and coalescing pushes all items of a list
one after another. With an associative merge the result is a normal form: changing items that
are not yet mergeable may come before coalescing or after it.
-/

namespace Coalescing

variable {α ι : Type} (mergeable : α → Prop) [DecidablePred mergeable] (merge : α → α → α)

/-- Put an item in front of a list, merged with the first item there when both are mergeable. -/
def push (item : α) : List α → List α
  | [] => [item]
  | next :: rest =>
    if mergeable item ∧ mergeable next then merge item next :: rest else item :: next :: rest

/-- Merge all mergeable neighbours of a list. -/
def coalesce (items : List α) : List α := items.foldr (push mergeable merge) []

/-- The laws of merging. -/
structure Lawful : Prop where
  /-- Merged items are mergeable again. -/
  merged : ∀ item next, mergeable item → mergeable next → mergeable (merge item next)
  /-- Of three items either two may be merged first. -/
  assoc : ∀ first second third, merge (merge first second) third = merge first (merge second third)

variable {mergeable merge} {item next : α} {items : List α} {change : α → α} {each : ι → α → α}

/-- Pushing two mergeable items comes to pushing the item they merge into. -/
theorem push_merge (lawful : Lawful mergeable merge) (first : mergeable item)
    (second : mergeable next) :
    push mergeable merge (merge item next) items =
      push mergeable merge item (push mergeable merge next items) := by
  have both := lawful.merged item next first second
  cases items with
  | nil => simp [push, first, second]
  | cons third rest =>
    by_cases mergesThird : mergeable third
    · have later := lawful.merged next third second mergesThird
      simp [push, first, second, both, mergesThird, later, lawful.assoc]
    · simp [push, first, second, both, mergesThird]

/-- A list in which no neighbours can be merged is coalesced already. -/
theorem coalesce_of_isChain
    (apart : items.IsChain fun item next => ¬ (mergeable item ∧ mergeable next)) :
    coalesce mergeable merge items = items := by
  induction items with
  | nil => rfl
  | cons item rest ih =>
    rw [coalesce, List.foldr_cons, ← coalesce, ih apart.tail]
    cases rest with
    | nil => rfl
    | cons next rest =>
      have here := (List.isChain_cons_cons.mp apart).1
      rw [push, if_neg here]

/-- A change that leaves mergeable items alone may be made before pushing or after it, when the
list is coalesced in the end. -/
theorem coalesce_map_push (lawful : Lawful mergeable merge)
    (fixes : ∀ item, mergeable item → change item = item) :
    coalesce mergeable merge ((push mergeable merge item items).map change) =
      coalesce mergeable merge ((item :: items).map change) := by
  cases items with
  | nil => rfl
  | cons next rest =>
    rw [push]
    split
    · rename_i both
      obtain ⟨first, second⟩ := both
      have merged := lawful.merged item next first second
      rw [List.map_cons, fixes _ merged, List.map_cons, fixes _ first, List.map_cons,
        fixes _ second]
      exact push_merge lawful first second
    · rfl

/-- A change that leaves mergeable items alone may be made before coalescing or after it. -/
theorem coalesce_map_coalesce (lawful : Lawful mergeable merge)
    (fixes : ∀ item, mergeable item → change item = item) :
    coalesce mergeable merge ((coalesce mergeable merge items).map change) =
      coalesce mergeable merge (items.map change) := by
  induction items with
  | nil => rfl
  | cons item rest ih =>
    calc
      coalesce mergeable merge ((coalesce mergeable merge (item :: rest)).map change)
        = coalesce mergeable merge ((item :: coalesce mergeable merge rest).map change) :=
          coalesce_map_push lawful fixes
      _ = push mergeable merge (change item)
            (coalesce mergeable merge ((coalesce mergeable merge rest).map change)) := rfl
      _ = push mergeable merge (change item) (coalesce mergeable merge (rest.map change)) := by
          rw [ih]

/-- Where no neighbours can be merged, at most every other item is mergeable: a list is at most twice
as long as its other items are many, and one item longer. -/
theorem length_le_of_isChain
    (apart : items.IsChain fun item next => ¬ (mergeable item ∧ mergeable next)) :
    items.length ≤ 2 * items.countP (fun item => ¬ mergeable item) + 1 := by
  -- A list that does not begin with a mergeable item has one item less.
  suffices items.length ≤ 2 * items.countP (fun item => ¬ mergeable item) +
      if items.head?.any (fun item => mergeable item) then 1 else 0 by
    refine this.trans (Nat.add_le_add_left ?_ _)
    split <;> omega
  induction items with
  | nil => exact Nat.zero_le _
  | cons item rest ih =>
    have shorter := ih apart.tail
    rw [List.length_cons, List.countP_cons, List.head?_cons]
    by_cases first : mergeable item
    · cases rest with
      | nil => simp [first]
      | cons next rest =>
        have here := (List.isChain_cons_cons.mp apart).1
        have second : ¬ mergeable next := fun too => here ⟨first, too⟩
        simp only [List.head?_cons, Option.any_some, second, decide_false, Bool.false_eq_true,
          if_false] at shorter
        simp only [first, not_true_eq_false, decide_false, Option.any_some, decide_true, if_true,
          Bool.false_eq_true, if_false]
        omega
    · have atMost : (if rest.head?.any (fun item => mergeable item) then 1 else 0) ≤ 1 := by
        split <;> omega
      simp only [first, not_false_eq_true, decide_true, Option.any_some, decide_false, if_true,
        Bool.false_eq_true, if_false]
      omega

/-- Commuting changes, each followed by coalescing, may be made in any order. -/
theorem foldl_coalesce_perm {order order' : List ι} (lawful : Lawful mergeable merge)
    (fixes : ∀ index item, mergeable item → each index item = item)
    (commute : ∀ index other item, each index (each other item) = each other (each index item))
    (perm : order.Perm order') (items : List α) :
    order.foldl (fun items index => coalesce mergeable merge (items.map (each index))) items =
      order'.foldl (fun items index => coalesce mergeable merge (items.map (each index))) items := by
  have rightCommutes : RightCommutative fun (items : List α) index =>
      coalesce mergeable merge (items.map (each index)) := by
    constructor
    intro items index other
    rw [coalesce_map_coalesce lawful (fixes other), coalesce_map_coalesce lawful (fixes index),
      List.map_map, List.map_map]
    have same : each other ∘ each index = each index ∘ each other :=
      funext fun item => commute other index item
    rw [same]
  exact perm.foldl_eq items

end Coalescing
