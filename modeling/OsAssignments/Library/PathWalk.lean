import Mathlib.Data.List.Basic

/-!
# Walking relative paths

A place in a tree of directories is the list of names that lead to it, and a relative path is
walked name by name: some names stay, some go up, all others go down. The top is its own parent.
A path has a normal form, some steps up and then names down, that does the same from every place;
it tells whether a walk ends below where it began.
-/

namespace PathWalk

variable {ν : Type} (stays up : ν → Bool)

/-- The place one name leads to. -/
def step (place : List ν) (name : ν) : List ν :=
  if stays name then place else if up name then place.dropLast else place ++ [name]

/-- The place a path leads to. -/
def walk (place path : List ν) : List ν := path.foldl (step stays up) place

/-- A path in normal form. -/
structure Normal (ν : Type) where
  /-- The number of steps up. -/
  ups : Nat
  /-- The names down. -/
  names : List ν
  deriving DecidableEq, Repr

/-- A normal form with one name more behind it. -/
def Normal.step (normal : Normal ν) (name : ν) : Normal ν :=
  if stays name then normal
  else if up name then
    if normal.names = [] then ⟨normal.ups + 1, []⟩ else ⟨normal.ups, normal.names.dropLast⟩
  else ⟨normal.ups, normal.names ++ [name]⟩

/-- The normal form of a path. -/
def normalize (path : List ν) : Normal ν := path.foldl (Normal.step stays up) ⟨0, []⟩

/-- The place a normal form leads to. -/
def Normal.apply (normal : Normal ν) (place : List ν) : List ν :=
  place.take (place.length - normal.ups) ++ normal.names

variable {stays up} {place root path rest : List ν} {name other : ν} {normal : Normal ν}

/-- Two paths are walked one after the other. -/
theorem walk_append :
    walk stays up place (path ++ rest) = walk stays up (walk stays up place path) rest :=
  List.foldl_append

/-- One more name of a normal form is one more step. -/
theorem Normal.apply_step :
    (normal.step stays up name).apply place = PathWalk.step stays up (normal.apply place) name := by
  unfold Normal.step PathWalk.step
  by_cases here : stays name
  · rw [if_pos here, if_pos here]
  · rw [if_neg here, if_neg here]
    by_cases above : up name
    · rw [if_pos above, if_pos above]
      by_cases none : normal.names = []
      · rw [if_pos none]
        unfold apply
        rw [none, List.append_nil, List.append_nil, List.dropLast_eq_take, List.take_take,
          List.length_take]
        have count : place.length - (normal.ups + 1) =
            min (min (place.length - normal.ups) place.length - 1) (place.length - normal.ups) := by
          omega
        exact congrArg place.take count
      · rw [if_neg none]
        exact (List.dropLast_append_of_ne_nil none).symm
    · rw [if_neg above, if_neg above]
      exact (List.append_assoc _ _ _).symm

/-- A path leads from every place where its normal form does. -/
theorem walk_eq_normalize : walk stays up place path = (normalize stays up path).apply place := by
  have carried : ∀ normal : Normal ν, walk stays up (normal.apply place) path =
      (path.foldl (Normal.step stays up) normal).apply place := by
    induction path with
    | nil => exact fun _ => rfl
    | cons name rest ih =>
      intro normal
      rw [walk, List.foldl_cons, ← Normal.apply_step]
      exact ih (normal.step stays up name)
  have start : (⟨0, []⟩ : Normal ν).apply place = place := by
    simp [Normal.apply]
  have whole := carried ⟨0, []⟩
  rw [start] at whole
  exact whole

/-- A normal form stays below a place exactly when its names go back in where its steps up have
left it. -/
theorem Normal.below_iff :
    place <+: normal.apply place ↔ place.drop (place.length - normal.ups) <+: normal.names := by
  unfold apply
  conv_lhs => lhs; rw [← List.take_append_drop (place.length - normal.ups) place]
  exact List.prefix_append_right_inj _

/-- A name that goes down. -/
theorem step_down (goes : stays name = false) (below : up name = false) :
    step stays up place name = place ++ [name] := by
  simp [step, goes, below]

/-- Below a root, a name leads to the same place from there and from the root only at the root, or
up to the top. -/
theorem step_eq_iff (below : root <+: place) :
    step stays up root name = step stays up place name ↔
      place = root ∨ (stays name = false ∧ up name = true ∧ root = [] ∧ place.length ≤ 1) := by
  unfold step
  cases here : stays name with
  | true =>
    rw [if_pos rfl, if_pos rfl]
    exact ⟨fun same => .inl same.symm, fun same => (same.resolve_right (by simp)).symm⟩
  | false =>
    rw [if_neg Bool.false_ne_true, if_neg Bool.false_ne_true]
    cases above : up name with
    | true =>
      rw [if_pos rfl, if_pos rfl]
      constructor
      · intro same
        obtain ⟨rest, rfl⟩ := below
        have lengths := congrArg List.length same
        rw [List.length_dropLast, List.length_dropLast, List.length_append] at lengths
        by_cases none : rest = []
        · exact .inl (by rw [none, List.append_nil])
        · have some := List.length_pos_of_ne_nil none
          have top : root = [] := List.eq_nil_of_length_eq_zero (by omega)
          refine .inr ⟨rfl, rfl, top, ?_⟩
          rw [List.length_append]
          omega
      · rintro (rfl | ⟨_, _, rfl, single⟩)
        · rfl
        · apply (List.eq_nil_of_length_eq_zero _).symm
          rw [List.length_dropLast]
          omega
    | false =>
      rw [if_neg Bool.false_ne_true, if_neg Bool.false_ne_true]
      constructor
      · exact fun same => .inl (List.append_cancel_right same).symm
      · exact fun same => by rw [same.resolve_right (by simp)]

/-- Below a root, different names lead to different places if the second goes down. -/
theorem step_ne (below : root <+: place) (goes : stays name = false) (down : up name = false)
    (distinct : other ≠ name) : step stays up root other ≠ step stays up place name := by
  have shorter := below.length_le
  rw [step_down goes down]
  intro same
  have lengths := congrArg List.length same
  rw [List.length_append, List.length_singleton] at lengths
  unfold step at same lengths
  by_cases here : stays other
  · rw [if_pos here] at lengths
    omega
  · by_cases above : up other
    · rw [if_neg here, if_pos above, List.length_dropLast] at lengths
      omega
    · rw [if_neg here, if_neg above] at same
      have ends := List.append_inj_right' same rfl
      exact distinct (List.singleton_inj.mp ends)

end PathWalk
