import Mathlib.Logic.Relation
import Mathlib.Order.Basic

/-!
# Labelled transition systems

States, labelled steps, and three ways of speaking of runs: the states reachable from a start,
a run given step by step, and the simulation of one system by another. Each comes with its one
induction, so that a proof about a system supplies only what a single step does.
-/

namespace Transition

variable {σ τ ε δ : Type} (step : σ → ε → σ → Prop)

/-- The states that some finite sequence of steps leads to. -/
def Reachable : σ → σ → Prop := Relation.ReflTransGen fun source target => ∃ label, step source label target

variable {step}

/-- A state is reachable from itself. -/
theorem Reachable.start {state : σ} : Reachable step state state := Relation.ReflTransGen.refl

/-- One more step stays reachable. -/
theorem Reachable.next {start source target : σ} {label : ε} (reached : Reachable step start source)
    (taken : step source label target) : Reachable step start target :=
  Relation.ReflTransGen.tail reached ⟨label, taken⟩

/-- What holds at the start and is kept by every step holds in every reachable state. -/
theorem Reachable.invariant {start state : σ} {holds : σ → Prop} (reached : Reachable step start state)
    (initial : holds start)
    (kept : ∀ source label target, holds source → step source label target → holds target) :
    holds state := by
  induction reached with
  | refl => exact initial
  | tail _ taken ih =>
    obtain ⟨label, taken⟩ := taken
    exact kept _ label _ ih taken

/-- A relation that every step of one system carries over to a step of another carries whole
runs over. -/
theorem Reachable.simulate {start state : σ} {other : τ} {step' : τ → δ → τ → Prop}
    {related : σ → τ → Prop} (reached : Reachable step start state) (initial : related start other)
    (carried : ∀ source label target image, Reachable step start source → related source image →
      step source label target → ∃ label' image', step' image label' image' ∧ related target image') :
    ∃ image, Reachable step' other image ∧ related state image := by
  induction reached with
  | refl => exact ⟨other, .start, initial⟩
  | tail before taken ih =>
    obtain ⟨image, imageReached, relatedThere⟩ := ih
    obtain ⟨label, taken⟩ := taken
    obtain ⟨label', image', taken', kept⟩ := carried _ label _ image before relatedThere taken
    exact ⟨image', imageReached.next taken', kept⟩

variable (step)

/-- A run from a state: the labels taken with the states they lead to. -/
def IsRun : σ → List (ε × σ) → Prop
  | _, [] => True
  | source, (label, target) :: rest => step source label target ∧ IsRun target rest

/-- A property of states holds at the start of a run and in every state it passes through. -/
def Always (holds : σ → Prop) : σ → List (ε × σ) → Prop
  | source, [] => holds source
  | source, (_, target) :: rest => holds source ∧ Always holds target rest

/-- A property of steps holds of every step of a run. -/
def Each (meets : σ → ε → σ → Prop) : σ → List (ε × σ) → Prop
  | _, [] => True
  | source, (label, target) :: rest => meets source label target ∧ Each meets target rest

/-- The state a run ends in. -/
def final : σ → List (ε × σ) → σ
  | source, [] => source
  | _, (_, target) :: rest => final target rest

/-- The run that labels lead through, up to the first one that cannot be performed. -/
def trace (perform : σ → ε → Option σ) : σ → List ε → List (ε × σ)
  | _, [] => []
  | source, label :: rest =>
    match perform source label with
    | some target => (label, target) :: trace perform target rest
    | none => []

variable {step} {holds inv : σ → Prop} {meets : σ → ε → σ → Prop}

/-- Performing labels goes through a run, when performing one takes a step. -/
theorem isRun_trace {perform : σ → ε → Option σ}
    (sound : ∀ source label target, perform source label = some target → step source label target)
    (start : σ) (labels : List ε) : IsRun step start (trace perform start labels) := by
  induction labels generalizing start with
  | nil => exact trivial
  | cons label rest ih =>
    rw [trace]
    split
    · rename_i target performed
      exact ⟨sound start label target performed, ih target⟩
    · exact trivial

/-- A trace takes no labels but those given. -/
theorem mem_trace {perform : σ → ε → Option σ} {start : σ} {labels : List ε} {move : ε × σ}
    (member : move ∈ trace perform start labels) : move.1 ∈ labels := by
  induction labels generalizing start with
  | nil => cases member
  | cons label rest ih =>
    rw [trace] at member
    split at member
    · rcases List.mem_cons.mp member with rfl | later
      · exact List.mem_cons_self
      · exact List.mem_cons_of_mem label (ih later)
    · cases member

instance decidableEach [∀ source label target, Decidable (meets source label target)] :
    (start : σ) → (run : List (ε × σ)) → Decidable (Each meets start run)
  | _, [] => inferInstanceAs (Decidable True)
  | source, (label, target) :: rest =>
    have := decidableEach target rest
    inferInstanceAs (Decidable (meets source label target ∧ Each meets target rest))

/-- What always holds in a run holds at its end. -/
theorem Always.final {start : σ} {run : List (ε × σ)} (always : Always holds start run) :
    holds (final start run) := by
  induction run generalizing start with
  | nil => exact always
  | cons move rest ih => exact ih always.2

/-- What follows from what always holds always holds. -/
theorem Always.imp {holds' : σ → Prop} {start : σ} {run : List (ε × σ)} (always : Always holds start run)
    (follows : ∀ state, holds state → holds' state) : Always holds' start run := by
  induction run generalizing start with
  | nil => exact follows start always
  | cons move rest ih => exact ⟨follows start always.1, ih always.2⟩

/-- The end of a run is reachable. -/
theorem IsRun.reachable {start : σ} {run : List (ε × σ)} (steps : IsRun step start run) :
    Reachable step start (final start run) := by
  suffices ∀ origin, Reachable step origin start → Reachable step origin (final start run) from
    this start .start
  intro origin reached
  induction run generalizing start with
  | nil => exact reached
  | cons move rest ih => exact ih steps.2 (reached.next steps.1)

/-- A run is cut, or two are joined, at any state. -/
theorem isRun_append {start : σ} {left right : List (ε × σ)} :
    IsRun step start (left ++ right) ↔
      IsRun step start left ∧ IsRun step (final start left) right := by
  induction left generalizing start with
  | nil => exact ⟨fun steps => ⟨trivial, steps⟩, fun both => both.2⟩
  | cons move rest ih =>
    obtain ⟨label, target⟩ := move
    exact (and_congr_right fun _ => ih).trans and_assoc.symm

/-- What the labels of a kind keep holds at the end of a run of them. -/
theorem IsRun.final_of_forall {start : σ} {run : List (ε × σ)} {allowed : ε → Prop}
    (steps : IsRun step start run) (initial : holds start)
    (kept : ∀ source label target, holds source → allowed label → step source label target →
      holds target)
    (all : ∀ move ∈ run, allowed move.1) : holds (final start run) := by
  induction run generalizing start with
  | nil => exact initial
  | cons move rest ih =>
    obtain ⟨label, target⟩ := move
    obtain ⟨first, others⟩ := List.forall_mem_cons.mp all
    exact ih steps.2 (kept start label target initial first steps.1) others

/-- Where every step of one system is a step of another with the same label, a run of the one is a
run of the other. -/
theorem IsRun.simulate {start : σ} {other : τ} {run : List (ε × σ)} {step' : τ → ε → τ → Prop}
    {related : σ → τ → Prop} (steps : IsRun step start run) (initial : related start other)
    (carried : ∀ source label target image, related source image → step source label target →
      ∃ image', step' image label image' ∧ related target image') :
    ∃ run', IsRun step' other run' ∧ run'.map Prod.fst = run.map Prod.fst ∧
      related (final start run) (final other run') := by
  induction run generalizing start other with
  | nil => exact ⟨[], trivial, rfl, initial⟩
  | cons move rest ih =>
    obtain ⟨label, target⟩ := move
    obtain ⟨image, taken, kept⟩ := carried start label target other initial steps.1
    obtain ⟨run', steps', labels, ends⟩ := ih steps.2 kept
    exact ⟨(label, image) :: run', ⟨taken, steps'⟩, congrArg (label :: ·) labels, ends⟩

/-- What every step keeps always holds in a run, and what every step has where it holds, each step of
the run has. -/
theorem IsRun.always_each {start : σ} {run : List (ε × σ)} (steps : IsRun step start run)
    (initial : inv start)
    (kept : ∀ source label target, inv source → step source label target →
      meets source label target ∧ inv target) : Always inv start run ∧ Each meets start run := by
  induction run generalizing start with
  | nil => exact ⟨initial, trivial⟩
  | cons move rest ih =>
    obtain ⟨label, target⟩ := move
    obtain ⟨first, next⟩ := kept start label target initial steps.1
    obtain ⟨always, each⟩ := ih steps.2 next
    exact ⟨⟨initial, always⟩, first, each⟩

/-- What every step with a property keeps always holds in a run of such steps. -/
theorem IsRun.always_of_each {start : σ} {run : List (ε × σ)} (steps : IsRun step start run)
    (initial : inv start)
    (kept : ∀ source label target, inv source → step source label target →
      meets source label target → inv target)
    (each : Each meets start run) : Always inv start run := by
  induction run generalizing start with
  | nil => exact initial
  | cons move rest ih =>
    obtain ⟨label, target⟩ := move
    exact ⟨initial, ih steps.2 (kept start label target initial steps.1 each.1) each.2⟩

/-- The condition on steps is exact for a property of states when, from a state that satisfies
the invariant, a step meeting it keeps the invariant and a step failing it breaks the property. -/
theorem IsRun.always_iff_each {start : σ} {run : List (ε × σ)} (steps : IsRun step start run)
    (initial : inv start) (safe : ∀ state, inv state → holds state)
    (kept : ∀ source label target, inv source → step source label target →
      meets source label target → inv target)
    (broken : ∀ source label target, inv source → step source label target →
      ¬ meets source label target → ¬ holds target) :
    Always holds start run ↔ Each meets start run := by
  induction run generalizing start with
  | nil => exact ⟨fun _ => trivial, fun _ => safe start initial⟩
  | cons move rest ih =>
    obtain ⟨label, target⟩ := move
    obtain ⟨taken, rest'⟩ := steps
    by_cases good : meets start label target
    · have tail := ih rest' (kept start label target initial taken good)
      exact ⟨fun always => ⟨good, tail.mp always.2⟩, fun each => ⟨safe start initial, tail.mpr each.2⟩⟩
    · have bad := broken start label target initial taken good
      have notAlways : ¬ Always holds target rest := by
        cases rest with
        | nil => exact bad
        | cons next rest => exact fun always => bad always.1
      exact ⟨fun always => absurd always.2 notAlways, fun each => absurd each.1 good⟩

/-- What follows from a property of steps, where an invariant holds that the property keeps, holds
of every step of a run whose steps have it. -/
theorem IsRun.each_of_each {start : σ} {run : List (ε × σ)} {meets' : σ → ε → σ → Prop}
    (steps : IsRun step start run) (initial : inv start)
    (kept : ∀ source label target, inv source → step source label target →
      meets source label target → inv target)
    (follows : ∀ source label target, inv source → step source label target →
      meets source label target → meets' source label target)
    (each : Each meets start run) : Each meets' start run := by
  induction run generalizing start with
  | nil => trivial
  | cons move rest ih =>
    obtain ⟨label, target⟩ := move
    have next := kept start label target initial steps.1 each.1
    exact ⟨follows start label target initial steps.1 each.1, ih steps.2 next each.2⟩

/-- Two properties of steps that agree wherever the invariant holds agree on whole runs. -/
theorem IsRun.each_iff_each {start : σ} {run : List (ε × σ)} {meets' : σ → ε → σ → Prop}
    (steps : IsRun step start run) (initial : inv start)
    (kept : ∀ source label target, inv source → step source label target → inv target)
    (same : ∀ source label target, inv source → step source label target →
      (meets source label target ↔ meets' source label target)) :
    Each meets start run ↔ Each meets' start run := by
  induction run generalizing start with
  | nil => exact Iff.rfl
  | cons move rest ih =>
    obtain ⟨label, target⟩ := move
    obtain ⟨taken, rest'⟩ := steps
    exact and_congr (same start label target initial taken)
      (ih rest' (kept start label target initial taken))

/-- A quantity that no step lowers, and that exactly the steps with a property keep, is the same at
both ends of a run exactly when all steps have the property. -/
theorem IsRun.final_eq_iff_each {β : Type} [PartialOrder β] {quantity : σ → β} {start : σ}
    {run : List (ε × σ)} (steps : IsRun step start run)
    (monotone : ∀ source label target, step source label target → quantity source ≤ quantity target)
    (kept : ∀ source label target, step source label target →
      (quantity target = quantity source ↔ meets source label target)) :
    quantity (final start run) = quantity start ↔ Each meets start run := by
  have above : ∀ {start : σ} {run : List (ε × σ)}, IsRun step start run →
      quantity start ≤ quantity (final start run) := by
    intro start run steps
    induction run generalizing start with
    | nil => exact le_refl _
    | cons move rest ih => exact (monotone _ _ _ steps.1).trans (ih steps.2)
  induction run generalizing start with
  | nil => exact iff_of_true rfl trivial
  | cons move rest ih =>
    obtain ⟨label, target⟩ := move
    obtain ⟨taken, rest'⟩ := steps
    have first := kept start label target taken
    constructor
    · intro same
      have upper : quantity target ≤ quantity start := (above rest').trans (le_of_eq same)
      have equal := le_antisymm upper (monotone start label target taken)
      exact ⟨first.mp equal, (ih rest').mp (same.trans equal.symm)⟩
    · intro each
      exact ((ih rest').mpr each.2).trans (first.mpr each.1)

/-- Where all steps with a property keep a quantity, it is the same throughout a run of them. -/
theorem IsRun.always_eq_of_each {β : Type} {quantity : σ → β} {start : σ} {run : List (ε × σ)}
    (steps : IsRun step start run)
    (kept : ∀ source label target, step source label target → meets source label target →
      quantity target = quantity source)
    (each : Each meets start run) : Always (fun state => quantity state = quantity start) start run := by
  suffices ∀ value, quantity start = value → Always (fun state => quantity state = value) start run from
    this _ rfl
  intro value same
  induction run generalizing start with
  | nil => exact same
  | cons move rest ih =>
    exact ⟨same, ih steps.2 each.2 ((kept _ _ _ steps.1 each.1).trans same)⟩

/-- What a step sets a cell to is what the cell holds after a run when no later step sets it; where
none has set it the cell holds what it held at the start. -/
theorem IsRun.cell_eq_iff {β : Type} {cell : σ → β} {sets : σ → ε → σ → Option β} {start : σ}
    {run : List (ε × σ)} (steps : IsRun step start run)
    (kept : ∀ source label target, step source label target →
      cell target = (sets source label target).getD (cell source)) (value : β) :
    cell (final start run) = value ↔
      (∃ before move behind, run = before ++ move :: behind ∧
        sets (final start before) move.1 move.2 = some value ∧
        Each (fun source label target => sets source label target = none) move.2 behind) ∨
      cell start = value ∧ Each (fun source label target => sets source label target = none) start run := by
  induction run generalizing start with
  | nil => simp [final, Each]
  | cons move rest ih =>
    obtain ⟨label, target⟩ := move
    have first := kept start label target steps.1
    rw [final, ih steps.2]
    constructor
    · rintro (⟨before, move, behind, rfl, isSet, calm⟩ | ⟨same, calm⟩)
      · exact .inl ⟨(label, target) :: before, move, behind, rfl, isSet, calm⟩
      · cases here : sets start label target with
        | none =>
          rw [here, Option.getD_none] at first
          exact .inr ⟨first.symm.trans same, here, calm⟩
        | some new =>
          rw [here, Option.getD_some] at first
          exact .inl ⟨[], (label, target), rest, rfl, here.trans (congrArg some (first.symm.trans same)),
            calm⟩
    · rintro (⟨before, move, behind, whole, isSet, calm⟩ | ⟨same, here, calm⟩)
      · cases before with
        | nil =>
          obtain ⟨rfl, rfl⟩ := List.cons_eq_cons.mp whole
          refine .inr ⟨?_, calm⟩
          rw [first, show sets start label target = some value from isSet, Option.getD_some]
        | cons earlier before =>
          obtain ⟨rfl, rfl⟩ := List.cons_eq_cons.mp whole
          exact .inl ⟨before, move, behind, rfl, isSet, calm⟩
      · refine .inr ⟨?_, calm⟩
        rw [first, here, Option.getD_none]
        exact same

end Transition
