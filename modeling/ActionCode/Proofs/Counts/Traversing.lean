/-
**Changes that a traversal does not see.**

* **`map_traverse`**: what an examination makes of every action, a traversal makes of the sequence.
* `Transparent`: a change of actions that commutes with an examination and keeps control flow.
  **`Transparent.traverse`**: then it commutes with a traversal, since the two make their visits in
  step.
-/

import ActionCode.Proofs.Flow.Lockstep

namespace ActionCode

variable {σ ε : Type} {examine : Examine σ ε}

/-! ### What every visit makes -/

/-- **What an examination makes of every action, in whichever state, a traversal makes of the
sequence.** -/
theorem map_traverse {β : Type} {view seen : Action → β}
    (makes : ∀ state action, view (examine state action).action = seen action) (initial : σ)
    (actions : List Action) :
    (traverse examine initial actions).actions.map view = actions.map seen := by
  refine List.ext_getElem? fun index => ?_
  rw [List.getElem?_map, List.getElem?_map]
  rcases Nat.lt_or_ge index actions.length with inside | outside
  · obtain ⟨visit, member, rfl⟩ := exists_visit_traverse examine initial inside
    obtain ⟨⟨action, here, observed⟩, left⟩ := made_of_mem_traverse member
    rw [left, here, observed, Option.map_some, Option.map_some, makes]
  · have length := length_actions_traverse examine initial actions
    rw [List.getElem?_eq_none outside, List.getElem?_eq_none (length ▸ outside)]
    rfl

/-! ### What is not seen -/

/-- A change of actions that an examination does not see, and that keeps control flow. -/
structure Transparent (examine : Examine σ ε) (change : Action → Action) : Prop where
  examined : ∀ state action, examine state (change action) =
    { examine state action with action := change (examine state action).action }
  flow : ∀ labels index action,
    successors labels index (change action) = successors labels index action
  label : ∀ action, (change action).label? = action.label?

namespace Transparent

variable {change : Action → Action}

/-- What is made of a changed action. -/
def observation (change : Action → Action) (observed : Observation σ ε) : Observation σ ε :=
  { observed with action := change observed.action }

/-- A visit of a changed action. -/
def visit (change : Action → Action) (visit : Visit σ ε) : Visit σ ε :=
  { visit with observed := observation change visit.observed }

/-- Labels are where they were. -/
theorem labelIndices (transparent : Transparent examine change) (actions : List Action) :
    ActionCode.labelIndices (actions.map change) = ActionCode.labelIndices actions := by
  unfold ActionCode.labelIndices
  rw [List.foldl_map]
  refine congrArg (fun step => (actions.foldl step (∅, 0)).1) ?_
  funext state action
  rw [transparent.label]

/-- A sequence is traversed in step with its changed actions. -/
theorem inStep (transparent : Transparent examine change) (actions : List Action) :
    InStep examine examine (ActionCode.labelIndices actions)
      (ActionCode.labelIndices (actions.map change)) Eq (fun action changed => change action = changed)
      fun observed changed => observation change observed = changed where
  examined := by
    rintro state _ action _ rfl rfl
    exact (transparent.examined state action).symm
  state := by
    rintro observed _ rfl
    rfl
  flow := by
    rintro observed _ rfl index
    rw [transparent.labelIndices]
    exact (transparent.flow _ index observed.action).symm

/-- **A traversal of changed actions leaves changed actions**, with the same notes. -/
theorem traverse (transparent : Transparent examine change) (initial : σ)
    (actions : List Action) :
    ActionCode.traverse examine initial (actions.map change) =
      ⟨(ActionCode.traverse examine initial actions).actions.map change,
        (ActionCode.traverse examine initial actions).visits.map (visit change)⟩ := by
  have changed : List.Forall₂ (fun action changed => change action = changed) actions
      (actions.map change) := List.forall₂_map_right_iff.mpr (List.forall₂_same.mpr fun _ _ => rfl)
  have left : List.Forall₂ (fun action changed => change action = changed) _ _ :=
    (transparent.inStep actions).traversed (Eq.refl initial) changed (congrArg Observation.action)
  have visits := ((transparent.inStep actions).visits (Eq.refl initial) changed).imp
    fun first second (pair : Visit.Pairs ..) =>
      show visit change first = second by
        obtain ⟨index, before, observed⟩ := second
        obtain ⟨rfl, rfl, rfl⟩ := pair
        rfl
  rw [← List.forall₂_map_left_iff, List.forall₂_eq_eq_eq] at left visits
  rw [left, visits]

end Transparent

end ActionCode
