/-
**Two traversals in step.**

* `InStep`: two examinations that keep their states related, and send control to the same places.
* **`InStep.visits`**: then two traversals make the same visits, and related things of the actions
  there, **whatever the control flow is**: the two worklists hold the same places all along.
* **`InStep.traversed`**: and they leave related actions.
-/

import ActionCode.Proofs.Flow.Edges
import ActionCode.Proofs.Flow.Walking
import Mathlib.Data.List.Forall2

namespace ActionCode

variable {σ τ ε δ : Type}

/-- Two maps of one list are related if they are at each entry. -/
theorem forall₂_map_same {α β γ : Type} {relates : β → γ → Prop} {first : α → β} {second : α → γ}
    (pairs : ∀ entry, relates (first entry) (second entry)) (entries : List α) :
    List.Forall₂ relates (entries.map first) (entries.map second) :=
  List.forall₂_map_left_iff.mpr (List.forall₂_map_right_iff.mpr
    (List.forall₂_same.mpr fun entry _ => pairs entry))

/-- Related elements are members of their lists. -/
theorem forall₂_mem {α β : Type} {relates : α → β → Prop} {first : List α} {second : List β}
    (pairs : List.Forall₂ relates first second) :
    List.Forall₂ (fun a b => a ∈ first ∧ b ∈ second ∧ relates a b) first second := by
  have flipped : List.Forall₂ (fun b a => b ∈ second ∧ relates a b) second first :=
    (List.forall₂_and_left second first).mpr ⟨fun _ member => member, pairs.flip⟩
  exact (List.forall₂_and_left first second).mpr ⟨fun _ member => member, flipped.flip⟩

/-! ### Control flow -/

/-- Where control goes depends on the branch, on whether the path ends, and on where labels are. -/
theorem successors_congr {labels others : Std.TreeMap Nat Nat}
    (tables : ∀ id : Nat, labels[id]? = others[id]?) {action other : Action}
    (branch : action.branch? = other.branch?) (stops : action.stops = other.stops) (index : Nat) :
    successors labels index action = successors others index other := by
  have found : ((action.branch?.bind Branch.label).bind fun label => labels[label.id]?) =
      (other.branch?.bind Branch.label).bind fun label => others[label.id]? := by
    rw [branch]
    exact congrArg (Option.bind _) (funext fun label => tables label.id)
  rw [successors_eq, successors_eq, found, Action.fallsThrough, Action.fallsThrough, branch, stops]

/-- Labels are at the same indices in sequences that place the same ones, one by one. -/
theorem getElem?_labelIndices_congr {relates : Action → Action → Prop}
    (labels : ∀ {action other}, relates action other → action.label? = other.label?)
    {actions others : List Action} (pairs : List.Forall₂ relates actions others) (id : Nat) :
    (labelIndices actions)[id]? = (labelIndices others)[id]? := by
  have same : placed? actions = placed? others := by
    funext index
    rw [placed?, placed?]
    induction pairs generalizing index with
    | nil => rfl
    | cons first _ ih =>
      cases index with
      | zero => exact labels first
      | succ index => exact ih index
  apply Option.ext
  intro index
  rw [labelIndices_eq_some_iff actions ⟨id⟩, labelIndices_eq_some_iff others ⟨id⟩, PlacedAt, PlacedAt,
    same]

/-! ### Exploring in step -/

/-- Related states are kept related, and control goes to the same places. -/
structure InStep (examine : Examine σ ε) (other : Examine τ δ) (labels others : Std.TreeMap Nat Nat)
    (states : σ → τ → Prop) (actions : Action → Action → Prop)
    (made : Observation σ ε → Observation τ δ → Prop) : Prop where
  examined : ∀ {state state' action action'}, states state state' → actions action action' →
    made (examine state action) (other state' action')
  state : ∀ {observed observed'}, made observed observed' → states observed.state observed'.state
  flow : ∀ {observed observed'}, made observed observed' → ∀ index,
    successors labels index observed.action = successors others index observed'.action

/-- Two visits of one place in related states, which make related things of the action there. -/
structure Visit.Pairs (states : σ → τ → Prop) (made : Observation σ ε → Observation τ δ → Prop)
    (visit : Visit σ ε) (other : Visit τ δ) : Prop where
  index : visit.index = other.index
  before : states visit.before other.before
  made : made visit.observed other.observed

/-- Two cells have been visited, or neither has been, and then their actions are related. -/
structure Cell.Pairs (actions : Action → Action → Prop) (cell other : Cell) : Prop where
  visited : cell.visited = other.visited
  fresh : cell.visited = false → actions cell.action other.action

/-- Cells of two sequences, pair by pair. -/
def CellsPair (actions : Action → Action → Prop) (cells others : Array Cell) : Prop :=
  ∀ index : Nat, Option.Rel (Cell.Pairs actions) cells[index]? others[index]?

theorem CellsPair.getElem {actions : Action → Action → Prop} {cells others : Array Cell}
    (pair : CellsPair actions cells others) {index : Nat} (inside : index < cells.size) :
    ∃ inside' : index < others.size, Cell.Pairs actions cells[index] others[index] := by
  have here := pair index
  rw [Array.getElem?_eq_getElem inside] at here
  by_cases inside' : index < others.size
  · rw [Array.getElem?_eq_getElem inside'] at here
    cases here with
    | some pairs => exact ⟨inside', pairs⟩
  · rw [Array.getElem?_eq_none (Nat.le_of_not_lt inside')] at here
    cases here

theorem CellsPair.outside {actions : Action → Action → Prop} {cells others : Array Cell}
    (pair : CellsPair actions cells others) {index : Nat} (outside : ¬ index < cells.size) :
    ¬ index < others.size := by
  intro inside
  have here := pair index
  rw [Array.getElem?_eq_none (Nat.le_of_not_lt outside), Array.getElem?_eq_getElem inside] at here
  cases here

theorem CellsPair.set {actions : Action → Action → Prop} {cells others : Array Cell}
    (pair : CellsPair actions cells others) {place : Nat} (inside : place < cells.size)
    (inside' : place < others.size) (action other : Action) :
    CellsPair actions (cells.set place ⟨action, true⟩) (others.set place ⟨other, true⟩) := by
  intro index
  rw [Array.getElem?_set, Array.getElem?_set]
  split
  · exact .some ⟨rfl, fun fresh => by cases fresh⟩
  · exact pair index

namespace InStep

variable {examine : Examine σ ε} {other : Examine τ δ} {labels others : Std.TreeMap Nat Nat}
  {states : σ → τ → Prop} {actions : Action → Action → Prop}
  {made : Observation σ ε → Observation τ δ → Prop}

/-- **Exploring makes the same visits** from worklists that hold the same places. -/
theorem explore (inStep : InStep examine other labels others states actions made)
    (work : List (Nat × σ)) (cells : Array Cell) (visits : Array (Visit σ ε))
    {work' : List (Nat × τ)} {cells' : Array Cell} {visits' : Array (Visit τ δ)}
    (workPairs : List.Forall₂ (fun entry entry' => entry.1 = entry'.1 ∧ states entry.2 entry'.2)
      work work')
    (cellsPair : CellsPair actions cells cells')
    (visitsPair : List.Forall₂ (Visit.Pairs states made) visits.toList visits'.toList) :
    List.Forall₂ (Visit.Pairs states made) (ActionCode.explore examine labels work cells visits).2.toList
      (ActionCode.explore other others work' cells' visits').2.toList := by
  fun_induction ActionCode.explore examine labels work cells visits
    generalizing work' cells' visits' with
  | case1 cells visits =>
    cases workPairs
    rw [ActionCode.explore]
    exact visitsPair
  | case2 cells visits index state rest inside fresh observed =>
    rename_i next ih
    rcases workPairs with _ | @⟨_, ⟨_, state'⟩, _, rest', ⟨rfl, related⟩, restPairs⟩
    obtain ⟨inside', pairs⟩ := cellsPair.getElem inside
    have fresh' : cells'[index].visited = false := by
      rw [← pairs.visited, fresh]
    have made := inStep.examined related (pairs.fresh fresh)
    rw [ActionCode.explore, dif_pos inside', dif_pos fresh']
    refine ih ?_ (cellsPair.set inside inside' _ _) ?_
    · refine List.rel_append ?_ restPairs
      rw [← inStep.flow made]
      exact forall₂_map_same (fun _ => ⟨rfl, inStep.state made⟩) _
    · rw [Array.toList_push, Array.toList_push]
      exact List.rel_append visitsPair (.cons ⟨rfl, related, made⟩ .nil)
  | case3 cells visits index state rest inside visited ih =>
    rcases workPairs with _ | @⟨_, ⟨_, state'⟩, _, rest', ⟨rfl, related⟩, restPairs⟩
    obtain ⟨inside', pairs⟩ := cellsPair.getElem inside
    have visited' : ¬ cells'[index].visited = false := by
      rw [← pairs.visited]
      exact visited
    rw [ActionCode.explore, dif_pos inside', dif_neg visited']
    exact ih restPairs cellsPair visitsPair
  | case4 cells visits index state rest outside ih =>
    rcases workPairs with _ | @⟨_, ⟨_, state'⟩, _, rest', ⟨rfl, related⟩, restPairs⟩
    rw [ActionCode.explore, dif_neg (cellsPair.outside outside)]
    exact ih restPairs cellsPair visitsPair

end InStep

/-! ### Traversals in step -/

namespace InStep

variable {examine : Examine σ ε} {other : Examine τ δ} {before others : List Action}
  {states : σ → τ → Prop} {actions : Action → Action → Prop}
  {made : Observation σ ε → Observation τ δ → Prop}

/-- **Two traversals in step make the same visits**, and related things of the actions there. -/
theorem visits
    (inStep : InStep examine other (labelIndices before) (labelIndices others) states actions made)
    {initial : σ} {initial' : τ} (start : states initial initial')
    (pairs : List.Forall₂ actions before others) :
    List.Forall₂ (Visit.Pairs states made) (traverse examine initial before).visits
      (traverse other initial' others).visits := by
  rw [traverse_eq_explore, traverse_eq_explore]
  refine inStep.explore _ _ #[] ?_ ?_ .nil
  · rw [pairs.length_eq]
    exact forall₂_map_same (fun _ => ⟨rfl, start⟩) _
  · intro index
    rw [List.getElem?_toArray, List.getElem?_toArray, List.getElem?_map, List.getElem?_map]
    clear inStep
    induction pairs generalizing index with
    | nil => exact .none
    | cons pair _ ih =>
      cases index with
      | zero => exact .some ⟨rfl, fun _ => pair⟩
      | succ index => exact ih index

/-- **Two traversals in step leave related actions.** -/
theorem traversed
    (inStep : InStep examine other (labelIndices before) (labelIndices others) states actions made)
    {initial : σ} {initial' : τ} (start : states initial initial')
    (pairs : List.Forall₂ actions before others) {left : Action → Action → Prop}
    (leaves : ∀ {observed observed'}, made observed observed' →
      left observed.action observed'.action) :
    List.Forall₂ left (traverse examine initial before).actions
      (traverse other initial' others).actions := by
  have length := length_actions_traverse examine initial before
  have length' := length_actions_traverse other initial' others
  have visits := inStep.visits start pairs
  refine List.forall₂_iff_get.mpr ⟨?_, fun index inside inside' => ?_⟩
  · rw [length, length', pairs.length_eq]
  · obtain ⟨visit, member, rfl⟩ := exists_visit_traverse examine initial (length ▸ inside)
    obtain ⟨place, here, isVisit⟩ := List.getElem_of_mem member
    obtain ⟨sameLength, every⟩ := List.forall₂_iff_get.mp visits
    have pair := every place here (sameLength ▸ here)
    rw [List.get_eq_getElem, List.get_eq_getElem, isVisit] at pair
    have first := (made_of_mem_traverse member).2
    have second := (made_of_mem_traverse (List.getElem_mem (sameLength ▸ here))).2
    rw [← pair.index] at second
    have left' := leaves pair.made
    rw [List.getElem?_eq_getElem inside] at first
    rw [List.getElem?_eq_getElem inside'] at second
    rw [List.get_eq_getElem, List.get_eq_getElem, Option.some.inj first, Option.some.inj second]
    exact left'

end InStep

end ActionCode
