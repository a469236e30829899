/-
**Following the control flow of a sequence.**

* `successors`: where control goes after an action. A branch without a label of its sequence has no
  taken edge.
* `Examine`: what is made of an action in a state: a later state, the action itself or another in
  its place, and notes.
* `explore`: visit what control reaches from the entries of a worklist. The successors of an action
  go in front of it, the edge that falls through before the edge that is taken.
* `traverse`: examine every action once. What control reaches from the first action is explored
  first; then **`rescan` goes through the indices, and explores anew, in the initial state, from each
  that has not been visited yet**.

**Both loops end**: a visit uses up one action and adds two entries at most, and every other step
drops an entry; and a scan that does not go on uses up the action where it stands.
-/

import Std.Data.TreeMap.Basic
import ActionCode.Action

namespace ActionCode

/-! ### Control flow -/

/-- Where the labels of a sequence are. **Of a label placed twice, the last place counts.** -/
def labelIndices (actions : List Action) : Std.TreeMap Nat Nat :=
  (actions.foldl (fun (labels, index) action =>
    match action.label? with
    | some label => (labels.insert label.id index, index + 1)
    | none => (labels, index + 1)) ((∅ : Std.TreeMap Nat Nat), 0)).1

/-- Whether control never goes on to the next action. -/
def Opcode.stops : Opcode → Bool
  | .returnValue | .throwValue | .endActions => true
  | _ => false

/-- The indices that control may go to after the action at an index: the next one first. -/
def successors (labels : Std.TreeMap Nat Nat) (index : Nat) (action : Action) : List Nat :=
  match action with
  | .plain (.branch branch) =>
    let target := match branch.label.bind fun label => labels[label.id]? with
      | some target => [target]
      | none => []
    if branch.conditional then (index + 1) :: target else target
  | .plain (.basic op) => if op.stops then [] else [index + 1]
  | _ => [index + 1]

theorem length_successors_le (labels : Std.TreeMap Nat Nat) (index : Nat) (action : Action) :
    (successors labels index action).length ≤ 2 := by
  unfold successors
  split
  · rename_i branch
    cases branch.label.bind fun label => labels[label.id]? <;> cases branch.conditional <;> simp
  · rename_i op
    cases op.stops <;> simp
  · simp

/-! ### Visits -/

/-- What is made of an action. -/
structure Observation (σ ε : Type) where
  state : σ
  /-- The action, or another in its place. -/
  action : Action
  notes : List ε

/-- What is made of an action in a state. -/
abbrev Examine (σ ε : Type) := σ → Action → Observation σ ε

/-- One visit: where, in which state, and what was made of the action. -/
structure Visit (σ ε : Type) where
  index : Nat
  before : σ
  observed : Observation σ ε

/-- An action and whether it has been visited. -/
structure Cell where
  action : Action
  visited : Bool

/-- The actions that have not been visited. -/
def unvisited (cells : Array Cell) : Nat := cells.countP fun cell => !cell.visited

theorem unvisited_set {cells : Array Cell} {index : Nat} (inside : index < cells.size)
    (fresh : cells[index].visited = false) (action : Action) :
    unvisited (cells.set index ⟨action, true⟩) + 1 = unvisited cells := by
  have positive : 0 < cells.countP fun cell => !cell.visited :=
    Array.countP_pos_iff.mpr ⟨cells[index], Array.getElem_mem inside, by simp [fresh]⟩
  unfold unvisited
  rw [Array.countP_set]
  simp only [fresh]
  simp only [Bool.not_false, Bool.not_true, if_true]
  simp only [Bool.false_eq_true, if_false]
  omega

/-- Visit the entries of a worklist and what control reaches from them. -/
def explore {σ ε : Type} (examine : Examine σ ε) (labels : Std.TreeMap Nat Nat)
    (work : List (Nat × σ)) (cells : Array Cell) (visits : Array (Visit σ ε)) :
    Array Cell × Array (Visit σ ε) :=
  match work with
  | [] => (cells, visits)
  | (index, state) :: rest =>
    if inside : index < cells.size then
      if _fresh : cells[index].visited = false then
        let observed := examine state cells[index].action
        let next := (successors labels index observed.action).map fun target =>
          (target, observed.state)
        explore examine labels (next ++ rest) (cells.set index ⟨observed.action, true⟩)
          (visits.push ⟨index, state, observed⟩)
      else explore examine labels rest cells visits
    else explore examine labels rest cells visits
termination_by 2 * unvisited cells + work.length
decreasing_by
  · have := unvisited_set inside _fresh (examine state cells[index].action).action
    have := length_successors_le labels index (examine state cells[index].action).action
    simp only [List.length_append, List.length_map, List.length_cons]
    omega
  · simp only [List.length_cons]; omega
  · simp only [List.length_cons]; omega

/-- Exploring keeps the number of actions. -/
theorem size_explore {σ ε : Type} (examine : Examine σ ε) (labels : Std.TreeMap Nat Nat)
    (work : List (Nat × σ)) (cells : Array Cell) (visits : Array (Visit σ ε)) :
    (explore examine labels work cells visits).1.size = cells.size := by
  fun_induction explore examine labels work cells visits with
  | case1 => rfl
  | case2 cells visits index state rest inside fresh observed next ih =>
    rw [ih, Array.size_set]
  | case3 _ _ _ _ _ _ _ ih | case4 _ _ _ _ _ _ ih => exact ih

/-- Nothing that has been visited becomes unvisited. -/
theorem unvisited_explore_le {σ ε : Type} (examine : Examine σ ε) (labels : Std.TreeMap Nat Nat)
    (work : List (Nat × σ)) (cells : Array Cell) (visits : Array (Visit σ ε)) :
    unvisited (explore examine labels work cells visits).1 ≤ unvisited cells := by
  fun_induction explore examine labels work cells visits with
  | case1 => exact Nat.le_refl _
  | case2 cells visits index state rest inside fresh observed next ih =>
    have used := unvisited_set inside fresh observed.action
    omega
  | case3 _ _ _ _ _ _ _ ih | case4 _ _ _ _ _ _ ih => exact ih

/-- To explore from an action that has not been visited is to visit it. -/
theorem unvisited_explore_lt {σ ε : Type} (examine : Examine σ ε) (labels : Std.TreeMap Nat Nat)
    {index : Nat} {cells : Array Cell} (inside : index < cells.size)
    (fresh : cells[index].visited = false) (state : σ) (rest : List (Nat × σ))
    (visits : Array (Visit σ ε)) :
    unvisited (explore examine labels ((index, state) :: rest) cells visits).1 < unvisited cells := by
  rw [explore, dif_pos inside, dif_pos fresh]
  have used := unvisited_set inside fresh (examine state cells[index].action).action
  exact Nat.lt_of_le_of_lt (unvisited_explore_le ..) (by omega)

/-- Explore anew, in the initial state, from each index that has not been visited, the least one
first. -/
def rescan {σ ε : Type} (examine : Examine σ ε) (labels : Std.TreeMap Nat Nat) (initial : σ)
    (scan : Nat) (cells : Array Cell) (visits : Array (Visit σ ε)) :
    Array Cell × Array (Visit σ ε) :=
  if inside : scan < cells.size then
    if _fresh : cells[scan].visited = false then
      let explored := explore examine labels [(scan, initial)] cells visits
      rescan examine labels initial scan explored.1 explored.2
    else rescan examine labels initial (scan + 1) cells visits
  else (cells, visits)
termination_by unvisited cells + (cells.size - scan)
decreasing_by
  · have := unvisited_explore_lt examine labels inside _fresh initial [] visits
    have := size_explore examine labels [(scan, initial)] cells visits
    omega
  · omega

/-- A traversal: the actions as they were left, and the visits in their order. -/
structure Traversal (σ ε : Type) where
  actions : List Action
  visits : List (Visit σ ε)

/-- Examine every action of a sequence once, along its control flow. -/
def traverse {σ ε : Type} (examine : Examine σ ε) (initial : σ) (actions : List Action) :
    Traversal σ ε :=
  let labels := labelIndices actions
  let cells := (actions.map fun action => Cell.mk action false).toArray
  let (cells, visits) := explore examine labels [(0, initial)] cells #[]
  let (cells, visits) := rescan examine labels initial 0 cells visits
  ⟨cells.toList.map Cell.action, visits.toList⟩

/-- The number of actions on the path that led to each visit, itself included. -/
def pathLength : Examine Nat Unit := fun length action => ⟨length + 1, action, []⟩

end ActionCode
