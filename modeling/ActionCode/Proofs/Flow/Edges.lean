/-
**The control flow of a sequence, told without a table.**

* `Edge`: control goes on to the next action, or to where the label of a branch is placed **last**.
* **`mem_successors_iff`**: what a traversal goes to are the ends of these edges.
* `KeepsFlow`: an examination that alters neither branches nor the actions that end a path. Labels may
  be altered: where they are is found before anything is examined.
-/

import ActionCode.Flow.Traversal
import Mathlib.Data.List.Induction

namespace ActionCode

/-! ### Edges -/

/-- The label that is placed at an index. -/
def placed? (actions : List Action) (index : Nat) : Option Label := actions[index]?.bind Action.label?

/-- A label is placed at an index, and not again after it. -/
def PlacedAt (actions : List Action) (label : Label) (index : Nat) : Prop :=
  placed? actions index = some label ∧ ∀ later > index, placed? actions later ≠ some label

/-- The actions that end a path. -/
def Action.stops : Action → Bool
  | .plain (.basic .returnValue) | .plain (.basic .throwValue) | .plain (.basic .endActions) => true
  | _ => false

/-- Control can go from an action to the next one. -/
def Action.fallsThrough (action : Action) : Bool :=
  match action.branch? with
  | some branch => branch.conditional
  | none => !action.stops

/-- **Control can go from one index to another**, which may be the end of the sequence. -/
inductive Edge (actions : List Action) : Nat → Nat → Prop where
  | falls {index : Nat} {action : Action} (here : actions[index]? = some action)
      (on : action.fallsThrough = true) : Edge actions index (index + 1)
  | taken {index target : Nat} {action : Action} {branch : Branch} {label : Label}
      (here : actions[index]? = some action) (branches : action.branch? = some branch)
      (labelled : branch.label = some label) (placed : PlacedAt actions label target) :
      Edge actions index target

theorem Edge.lt_length {actions : List Action} {index target : Nat}
    (edge : Edge actions index target) : index < actions.length := by
  cases edge with
  | falls here => exact (List.getElem?_eq_some_iff.mp here).1
  | taken here => exact (List.getElem?_eq_some_iff.mp here).1

/-! ### Labels -/

theorem placed?_concat (actions : List Action) (last : Action) (index : Nat) :
    placed? (actions ++ [last]) index =
      if index = actions.length then last.label? else placed? actions index := by
  unfold placed?
  split
  · next equal => rw [equal, List.getElem?_concat_length, Option.bind_some]
  · next apart =>
    rcases Nat.lt_or_gt_of_ne apart with before | after
    · rw [List.getElem?_append_left before]
    · rw [List.getElem?_eq_none (by simp; omega), List.getElem?_eq_none (by omega)]

theorem placed?_of_length_le {actions : List Action} {index : Nat} (after : actions.length ≤ index) :
    placed? actions index = none := by
  rw [placed?, List.getElem?_eq_none after, Option.bind_none]

theorem placedAt_concat_of_same {actions : List Action} {last : Action} {label : Label}
    (places : last.label? = some label) (index : Nat) :
    PlacedAt (actions ++ [last]) label index ↔ index = actions.length := by
  constructor
  · rintro ⟨here, unplaced⟩
    by_contra apart
    rw [placed?_concat, if_neg apart] at here
    rcases Nat.lt_or_gt_of_ne apart with before | after
    · exact unplaced actions.length before (by rw [placed?_concat, if_pos rfl, places])
    · rw [placed?_of_length_le (Nat.le_of_lt after)] at here
      cases here
  · rintro rfl
    refine ⟨by rw [placed?_concat, if_pos rfl, places], fun later after => ?_⟩
    rw [placed?_of_length_le (by rw [List.length_append]; exact after)]
    exact nofun

theorem placedAt_concat_of_other {actions : List Action} {last : Action} {label : Label}
    (other : last.label? ≠ some label) (index : Nat) :
    PlacedAt (actions ++ [last]) label index ↔ PlacedAt actions label index := by
  have same : ∀ place, placed? (actions ++ [last]) place = some label ↔
      placed? actions place = some label := by
    intro place
    rw [placed?_concat]
    split
    · next equal =>
      rw [equal, placed?_of_length_le (Nat.le_refl _)]
      exact ⟨fun places => absurd places other, nofun⟩
    · exact Iff.rfl
  unfold PlacedAt
  simp only [ne_eq, same]

/-- The table and the next index, once the label of an action is entered. -/
def enterLabel : Std.TreeMap Nat Nat × Nat → Action → Std.TreeMap Nat Nat × Nat :=
  fun (labels, index) action =>
    match action.label? with
    | some label => (labels.insert label.id index, index + 1)
    | none => (labels, index + 1)

theorem foldl_enterLabel_snd (actions : List Action) (labels : Std.TreeMap Nat Nat) (index : Nat) :
    (actions.foldl enterLabel (labels, index)).2 = index + actions.length := by
  induction actions generalizing labels index with
  | nil => rfl
  | cons action rest ih =>
    rw [List.foldl_cons, List.length_cons, enterLabel]
    cases action.label? <;> rw [ih] <;> omega

theorem labelIndices_concat (actions : List Action) (last : Action) :
    labelIndices (actions ++ [last]) =
      match last.label? with
      | some label => (labelIndices actions).insert label.id actions.length
      | none => labelIndices actions := by
  show (List.foldl enterLabel (∅, 0) (actions ++ [last])).1 = _
  have index := foldl_enterLabel_snd actions ∅ 0
  rw [Nat.zero_add] at index
  rw [List.foldl_append, ← index]
  show (enterLabel (List.foldl enterLabel (∅, 0) actions) last).1 = _
  rw [enterLabel]
  cases last.label? <;> rfl

/-- **The table knows the last place of every label.** -/
theorem labelIndices_eq_some_iff (actions : List Action) (label : Label) (index : Nat) :
    (labelIndices actions)[label.id]? = some index ↔ PlacedAt actions label index := by
  -- From the end on: the last action hides the earlier places of its own label, and no other.
  induction actions using List.reverseRecOn with
  | nil => simp [labelIndices, PlacedAt, placed?]
  | append_singleton actions last ih =>
    rw [labelIndices_concat]
    cases places : last.label? with
    | none =>
      rw [placedAt_concat_of_other (by rw [places]; exact nofun)]
      exact ih
    | some other =>
      dsimp only
      rw [Std.TreeMap.getElem?_insert]
      by_cases same : other = label
      · subst same
        rw [placedAt_concat_of_same places]
        simp [eq_comm]
      · have apart : other.id ≠ label.id := fun equal => same (congrArg Label.mk equal)
        rw [placedAt_concat_of_other (by rw [places]; simpa using same)]
        simpa [apart] using ih

/-! ### Successors -/

theorem successors_eq (labels : Std.TreeMap Nat Nat) (index : Nat) (action : Action) :
    successors labels index action =
      (if action.fallsThrough then [index + 1] else []) ++
        ((action.branch?.bind Branch.label).bind fun label => labels[label.id]?).toList := by
  cases action with
  | plain instruction =>
    cases instruction with
    | branch branch =>
      obtain ⟨conditional, offset, label⟩ := branch
      simp only [successors, Action.fallsThrough, Action.branch?, Option.bind_some]
      cases label.bind fun label => labels[label.id]? <;> cases conditional <;> rfl
    | basic op => cases op <;> rfl
    | _ => rfl
  | _ => rfl

/-- **A traversal goes on along the edges.** -/
theorem mem_successors_iff {actions : List Action} {index : Nat} {action : Action}
    (here : actions[index]? = some action) (target : Nat) :
    target ∈ successors (labelIndices actions) index action ↔ Edge actions index target := by
  rw [successors_eq, List.mem_append, Option.mem_toList]
  constructor
  · rintro (next | jump)
    · cases on : action.fallsThrough with
      | false => rw [on] at next; cases next
      | true =>
        rw [on] at next
        obtain rfl := List.mem_singleton.mp next
        exact .falls here on
    · obtain ⟨label, labelled, found⟩ := Option.bind_eq_some_iff.mp jump
      obtain ⟨branch, branches, isLabel⟩ := Option.bind_eq_some_iff.mp labelled
      exact .taken here branches isLabel ((labelIndices_eq_some_iff ..).mp found)
  · intro edge
    cases edge with
    | falls here' on =>
      obtain rfl := Option.some.inj (here.symm.trans here')
      exact .inl (by rw [on]; exact List.mem_singleton_self _)
    | @taken _ _ branch label here' branches labelled placed =>
      obtain rfl := Option.some.inj (here.symm.trans here')
      refine .inr (Option.bind_eq_some_iff.mpr ⟨label, ?_, (labelIndices_eq_some_iff ..).mpr placed⟩)
      rw [branches, Option.bind_some, labelled]

/-! ### Examinations that keep control flow -/

/-- An examination that alters no branch, and none of the actions that end a path. -/
structure KeepsFlow {σ ε : Type} (examine : Examine σ ε) : Prop where
  branch : ∀ state action, (examine state action).action.branch? = action.branch?
  stops : ∀ state action, (examine state action).action.stops = action.stops

theorem KeepsFlow.successors {σ ε : Type} {examine : Examine σ ε} (keeps : KeepsFlow examine)
    (labels : Std.TreeMap Nat Nat) (index : Nat) (state : σ) (action : Action) :
    ActionCode.successors labels index (examine state action).action =
      ActionCode.successors labels index action := by
  rw [successors_eq, successors_eq, Action.fallsThrough, Action.fallsThrough, keeps.branch,
    keeps.stops]

end ActionCode
