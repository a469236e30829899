/-
**The room of merged records.**

* `Action.alone`: an action with the room it takes as a record of its own.
  **`Extent.pieces_start`**: this is the room it has in a spaced sequence.
* `width_of_pushed`, `width_pushOf_append`: the width of a record of pushes, and the head that two
  of them save.
-/

import ActionCode.Proofs.Blocks.Scan
import ActionCode.Proofs.Blocks.Spans
import ActionCode.Proofs.Merging.Runs

namespace ActionCode

/-! ### Records of their own -/

/-- An action with the room it takes as a record of its own. -/
def Action.alone (action : Action) : Piece := ⟨action, action.width, action.recordCount⟩

theorem map_action_alone (actions : List Action) :
    (actions.map Action.alone).map Piece.action = actions := by
  rw [List.map_map]
  exact List.map_id actions

theorem Extent.piece_other {action : Action} (other : action.isPush = false) (before : Extent) :
    before.piece action = action.alone := by
  rw [Extent.piece, Extent.advance_other other, Nat.add_sub_cancel_left, Nat.add_sub_cancel_left]
  rfl

/-- **In a spaced sequence every action is a record of its own.** -/
theorem Extent.pieces_of_spaced {actions : List Action} (spaced : Spaced actions) {before : Extent}
    (apart : ∀ action ∈ actions.head?, before.inRun = true → action.isPush = false) :
    before.pieces actions = actions.map Action.alone := by
  induction actions generalizing before with
  | nil => rfl
  | cons action rest ih =>
    have here := apart action rfl
    rw [Extent.pieces, List.map_cons]
    rcases action.push_or_other with ⟨value, rfl⟩ | other
    · have out : before.inRun = false := by
        cases inRun : before.inRun with
        | true => cases here inRun
        | false => rfl
      have after : before.advance (.plain (.push value)) =
          ⟨before.bytes + (ActionCode.headWidth + value.width), before.records + 1, true⟩ := by
        rw [Extent.advance_push, out, if_neg Bool.false_ne_true]
      have later : ∀ next ∈ rest.head?,
          (before.advance (.plain (.push value))).inRun = true → next.isPush = false := by
        intro next first _
        rcases rest with _ | ⟨other, rest⟩
        · cases first
        · cases first
          exact spaced.other rfl
      rw [ih spaced.tail later, Extent.piece, after]
      dsimp only
      rw [Nat.add_sub_cancel_left, Nat.add_sub_cancel_left]
      rfl
    · have later : ∀ next ∈ rest.head?, (before.advance action).inRun = true →
          next.isPush = false := by
        intro next _ inRun
        rw [Extent.advance_other other] at inRun
        cases inRun
      rw [ih spaced.tail later, Extent.piece_other other]

theorem Extent.pieces_start {actions : List Action} (spaced : Spaced actions) :
    Extent.start.pieces actions = actions.map Action.alone :=
  Extent.pieces_of_spaced spaced fun _ _ inRun => by cases inRun

theorem Action.width_pos {action : Action} (real : action.isMarker = false) : 0 < action.width := by
  cases action with
  | plain instruction =>
    rw [Action.width]
    exact instruction.width_pos
  | define signature body =>
    rw [Action.width, ActionCode.headWidth]
    omega
  | marker marker => cases real

theorem Action.solid_alone (action : Action) : action.alone.Solid := by
  cases real : action.isMarker with
  | false =>
    refine .inr ⟨real, action.width_pos real, ?_⟩
    show action.recordCount = 1
    rw [Action.recordCount, real]
    rfl
  | true =>
    cases action with
    | marker marker =>
      refine .inl ⟨marker, ?_⟩
      rw [Action.alone, Action.width]
      rfl
    | _ => cases real

theorem solid_map_alone (actions : List Action) : AllSolid (actions.map Action.alone) := by
  intro piece inside
  obtain ⟨action, _, rfl⟩ := List.mem_map.mp inside
  exact action.solid_alone

theorem Action.flat_of_pushed {action : Action} (some : action.pushed ≠ []) : action.Flat := by
  obtain ⟨_, rfl⟩ | ⟨_, _, rfl⟩ := action.eq_of_pushed some <;> exact ⟨rfl, rfl⟩

/-! ### Widths of pushes -/

theorem width_push (value : PushValue) :
    (Action.plain (.push value)).width = headWidth + value.width := by
  rw [Action.width]
  exact if_neg (of_decide_eq_false rfl)

theorem width_pushList (values : List PushValue) :
    (Action.plain (.pushList values)).width =
      headWidth + (values.map PushValue.width).sum := by
  rw [Action.width, ← totalOf_eq_sum]
  exact if_neg (of_decide_eq_false rfl)

/-- The width of the record of some literals. -/
theorem width_of_pushed {action : Action} (some : action.pushed ≠ []) :
    action.width = headWidth + (action.pushed.map PushValue.width).sum := by
  obtain ⟨value, rfl⟩ | ⟨values, _, rfl⟩ := action.eq_of_pushed some
  · rw [width_push, Action.pushed, List.map_singleton, List.sum_singleton]
  · exact width_pushList values

theorem width_pushOf {values : List PushValue} (some : values ≠ []) :
    (pushOf values).width = headWidth + (values.map PushValue.width).sum := by
  have pushes : (pushOf values).pushed ≠ [] := by rwa [pushed_pushOf]
  rw [width_of_pushed pushes, pushed_pushOf]

/-- The record of two runs saves a head. -/
theorem width_pushOf_append {front back : List PushValue} (some : front ≠ []) (some' : back ≠ []) :
    (pushOf (front ++ back)).width + headWidth = (pushOf front).width + (pushOf back).width := by
  have both : front ++ back ≠ [] := fun equal => some (List.append_eq_nil_iff.mp equal).1
  rw [width_pushOf both, width_pushOf some, width_pushOf some', List.map_append,
    List.sum_append]
  omega

/-- Literals take some bytes after the head. -/
theorem headWidth_lt_width {action : Action} (some : action.pushed ≠ []) :
    headWidth < action.width := by
  rw [width_of_pushed some]
  obtain ⟨value, rest, equal⟩ := List.exists_cons_of_ne_nil some
  have positive := value.width_pos
  rw [equal, List.map_cons, List.sum_cons]
  omega

theorem recordCount_of_pushed {action : Action} (some : action.pushed ≠ []) :
    action.recordCount = 1 := by
  obtain ⟨_, rfl⟩ | ⟨_, _, rfl⟩ := action.eq_of_pushed some <;> rfl

end ActionCode
