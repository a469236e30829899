/-
**What is listed takes no more bytes than what was read.**

* **`encodedLength_splitPushes_le`**: the single pushes of a record take no more room than the record,
  and less if they join pushes before them.
* `sum_width_listed`: labels and closings take no bytes, and bound branches as many as before.
* **`encodedLength_finished_le`**: a finished sequence takes no more bytes than its pieces do.
-/

import ActionCode.Proofs.RoundTrip.Coalescing
import ActionCode.Proofs.Sizes.Accounting

namespace ActionCode

namespace Extent

/-- An action adds no more than its width. -/
theorem bytes_advance_le (before : Extent) (action : Action) :
    (before.advance action).bytes ≤ before.bytes + action.width := by
  obtain ⟨value, rfl⟩ | other := action.push_or_other
  · obtain ⟨bytes, records, inRun⟩ := before
    rw [advance_push, width_push]
    cases inRun with
    | true =>
      show bytes + value.width ≤ bytes + (headWidth + value.width)
      omega
    | false => exact Nat.le_refl _
  · rw [advance_other other]

/-- Single pushes add no more than a head and their literals. -/
theorem bytes_through_pushes_le (before : Extent) (values : List PushValue) :
    (before.through (values.map fun value => .plain (.push value))).bytes ≤
      before.bytes + (headWidth + (values.map PushValue.width).sum) := by
  obtain ⟨bytes, records, inRun⟩ := before
  cases values with
  | nil =>
    rw [List.map_nil, through]
    exact Nat.le_add_right _ _
  | cons value rest =>
    rw [List.map_cons, List.map_cons, List.sum_cons, through_cons, advance_push]
    cases inRun with
    | true =>
      rw [if_pos rfl, through_run]
      show bytes + value.width + _ ≤ bytes + (headWidth + (value.width + _))
      omega
    | false =>
      rw [if_neg Bool.false_ne_true, through_run]
      show bytes + (headWidth + value.width) + _ ≤ bytes + (headWidth + (value.width + _))
      omega

/-- The single pushes of an action add no more than its width. -/
theorem bytes_through_splitPush_le (before : Extent) (action : Action) :
    (before.through action.splitPush).bytes ≤ before.bytes + action.width := by
  have alone : (before.through [action]).bytes ≤ before.bytes + action.width := by
    rw [through_cons, through]
    exact bytes_advance_le before action
  cases action with
  | plain instruction =>
    cases instruction with
    | pushList values =>
      cases values with
      | nil => exact alone
      | cons value rest =>
        rw [width_pushList]
        exact bytes_through_pushes_le before (value :: rest)
    | _ => exact alone
  | define signature body => exact alone
  | marker marker => exact alone

end Extent

/-- **Splitting pushes makes no sequence longer** than its actions are, each on its own. -/
theorem encodedLength_splitPushes_le (actions : List Action) :
    encodedLength (splitPushes actions) ≤ (actions.map Action.width).sum := by
  suffices general : ∀ before : Extent, (before.through (splitPushes actions)).bytes ≤
      before.bytes + (actions.map Action.width).sum from
    (general Extent.start).trans_eq (Nat.zero_add _)
  induction actions with
  | nil =>
    intro before
    rw [splitPushes, List.flatMap_nil, Extent.through]
    exact Nat.le_add_right _ _
  | cons action rest ih =>
    intro before
    have first := before.bytes_through_splitPush_le action
    have later := ih (before.through action.splitPush)
    rw [splitPushes, List.flatMap_cons, Extent.through_append, List.map_cons, List.sum_cons]
    exact later.trans (by omega)

/-- The bytes of a real action. -/
def Action.realWidth? (action : Action) : Option Nat :=
  if action.isMarker then none else some action.width

theorem Action.realWidth?_bindTo (action : Action) (labels : Nat → Option Label)
    (position : Nat) : (action.bindTo labels position).realWidth? = action.realWidth? := by
  obtain same | ⟨branch, rfl, same⟩ := bindTo_cases labels position action
  · rw [same]
  · rw [same]
    rfl

section Finished

variable {pieces : List Piece}

/-- The actions of a listing have the bytes of those of its pieces. -/
theorem sum_width_listed (real : AllReal pieces) (fit : AllFit pieces) (nextLabel : Nat) :
    ((listed nextLabel pieces).map fun piece => piece.action.width).sum =
      (pieces.map fun piece => piece.action.width).sum := by
  have same : ∀ piece : Piece, piece.action.width = piece.action.realWidth?.getD 0 := by
    intro piece
    rw [Action.realWidth?]
    cases piece.action with
    | marker found => rw [Action.width]; rfl
    | _ => rfl
  have seen := filterMap_listed real fit nextLabel (fun _ => rfl) Action.realWidth?_bindTo
  calc ((listed nextLabel pieces).map fun piece => piece.action.width).sum
      = ((listed nextLabel pieces).filterMap fun piece => piece.action.realWidth?).sum :=
        sum_map_eq_filterMap same _
    _ = (pieces.filterMap fun piece => piece.action.realWidth?).sum := congrArg List.sum seen
    _ = (pieces.map fun piece => piece.action.width).sum := (sum_map_eq_filterMap same _).symm

/-- **A finished sequence takes no more bytes than its pieces.** -/
theorem encodedLength_finished_le (real : AllReal pieces) (fit : AllFit pieces) (nextLabel : Nat) :
    encodedLength (finished nextLabel pieces) ≤
      (pieces.map fun piece => piece.action.width).sum := by
  rw [← sum_width_listed real fit nextLabel]
  have split := encodedLength_splitPushes_le ((listed nextLabel pieces).map Piece.action)
  rwa [List.map_map] at split

end Finished

end ActionCode
