/-
**How much of the encoding a sequence takes.**

A sequence is written as records. **Consecutive single pushes share one record**, whose head is
written before the first of them, and markers are not written at all. An `Extent` says how far the
encoding has come: its bytes, its records, and whether the last record is a run of pushes that a
further push would join.

* `Action.width`, `Extent.through`: the bytes of an action on its own, and the extent after a
  sequence; each is defined by the other, since definitions hold sequences.
* `encodedLength`: the bytes of a sequence.
* `positions`: where the record of each action begins.
-/

import ActionCode.Action

namespace ActionCode

/-- How far the encoding of a sequence has come. -/
structure Extent where
  bytes : Nat
  /-- Records so far; markers are none. -/
  records : Nat
  /-- Whether a single push would join the last record. -/
  inRun : Bool
deriving DecidableEq

/-- The extent of nothing. -/
def Extent.start : Extent := ⟨0, 0, false⟩

/-- The extent after one more action, whose width on its own is given. -/
def Extent.add (before : Extent) (action : Action) (width : Nat) : Extent :=
  match action with
  | .plain (.push value) =>
    if before.inRun then { before with bytes := before.bytes + value.width }
    else ⟨before.bytes + (headWidth + value.width), before.records + 1, true⟩
  | .marker _ => { before with inRun := false }
  | _ => ⟨before.bytes + width, before.records + 1, false⟩

mutual

/-- The bytes of an action as a record of its own, with the code of a definition. -/
def Action.width : Action → Nat
  | .plain instruction => instruction.width
  | .define signature body =>
    headWidth + signature.bodyLength + (Extent.through Extent.start body).bytes
  | .marker _ => 0

/-- The extent after the actions of a sequence. -/
def Extent.through (before : Extent) : List Action → Extent
  | [] => before
  | action :: rest => Extent.through (before.add action action.width) rest

end

/-- The extent after one more action. -/
def Extent.advance (before : Extent) (action : Action) : Extent := before.add action action.width

theorem Extent.through_eq_foldl (before : Extent) (actions : List Action) :
    before.through actions = actions.foldl Extent.advance before := by
  induction actions generalizing before with
  | nil => rfl
  | cons action rest ih => rw [Extent.through, ih]; rfl

/-- The bytes of a sequence. -/
def encodedLength (actions : List Action) : Nat := (Extent.start.through actions).bytes

/-! ### Positions -/

/-- The positions after those in `done`; `runStart` is where the current run of pushes began. -/
def positionsFrom (extent : Extent) (runStart : Nat) (done : Array Nat) : List Action → Array Nat
  | [] => done
  | action :: rest =>
    let position := if extent.inRun && action.isPush then runStart else extent.bytes
    positionsFrom (extent.advance action) position (done.push position) rest

/-- Where the record of each action begins. **Pushes that share a record share its position.** -/
def positions (actions : List Action) : List Nat :=
  (positionsFrom Extent.start 0 #[] actions).toList

end ActionCode
