/-
**Casts that keep widths.**

* `Keeps`: a cast of instructions that keeps their widths, and single pushes.
* **`Extent.pieces_recastShell`**, **`Extent.pieces_recastAll`**: pieces take the same room after such
  a cast, of one level or of all.
-/

import ActionCode.Proofs.Levels.Passes
import ActionCode.Proofs.Blocks.Scan
import ActionCode.Proofs.Bytes.Sequences

namespace ActionCode

/-- A cast of instructions keeps their widths, and single pushes. -/
structure Keeps (cast : Instruction → Instruction) : Prop where
  width : ∀ instruction, (cast instruction).width = instruction.width
  push : ∀ value, cast (.push value) = .push value
  other : ∀ instruction, (Action.plain instruction).isPush = false →
    (Action.plain (cast instruction)).isPush = false

/-- A piece with another action. -/
def Piece.withAction (change : Action → Action) (piece : Piece) : Piece :=
  { piece with action := change piece.action }

/-- A piece with another instruction in its place. -/
def Piece.recastShell (cast : Instruction → Instruction) (piece : Piece) : Piece :=
  { piece with action := piece.action.recastShell cast }

/-- A piece with another instruction in place of each. -/
def Piece.recast (cast : Instruction → Instruction) (piece : Piece) : Piece :=
  { piece with action := piece.action.recast cast }

variable {cast : Instruction → Instruction}

theorem Keeps.advance_recastShell (keeps : Keeps cast) (before : Extent) (action : Action) :
    before.advance (action.recastShell cast) = before.advance action := by
  cases action with
  | plain instruction =>
    rcases (Action.plain instruction).push_or_other with ⟨value, equal⟩ | other
    · cases equal
      show before.advance (.plain (cast (.push value))) = _
      rw [keeps.push]
    · have other' := keeps.other instruction other
      rw [Action.recastShell, Extent.advance_other other, Extent.advance_other other',
        Action.width, Action.width, keeps.width]
      rfl
  | define signature body => rfl
  | marker marker => rfl

theorem Extent.pieces_recastShell (keeps : Keeps cast) (before : Extent) (actions : List Action) :
    before.pieces (actions.map (Action.recastShell cast)) =
      (before.pieces actions).map (Piece.recastShell cast) := by
  induction actions generalizing before with
  | nil => rfl
  | cons action rest ih =>
    rw [List.map_cons, Extent.pieces, Extent.pieces, List.map_cons,
      keeps.advance_recastShell, ih, Extent.piece, keeps.advance_recastShell]
    rfl

mutual

theorem Keeps.advance_recast (keeps : Keeps cast) :
    ∀ (before : Extent) (action : Action),
      before.advance (action.recast cast) = before.advance action
  | before, .plain instruction => by
    rw [Action.recast]
    exact keeps.advance_recastShell before (.plain instruction)
  | before, .define signature body => by
    have inner := keeps.through_recastAll Extent.start body
    rw [Action.recast, Extent.advance_other rfl, Extent.advance_other rfl, Action.width,
      Action.width, inner]
    rfl
  | before, .marker marker => by
    rw [Action.recast]

theorem Keeps.through_recastAll (keeps : Keeps cast) :
    ∀ (before : Extent) (actions : List Action),
      before.through (recastAll cast actions) = before.through actions
  | before, [] => by
    rw [recastAll]
  | before, action :: rest => by
    rw [recastAll, Extent.through, Extent.through]
    change (before.advance (action.recast cast)).through _ = (before.advance action).through _
    rw [keeps.advance_recast before action, keeps.through_recastAll _ rest]

end

theorem Extent.pieces_recastAll (keeps : Keeps cast) (before : Extent) (actions : List Action) :
    before.pieces (recastAll cast actions) = (before.pieces actions).map (Piece.recast cast) := by
  induction actions generalizing before with
  | nil => rw [recastAll]; rfl
  | cons action rest ih =>
    rw [recastAll, Extent.pieces, Extent.pieces, List.map_cons, keeps.advance_recast, ih,
      Extent.piece, keeps.advance_recast]
    rfl

/-- Such casts keep the bytes of a sequence. -/
theorem Keeps.encodedLength (keeps : Keeps cast) (actions : List Action) :
    ActionCode.encodedLength (recastAll cast actions) = ActionCode.encodedLength actions := by
  rw [ActionCode.encodedLength, keeps.through_recastAll]
  rfl

end ActionCode
