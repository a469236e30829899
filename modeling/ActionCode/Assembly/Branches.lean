/-
**Labels become branch offsets.**

* `labelPositions`: where the labels of a sequence are in its encoding. None may be placed twice.
* `resolveOwnBranches`: the offsets of a sequence. **An offset counts from the end of its branch to
  the record after the label**, and a branch without a label keeps its own.
* `resolveBranches`: at every level.
-/

import Std.Data.TreeMap.Basic
import ActionCode.Levels
import ActionCode.Extent
import ActionCode.Assembly.Fault

namespace ActionCode

/-- Place the label of an action, if it has one, at a position. -/
def placeLabel (placed : Std.TreeMap Nat Nat) (row : Action × Nat) :
    Except AssemblyFault (Std.TreeMap Nat Nat) :=
  match row.1.label? with
  | none => .ok placed
  | some label =>
    if placed.contains label.id then .error (.duplicateLabel label)
    else .ok (placed.insert label.id row.2)

/-- Where the labels of a sequence are, by their ids. -/
def labelPositions (rows : List (Action × Nat)) : Except AssemblyFault (Std.TreeMap Nat Nat) :=
  rows.foldlM placeLabel ∅

/-- Whether an offset fits in the 16 bits of a branch. -/
def Branch.reaches (offset : Int) : Bool := decide (-32768 ≤ offset) && decide (offset ≤ 32767)

/-- A branch at a position, with its offset. -/
def Branch.resolve (placed : Std.TreeMap Nat Nat) (position : Nat) (branch : Branch) :
    Except AssemblyFault Branch :=
  match branch.label with
  | none => .ok branch
  | some label =>
    match placed[label.id]? with
    | none => .error (.missingLabel label)
    | some target =>
      let offset := (target : Int) - (position + Branch.width : Nat)
      if Branch.reaches offset then .ok { branch with offset := Int16.ofInt offset }
      else .error (.branchOutOfRange label offset)

/-- An action at a position, with the offset of its branch, if it is one. -/
def resolveRow (placed : Std.TreeMap Nat Nat) (row : Action × Nat) : Except AssemblyFault Action :=
  match row.1.branch? with
  | none => .ok row.1
  | some branch =>
    match branch.resolve placed row.2 with
    | .error fault => .error fault
    | .ok resolved => .ok (.plain (.branch resolved))

/-- Resolve the branches of one sequence. -/
def resolveOwnBranches (actions : List Action) : Except AssemblyFault (List Action) := do
  let rows := actions.zip (positions actions)
  let placed ← labelPositions rows
  rows.mapM (resolveRow placed)

/-- Resolve the branches of a sequence and of all code in it. -/
def resolveBranches (actions : List Action) : Except AssemblyFault (List Action) :=
  tryLevels resolveOwnBranches actions

end ActionCode
