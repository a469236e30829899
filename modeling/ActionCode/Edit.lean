/-
**Changes to a program.**

* A sequence of a program is named by a `path`: the indices of the definitions that lead to it, the
  outermost first.
* `Edit`: a change of one sequence; `Edit.place` says what must be at its index.
* `checkPlace`: whether the place of a change is there. **The path is tested before the index**, and
  the index before what is there.
* `Edit.apply`: the program after a change.
-/

import ActionCode.Action

namespace ActionCode

/-- Why a change has no place. -/
inductive EditFault where
  /-- The path does not lead to the code of a definition. -/
  | noFunction
  /-- The sequence is not that long. -/
  | noIndex
  /-- The action is no branch. -/
  | noBranch
deriving DecidableEq

/-- What must be at an index: room for an action, an action, or a branch. -/
inductive Place where
  | gap | action | branch
deriving DecidableEq

/-- The sequence that a path leads to. -/
def sequenceAt? (actions : List Action) : List Nat → Option (List Action)
  | [] => some actions
  | index :: path =>
    match actions[index]? with
    | some (.define _ body) => sequenceAt? body path
    | _ => none

/-- The program after a change of the sequence that a path leads to. -/
def updateAt (change : List Action → List Action) (actions : List Action) :
    List Nat → List Action
  | [] => change actions
  | index :: path =>
    match actions[index]? with
    | some (.define signature body) =>
      actions.set index (.define signature (updateAt change body path))
    | _ => actions

/-- The sequence that a path leads to, if what is at its index is as a place asks. -/
def checkPlace (actions : List Action) (path : List Nat) (index : Nat) (place : Place) :
    Except EditFault (List Action) :=
  match sequenceAt? actions path with
  | none => .error .noFunction
  | some sequence =>
    match place, sequence[index]? with
    | .gap, _ => if index ≤ sequence.length then .ok sequence else .error .noIndex
    | _, none => .error .noIndex
    | .action, some _ => .ok sequence
    | .branch, some action => if action.branch?.isSome then .ok sequence else .error .noBranch

/-- A change of one sequence. -/
inductive Edit where
  | insert (index : Nat) (action : Action)
  | replace (index : Nat) (action : Action)
  /-- Take an action out and put it where `target` then is, or at the end. -/
  | move (index target : Nat)
  | remove (index : Nat)
  | setLabel (index : Nat) (label : Label)
  | setOffset (index : Nat) (offset : Int16)

namespace Edit

/-- The index that a change is about. -/
def index : Edit → Nat
  | .insert index _ | .replace index _ | .move index _ | .remove index | .setLabel index _
  | .setOffset index _ => index

/-- What must be there. -/
def place : Edit → Place
  | .insert _ _ => .gap
  | .replace _ _ | .move _ _ | .remove _ => .action
  | .setLabel _ _ | .setOffset _ _ => .branch

/-- An action with its branch changed, if it is one. -/
def onBranch (change : Branch → Branch) : Action → Action
  | .plain (.branch branch) => .plain (.branch (change branch))
  | action => action

/-- The sequence after a change that has its place. -/
def change (edit : Edit) (sequence : List Action) : List Action :=
  match edit with
  | .insert index action => sequence.insertIdx index action
  | .replace index action => sequence.set index action
  | .move index target =>
    match sequence[index]? with
    | some action =>
      let others := sequence.eraseIdx index
      others.insertIdx (min target others.length) action
    | none => sequence
  | .remove index => sequence.eraseIdx index
  | .setLabel index label =>
    sequence.modify index (onBranch fun branch => { branch with label := some label })
  | .setOffset index offset =>
    sequence.modify index (onBranch fun branch => { branch with offset := offset })

/-- The program after a change of the sequence that a path leads to. -/
def apply (edit : Edit) (path : List Nat) (actions : List Action) :
    Except EditFault (List Action) :=
  match checkPlace actions path edit.index edit.place with
  | .error fault => .error fault
  | .ok _ => .ok (updateAt edit.change actions path)

end Edit

end ActionCode
