/-
**The nesting of sequences.**

A sequence holds definitions, and a definition holds a sequence. `nesting` is the number of
definitions around the innermost action. `mapLevels` and `tryLevels` apply a pass to every sequence,
**the code of a definition before the sequence around it**, and in the order of the definitions.
-/

import ActionCode.Action

namespace ActionCode

/-! ### Depth -/

mutual

/-- How many definitions an action is and holds, one inside the other. -/
def Action.nesting : Action → Nat
  | .define _ body => nestingFrom 0 body + 1
  | _ => 0

/-- The greatest nesting of the actions of a sequence, but at least `deepest`. -/
def nestingFrom (deepest : Nat) : List Action → Nat
  | [] => deepest
  | action :: rest => nestingFrom (max deepest action.nesting) rest

end

/-- How many definitions enclose the innermost action of a sequence. -/
def nesting (actions : List Action) : Nat := nestingFrom 0 actions

/-! ### A pass over every level -/

mutual

/-- An action with a pass applied to all code inside. -/
def Action.mapInside (pass : List Action → List Action) : Action → Action
  | .define signature body => .define signature (pass (mapInsideFrom pass #[] body).toList)
  | .plain instruction => .plain instruction
  | .marker marker => .marker marker

/-- The actions of a sequence with a pass applied to all code inside, after those in `done`. -/
def mapInsideFrom (pass : List Action → List Action) (done : Array Action) :
    List Action → Array Action
  | [] => done
  | action :: rest => mapInsideFrom pass (done.push (action.mapInside pass)) rest

end

/-- Apply a pass to every level of a sequence. -/
def mapLevels (pass : List Action → List Action) (actions : List Action) : List Action :=
  pass (mapInsideFrom pass #[] actions).toList

mutual

/-- An action with a pass that may fail applied to all code inside. -/
def Action.tryInside {ε : Type} (pass : List Action → Except ε (List Action)) :
    Action → Except ε Action
  | .define signature body =>
    match tryInsideFrom pass #[] body with
    | .error fault => .error fault
    | .ok inner =>
      match pass inner.toList with
      | .error fault => .error fault
      | .ok body => .ok (.define signature body)
  | .plain instruction => .ok (.plain instruction)
  | .marker marker => .ok (.marker marker)

/-- The actions of a sequence with a pass that may fail applied to all code inside, after those in
`done`. -/
def tryInsideFrom {ε : Type} (pass : List Action → Except ε (List Action)) (done : Array Action) :
    List Action → Except ε (Array Action)
  | [] => .ok done
  | action :: rest =>
    match action.tryInside pass with
    | .error fault => .error fault
    | .ok action => tryInsideFrom pass (done.push action) rest

end

/-- Apply a pass that may fail to every level of a sequence. -/
def tryLevels {ε : Type} (pass : List Action → Except ε (List Action)) (actions : List Action) :
    Except ε (List Action) :=
  match tryInsideFrom pass #[] actions with
  | .error fault => .error fault
  | .ok inner => pass inner.toList

end ActionCode
