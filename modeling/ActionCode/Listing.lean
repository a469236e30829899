/-
**The text of a sequence, one action to a line.**

* `Line`: an action's text and its level.
* `linesOf`: the lines of a sequence and of all code in it, **a definition before its code**. Code
  is one level deeper than its definition, and what a block spans one deeper than the block. Labels
  stand at the level of their sequence, and closing markers at that of their block.
* `listing`: the lines with four spaces for each level.

Closing markers never lead out of their sequence, however many there are.
-/

import ActionCode.Action.Text

namespace ActionCode

/-- A line of a listing. -/
structure Line where
  level : Nat
  text : String

/-- The level of an action's line, and the level after it, in a sequence at level `base`. -/
def lineLevels (base level : Nat) : Action → Nat × Nat
  | .marker (.label _) => (base, level)
  | .marker .catchStart | .marker .finallyStart => (max (level - 1) base, level)
  | .marker .endWith | .marker .endWait | .marker .endTry =>
    (max (level - 1) base, max (level - 1) base)
  | .plain (.block _) => (level, level + 1)
  | _ => (level, level)

mutual

/-- The lines of the code of an action at a level, after those in `done`. -/
def Action.codeLines (level : Nat) (done : Array Line) : Action → Array Line
  | .define _ body => linesFrom (level + 1) (level + 1) done body
  | _ => done

/-- The lines of the actions of a sequence at level `base`, after those in `done`. -/
def linesFrom (base level : Nat) (done : Array Line) : List Action → Array Line
  | [] => done
  | action :: rest =>
    let (own, after) := lineLevels base level action
    linesFrom base after (action.codeLines own (done.push ⟨own, action.shown⟩)) rest

end

/-- The lines of a sequence. -/
def linesOf (actions : List Action) : List Line := (linesFrom 0 0 #[] actions).toList

/-- Spaces for each level. -/
def indentWidth : Nat := 4

/-- A line with its spaces and its end. -/
def Line.shown (line : Line) : String :=
  String.ofList (List.replicate (line.level * indentWidth) ' ') ++ line.text ++ "\n"

/-- The text of a sequence. -/
def listing (actions : List Action) : String :=
  (linesOf actions).foldl (fun text line => text ++ line.shown) ""

end ActionCode
