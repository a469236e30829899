/-
**Finding the counts of counted actions.**

* `examine`: follow the stack along the control flow of a sequence. **The code of a definition is
  examined on its own**, whatever surrounds it, and its reports come where the definition is
  visited.
* `examineInOrder`: follow the stack from action to action, without regard to control flow.
-/

import ActionCode.Stack.Simulation

namespace ActionCode

/-- A sequence with its counts, and the stacks that were given up on the way. -/
structure Examined where
  actions : List Action
  clearings : List Clearing

/-- Follow the stack through a sequence whose definitions have been examined; each comes with the
reports from its code. -/
def examineAround (seedSlots : Nat) (rows : Array (Action × List Clearing)) : Examined :=
  let traversal := traverse simulate (Slots.unknowns seedSlots) (rows.toList.map Prod.fst)
  { actions := traversal.actions
    clearings := traversal.visits.flatMap fun visit =>
      (match rows[visit.index]? with
        | some (_, inner) => inner
        | none => []) ++ visit.observed.notes }

mutual

/-- An action whose code, if it has some, has been examined, and the reports from there. -/
def examineCode (seedSlots : Nat) : Action → Action × List Clearing
  | .define signature body =>
    let examined := examineAround seedSlots (examineCodeOf seedSlots #[] body)
    (.define signature examined.actions, examined.clearings)
  | .plain instruction => (.plain instruction, [])
  | .marker marker => (.marker marker, [])

/-- The actions of a sequence, each examined inside, after those in `done`. -/
def examineCodeOf (seedSlots : Nat) (done : Array (Action × List Clearing)) :
    List Action → Array (Action × List Clearing)
  | [] => done
  | action :: rest => examineCodeOf seedSlots (done.push (examineCode seedSlots action)) rest

end

/-- Find the counts of a sequence and of all code in it. Every sequence begins with `seedSlots`
unknown operands. -/
def examine (actions : List Action) (seedSlots : Nat) : Examined :=
  examineAround seedSlots (examineCodeOf seedSlots #[] actions)

/-- One action in order: as it was left, the stack after it, and the stacks given up. -/
structure OrderedStep where
  action : Action
  slots : Slots
  clearings : List Clearing

/-- Follow the stack through the actions after those in `done`. -/
def examineInOrderFrom (seedSlots : Nat) (slots : Slots) (done : Array OrderedStep) :
    List Action → Array OrderedStep
  | [] => done
  | action :: rest =>
    let (action, inner) := examineCode seedSlots action
    let observed := simulate slots action
    let step := ⟨observed.action, observed.state, inner ++ observed.notes⟩
    examineInOrderFrom seedSlots observed.state (done.push step) rest

/-- Follow the stack from action to action. -/
def examineInOrder (actions : List Action) (seedSlots : Nat) : List OrderedStep :=
  (examineInOrderFrom seedSlots (Slots.unknowns seedSlots) #[] actions).toList

end ActionCode
