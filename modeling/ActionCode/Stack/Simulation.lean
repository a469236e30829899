/-
**A stack of which the pushed literals are known.**

* `Slot`: an operand that is unknown, or a literal. Registers and constants push unknown operands.
* `simulate`: the stack after an action, and the count of a counted action. **Where an action cannot
  be followed, the whole stack is given up**, and a `Clearing` says why.

The stack is a list, top first. It may be shorter than the real one: below it nothing is known.
-/

import ActionCode.Event
import ActionCode.Flow.Traversal

namespace ActionCode

/-! ### Slots -/

/-- A simulated operand. -/
inductive Slot where
  | unknown
  | literal (value : PushValue)
deriving DecidableEq

/-- The operand that a literal pushes. -/
def Slot.ofPush (value : PushValue) : Slot :=
  match value with
  | .register _ | .constant8 _ | .constant16 _ => .unknown
  | _ => .literal value

/-- The operand count that an operand stands for, if that is known. -/
def Slot.count? : Slot → Option Nat
  | .unknown => none
  | .literal value => value.count?

/-- A simulated stack, top first. -/
abbrev Slots := List Slot

/-- A number of unknown operands. -/
def Slots.unknowns (count : Nat) : Slots := List.replicate count .unknown

/-- The list without its first `count` elements, if it has so many. -/
def dropExactly? {α : Type} : Nat → List α → Option (List α)
  | 0, rest => some rest
  | _ + 1, [] => none
  | count + 1, _ :: rest => dropExactly? count rest

/-! ### Actions -/

/-- The stack and the count after a counted action. -/
def popCounted (op : CountedOp) (slots : Slots) : Except Clearing (Nat × Slots) :=
  let failure (reason : ClearingReason) (left : Slots) : Except Clearing (Nat × Slots) :=
    .error ⟨reason, op.name, left.length⟩
  match dropExactly? op.fixedOperands slots with
  | none => failure .underflow slots
  | some [] => failure .underflow []
  | some (top :: below) =>
    match top.count? with
    | none => failure .countNotLiteral below
    | some count =>
      match dropExactly? (count * op.operandsPerItem) below with
      | none => failure .underflow below
      | some left => .ok (count, Slots.unknowns op.results ++ left)

/-- The stack after an opcode, by its fixed effect. **Results are pushed even on an underflow.** -/
def applyFixed (op : Opcode) (slots : Slots) : Slots × List Clearing :=
  match op.stackEffect with
  | none => ([], [⟨.noFixedEffect, op.name, slots.length⟩])
  | some (pops, pushes) =>
    match dropExactly? pops slots with
    | some left => (Slots.unknowns pushes ++ left, [])
    | none => (Slots.unknowns pushes, [⟨.underflow, op.name, slots.length⟩])

/-- The stack after an instruction that is not counted. -/
def simulateInstruction (instruction : Instruction) (slots : Slots) : Slots × List Clearing :=
  match instruction with
  | .push value => (Slot.ofPush value :: slots, [])
  | .pushList values => (values.foldl (fun slots value => Slot.ofPush value :: slots) slots, [])
  | .basic .stackSwap =>
    match slots with
    | top :: second :: below => (second :: top :: below, [])
    | _ => ([], [⟨.underflow, Opcode.stackSwap.name, slots.length⟩])
  | .basic .pushDuplicate =>
    match slots with
    | top :: below => (top :: top :: below, [])
    | [] => (Slots.unknowns 1, [⟨.underflow, Opcode.pushDuplicate.name, 0⟩])
  | _ =>
    match instruction.opcode with
    | .ok op => applyFixed op slots
    | .error _ => ([], [⟨.unknownOpcode, "Unknown", slots.length⟩])

/-- Follow an action. A counted action is given its count, or none if that cannot be told. -/
def simulate : Examine Slots Clearing := fun slots action =>
  match action with
  | .marker _ => ⟨slots, action, []⟩
  | .define _ _ => ⟨.unknown :: slots, action, []⟩
  | .plain (.counted op _) =>
    match popCounted op slots with
    | .ok (count, left) => ⟨left, .plain (.counted op (some count)), []⟩
    | .error clearing => ⟨[], .plain (.counted op none), [clearing]⟩
  | .plain instruction =>
    let (left, clearings) := simulateInstruction instruction slots
    ⟨left, action, clearings⟩

/-- **What does not see counts is the same after an action was followed.** -/
theorem view_simulate {β : Type} {view : Action → β}
    (blind : ∀ op count, view (.plain (.counted op count)) = view (.plain (.counted op none)))
    (slots : Slots) (action : Action) : view (simulate slots action).action = view action := by
  cases action with
  | plain instruction =>
    cases instruction with
    | counted op count =>
      rw [blind op count]
      unfold simulate
      dsimp only
      cases popCounted op slots with
      | error clearing => rfl
      | ok popped => exact blind op popped.1
    | _ => rfl
  | define signature body => rfl
  | marker found => rfl

/-- What is not counted stays as it is. -/
theorem simulate_of_uncounted {instruction : Instruction}
    (uncounted : ∀ op count, instruction ≠ .counted op count) (slots : Slots) :
    simulate slots (.plain instruction) =
      ⟨(simulateInstruction instruction slots).1, .plain instruction,
        (simulateInstruction instruction slots).2⟩ := by
  cases instruction with
  | counted op count => exact absurd rfl (uncounted op count)
  | _ => rfl

end ActionCode
