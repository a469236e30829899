/-
**What a machine does with its operands.**

* `Operands`: the stack of a running machine, **which has no bottom**: whatever is popped, there is
  more below it, and nothing is known of that.
* `Executes`: what an action may do to the stack, and the count that it takes from it. Where an action
  pushes more than a literal, any value may be pushed.
* `Run`: a machine has executed a sequence, action after action.
* **`exists_run`**: from every stack, every sequence can be executed.
-/

import ActionCode.Stack.Simulation
import Mathlib.Data.List.Forall2
import Mathlib.Data.Stream.Init

namespace ActionCode

variable {ω : Type}

/-! ### Operands -/

/-- A value on the stack of a running machine: what a literal pushed, or any other value. -/
inductive Operand (ω : Type) where
  | literal (value : PushValue)
  | other (value : ω)

/-- The stack of a running machine, the top first. -/
abbrev Operands (ω : Type) := Stream' (Operand ω)

/-- What a literal pushes: itself, but **any value in place of a register or a constant**. -/
def PushValue.Pushes : PushValue → Operand ω → Prop
  | .register _, _ | .constant8 _, _ | .constant16 _, _ => True
  | value, operand => operand = .literal value

/-- The counts that a machine may take an operand for: the one that a literal stands for, and any
count in place of what stands for none. -/
def Operand.CountsAs : Operand ω → Nat → Prop
  | .literal value, count => ∀ known, value.count? = some known → count = known
  | .other _, _ => True

/-! ### Actions -/

/-- What a counted action is told above its count. -/
inductive CountedOp.Role where
  | name | object | constructor

/-- What is above the count of a counted action, the top first. -/
def CountedOp.above : CountedOp → List Role
  | .callFunction | .newObject => [.name]
  | .callMethod | .newMethod => [.name, .object]
  | .implementsOp => [.constructor]
  | .initArray | .initObject => []

/-- **What an action may do to the stack of a machine**, and the count that it pops, if it is a counted
one. -/
inductive Executes : Action → Option Nat → Operands ω → Operands ω → Prop where
  | marker (marker : Marker) (stack : Operands ω) : Executes (.marker marker) none stack stack
  | define (signature : Signature) (body : List Action) (value : Operand ω) (stack : Operands ω) :
      Executes (.define signature body) none stack ([value] ++ₛ stack)
  | push {value : PushValue} {operand : Operand ω} (pushes : value.Pushes operand)
      (stack : Operands ω) : Executes (.plain (.push value)) none stack ([operand] ++ₛ stack)
  /-- The last literal of a list comes to lie on top. -/
  | pushList {values : List PushValue} {operands : List (Operand ω)}
      (pushes : List.Forall₂ PushValue.Pushes values operands) (stack : Operands ω) :
      Executes (.plain (.pushList values)) none stack (operands.reverse ++ₛ stack)
  | duplicate (top : Operand ω) (stack : Operands ω) :
      Executes (.plain (.basic .pushDuplicate)) none ([top] ++ₛ stack) ([top, top] ++ₛ stack)
  | swap (top second : Operand ω) (stack : Operands ω) :
      Executes (.plain (.basic .stackSwap)) none ([top, second] ++ₛ stack)
        ([second, top] ++ₛ stack)
  /-- A property of an object literal is a key and a value, and `ImplementsOp` has no result. -/
  | counted {op : CountedOp} {known : Option Nat} {above operands results : List (Operand ω)}
      {counter : Operand ω} {count : Nat} (told : above.length = op.above.length)
      (counts : counter.CountsAs count)
      (taken : operands.length = if op = .initObject then 2 * count else count)
      (given : results.length = if op = .implementsOp then 0 else 1) (stack : Operands ω) :
      Executes (.plain (.counted op known)) (some count)
        (above ++ₛ ([counter] ++ₛ (operands ++ₛ stack))) (results ++ₛ stack)
  /-- Any other action takes and gives what is declared of its opcode. -/
  | declared {instruction : Instruction} {op : Opcode} {pops pushes : Nat}
      {taken given : List (Operand ω)} (isOp : instruction.opcode = .ok op)
      (effect : op.stackEffect = some (pops, pushes)) (takes : taken.length = pops)
      (gives : given.length = pushes) (stack : Operands ω) :
      Executes (.plain instruction) none (taken ++ₛ stack) (given ++ₛ stack)
  /-- An opcode of which nothing is declared may do anything. -/
  | undeclared {op : Opcode} (effect : op.stackEffect = none) (duplicates : op ≠ .pushDuplicate)
      (swaps : op ≠ .stackSwap) (stack stack' : Operands ω) :
      Executes (.plain (.basic op)) none stack stack'
  | unknown (opcode : UInt8) (payload : List UInt8) (stack stack' : Operands ω) :
      Executes (.plain (.unknown opcode payload)) none stack stack'

/-! ### Sequences -/

/-- What came of an action: the count that it popped, and the stack that it left. -/
structure Outcome (ω : Type) where
  count : Option Nat
  stack : Operands ω

/-- A machine has executed a sequence from a stack on, with these outcomes. -/
inductive Run : Operands ω → List Action → List (Outcome ω) → Prop where
  | nil (stack : Operands ω) : Run stack [] []
  | cons {stack next : Operands ω} {action : Action} {rest : List Action} {count : Option Nat}
      {outcomes : List (Outcome ω)} (first : Executes action count stack next)
      (later : Run next rest outcomes) : Run stack (action :: rest) (⟨count, next⟩ :: outcomes)

/-! ### Machines never stop -/

/-- The operands on top of a stack can be told from the rest. -/
theorem Operands.exists_split (count : Nat) (stack : Operands ω) :
    ∃ front below, front.length = count ∧ stack = front ++ₛ below :=
  ⟨stack.take count, stack.drop count, Stream'.length_take .., (Stream'.append_take_drop ..).symm⟩

theorem Operands.exists_top (stack : Operands ω) : ∃ top below, stack = [top] ++ₛ below :=
  ⟨stack.head, stack.tail, (Stream'.eta stack).symm⟩

theorem Operands.exists_two (stack : Operands ω) :
    ∃ top second below, stack = [top, second] ++ₛ below := by
  obtain ⟨top, rest, rfl⟩ := exists_top stack
  obtain ⟨second, below, rfl⟩ := exists_top rest
  exact ⟨top, second, below, rfl⟩

theorem PushValue.pushes_itself (value : PushValue) : value.Pushes (.literal value : Operand ω) := by
  cases value <;> simp [Pushes]

/-- Every operand is taken for some count. -/
theorem Operand.exists_countsAs (operand : Operand ω) : ∃ count, operand.CountsAs count := by
  cases operand with
  | literal value =>
    cases known : value.count? with
    | none => exact ⟨0, fun count equal => by rw [known] at equal; cases equal⟩
    | some count => exact ⟨count, fun other equal => Option.some.inj (known.symm.trans equal)⟩
  | other value => exact ⟨0, trivial⟩

/-- Some values for what is pushed, whatever they are. -/
theorem Operands.exists_results (stack : Operands ω) (count : Nat) :
    ∃ results : List (Operand ω), results.length = count :=
  ⟨stack.take count, Stream'.length_take ..⟩

theorem exists_counted (op : CountedOp) (known : Option Nat) (stack : Operands ω) :
    ∃ count next, Executes (.plain (.counted op known)) count stack next := by
  obtain ⟨above, rest, told, rfl⟩ := Operands.exists_split op.above.length stack
  obtain ⟨counter, rest, rfl⟩ := Operands.exists_top rest
  obtain ⟨count, counts⟩ := counter.exists_countsAs
  obtain ⟨operands, below, taken, rfl⟩ :=
    Operands.exists_split (if op = .initObject then 2 * count else count) rest
  obtain ⟨results, given⟩ := Operands.exists_results below (if op = .implementsOp then 0 else 1)
  exact ⟨_, _, .counted told counts taken given below⟩

theorem exists_declared {instruction : Instruction} {op : Opcode} {pops pushes : Nat}
    (isOp : instruction.opcode = .ok op) (effect : op.stackEffect = some (pops, pushes))
    (stack : Operands ω) : ∃ count next, Executes (.plain instruction) count stack next := by
  obtain ⟨taken, below, takes, rfl⟩ := Operands.exists_split pops stack
  obtain ⟨given, gives⟩ := Operands.exists_results below pushes
  exact ⟨_, _, .declared isOp effect takes gives below⟩

theorem exists_basic (op : Opcode) (stack : Operands ω) :
    ∃ count next, Executes (.plain (.basic op)) count stack next := by
  by_cases duplicates : op = .pushDuplicate
  · subst duplicates
    obtain ⟨top, below, rfl⟩ := Operands.exists_top stack
    exact ⟨_, _, .duplicate top below⟩
  by_cases swaps : op = .stackSwap
  · subst swaps
    obtain ⟨top, second, below, rfl⟩ := Operands.exists_two stack
    exact ⟨_, _, .swap top second below⟩
  cases effect : op.stackEffect with
  | none => exact ⟨_, stack, .undeclared effect duplicates swaps stack stack⟩
  | some effects => exact exists_declared rfl effect stack

theorem exists_plain (instruction : Instruction) (stack : Operands ω) :
    ∃ count next, Executes (.plain instruction) count stack next := by
  cases instruction with
  | basic op => exact exists_basic op stack
  | counted op known => exact exists_counted op known stack
  | push value => exact ⟨_, _, .push value.pushes_itself stack⟩
  | pushList values =>
    have pushes : List.Forall₂ PushValue.Pushes values (values.map Operand.literal : List (Operand ω)) :=
      List.forall₂_map_right_iff.mpr (List.forall₂_same.mpr fun value _ => value.pushes_itself)
    exact ⟨_, _, .pushList pushes stack⟩
  | unknown opcode payload => exact ⟨_, stack, .unknown opcode payload stack stack⟩
  | block opened =>
    cases opened with
    | scope size => exact exists_declared rfl rfl stack
    | wait frame count => cases frame <;> exact exists_declared rfl rfl stack
    | exception block => exact exists_declared rfl rfl stack
  | branch branch =>
    obtain ⟨conditional, offset, label⟩ := branch
    cases conditional <;> exact exists_declared rfl rfl stack
  | _ => exact exists_declared rfl rfl stack

/-- From every stack, every action can be executed. -/
theorem exists_executes (action : Action) (stack : Operands ω) :
    ∃ count next, Executes action count stack next := by
  cases action with
  | plain instruction => exact exists_plain instruction stack
  | define signature body =>
    exact ⟨_, _, .define signature body stack.head stack⟩
  | marker marker => exact ⟨_, _, .marker marker stack⟩

/-- **From every stack, every sequence can be executed.** -/
theorem exists_run (actions : List Action) (stack : Operands ω) :
    ∃ outcomes, Run stack actions outcomes := by
  induction actions generalizing stack with
  | nil => exact ⟨[], .nil stack⟩
  | cons action rest ih =>
    obtain ⟨count, next, first⟩ := exists_executes action stack
    obtain ⟨outcomes, later⟩ := ih next
    exact ⟨⟨count, next⟩ :: outcomes, .cons first later⟩

end ActionCode
