/-
**What is known of the stack is true of every machine.**

* `Slots.Describes`: what is known of a stack holds of the stack of a machine.
* **`simulate_sound`**: this is kept by every action, and a count that is found is the one that the
  machine takes.
* **`orderedSteps_sound`**: so it is in a run of any length, from any stack.

Nothing is claimed of the slots below those that are known. After an action that cannot be followed no
slot is known, and so **nothing is ever misaligned**.
-/

import ActionCode.Stack.Examination
import ActionCode.Proofs.Stack.Machine

namespace ActionCode

variable {ω : Type}

/-! ### Slots along a stack -/

/-- Every operand fits the slot at its depth, or fits that there is none. -/
def Slots.Along (fits : Option Slot → Operand ω → Prop) (slots : Slots) (stack : Operands ω) : Prop :=
  ∀ depth, fits slots[depth]? (stack.get depth)

namespace Slots.Along

variable {fits : Option Slot → Operand ω → Prop} {slot : Slot} {operand : Operand ω}
  {slots : Slots} {stack : Operands ω}

theorem cons (top : fits (some slot) operand) (below : slots.Along fits stack) :
    Slots.Along fits (slot :: slots) ([operand] ++ₛ stack)
  | 0 => top
  | depth + 1 => below depth

theorem append {front : Slots} {operands : List (Operand ω)}
    (above : List.Forall₂ (fun slot operand => fits (some slot) operand) front operands)
    (below : slots.Along fits stack) : Slots.Along fits (front ++ slots) (operands ++ₛ stack) := by
  induction above with
  | nil => exact below
  | cons top _ ih => exact cons top ih

theorem top (along : Slots.Along fits (slot :: slots) ([operand] ++ₛ stack)) :
    fits (some slot) operand := along 0

theorem rest (along : Slots.Along fits (slot :: slots) ([operand] ++ₛ stack)) :
    slots.Along fits stack := fun depth => along (depth + 1)

/-- What is below as many slots as operands goes along with what is below these. -/
theorem below {front : Slots} {operands : List (Operand ω)} (same : front.length = operands.length)
    (along : Slots.Along fits (front ++ slots) (operands ++ₛ stack)) : slots.Along fits stack := by
  induction operands generalizing front with
  | nil =>
    obtain rfl := List.length_eq_zero_iff.mp same
    exact along
  | cons operand operands ih =>
    obtain ⟨slot, front, rfl⟩ := List.exists_cons_of_length_eq_add_one same
    exact ih (Nat.succ.inj same) along.rest

end Slots.Along

/-! ### Descriptions -/

/-- What is known of an operand holds of it. -/
def Truthful (slot : Option Slot) (operand : Operand ω) : Prop :=
  ∀ value, slot = some (.literal value) → operand = .literal value

/-- **Every literal that is known is on the stack**, at its depth. -/
abbrev Slots.Describes (slots : Slots) (stack : Operands ω) : Prop := slots.Along Truthful stack

theorem truthful_unknown (operand : Operand ω) : Truthful (some .unknown) operand :=
  nofun

theorem truthful_ofPush {value : PushValue} {operand : Operand ω} (pushes : value.Pushes operand) :
    Truthful (some (Slot.ofPush value)) operand := by
  intro known equal
  cases value <;> cases equal <;> exact pushes

/-- A count that is known is the one that the operand is taken for. -/
theorem Truthful.count {slot : Slot} {operand : Operand ω} {known count : Nat}
    (truthful : Truthful (some slot) operand) (counts : operand.CountsAs count)
    (found : slot.count? = some known) : count = known := by
  cases slot with
  | unknown => cases found
  | literal value =>
    rw [truthful value rfl] at counts
    exact counts known found

theorem Slots.nil_describes (stack : Operands ω) : Slots.Describes [] stack :=
  fun depth value known => by simp at known

theorem truthful_unknowns (operands : List (Operand ω)) :
    List.Forall₂ (fun slot operand => Truthful (some slot) operand)
      (Slots.unknowns operands.length) operands := by
  induction operands with
  | nil => exact .nil
  | cons operand operands ih => exact .cons (truthful_unknown operand) ih

/-! ### Counted actions -/

/-- Dropping succeeds if there is so much to drop. -/
theorem exists_front_of_dropExactly? {α : Type} {count : Nat} {all left : List α}
    (dropped : dropExactly? count all = some left) :
    ∃ front, front.length = count ∧ all = front ++ left := by
  induction count generalizing all with
  | zero =>
    obtain rfl : all = left := Option.some.inj dropped
    exact ⟨[], rfl, rfl⟩
  | succ count ih =>
    cases all with
    | nil => cases dropped
    | cons first all =>
      obtain ⟨front, rfl, rfl⟩ := ih dropped
      exact ⟨first :: front, rfl, rfl⟩

/-- **A counted action that can be followed** finds what is above its count, the count, and so many
items below. -/
theorem popCounted_inv {op : CountedOp} {slots left : Slots} {count : Nat}
    (popped : popCounted op slots = .ok (count, left)) :
    ∃ above top items below, slots = above ++ top :: (items ++ below) ∧
      above.length = op.fixedOperands ∧ top.count? = some count ∧
      items.length = count * op.operandsPerItem ∧ left = Slots.unknowns op.results ++ below := by
  unfold popCounted at popped
  cases first : dropExactly? op.fixedOperands slots with
  | none => rw [first] at popped; cases popped
  | some rest =>
    obtain ⟨above, told, rfl⟩ := exists_front_of_dropExactly? first
    rw [first] at popped
    cases rest with
    | nil => cases popped
    | cons top rest =>
      dsimp only at popped
      cases found : top.count? with
      | none => rw [found] at popped; cases popped
      | some number =>
        rw [found] at popped
        dsimp only at popped
        cases second : dropExactly? (number * op.operandsPerItem) rest with
        | none => rw [second] at popped; cases popped
        | some below =>
          obtain ⟨items, taken, rfl⟩ := exists_front_of_dropExactly? second
          rw [second] at popped
          cases popped
          exact ⟨above, top, items, below, rfl, told, found, taken, rfl⟩

theorem CountedOp.length_above (op : CountedOp) : op.above.length = op.fixedOperands := by
  cases op <;> rfl

theorem CountedOp.mul_operandsPerItem (op : CountedOp) (count : Nat) :
    count * op.operandsPerItem = if op = .initObject then 2 * count else count := by
  cases op <;> simp [operandsPerItem, Nat.mul_comm]

theorem CountedOp.results_eq (op : CountedOp) :
    op.results = if op = .implementsOp then 0 else 1 := by
  cases op <;> rfl

/-- **A counted action takes the count that is found**, if it can be followed. -/
theorem popCounted_sound {op : CountedOp} {slots left : Slots} {found count : Nat}
    {above operands results : List (Operand ω)} {counter : Operand ω} {stack : Operands ω}
    (describes : slots.Describes (above ++ₛ ([counter] ++ₛ (operands ++ₛ stack))))
    (told : above.length = op.above.length) (counts : counter.CountsAs count)
    (taken : operands.length = if op = .initObject then 2 * count else count)
    (given : results.length = if op = .implementsOp then 0 else 1)
    (popped : popCounted op slots = .ok (found, left)) :
    count = found ∧ left.Describes (results ++ₛ stack) := by
  obtain ⟨_, top, items, below, rfl, fixed, isCount, inside, rfl⟩ := popCounted_inv popped
  have counter : Slots.Describes (top :: (items ++ below)) _ :=
    describes.below (by rw [fixed, told, op.length_above])
  obtain rfl : count = found := counter.top.count counts isCount
  have bottom : Slots.Describes below stack :=
    counter.rest.below (by rw [inside, taken, op.mul_operandsPerItem])
  refine ⟨rfl, ?_⟩
  rw [op.results_eq, ← given]
  exact .append (truthful_unknowns results) bottom

/-! ### Other actions -/

theorem applyFixed_sound {op : Opcode} {slots : Slots} {taken given : List (Operand ω)}
    {stack : Operands ω} (describes : slots.Describes (taken ++ₛ stack))
    (effect : op.stackEffect = some (taken.length, given.length)) :
    (applyFixed op slots).1.Describes (given ++ₛ stack) := by
  unfold applyFixed
  rw [effect]
  dsimp only
  cases dropped : dropExactly? taken.length slots with
  | none =>
    -- The results are unknown, so they may be pushed onto a stack that has been given up.
    have pushed := Slots.Along.append (truthful_unknowns given) (Slots.nil_describes stack)
    rwa [List.append_nil] at pushed
  | some left =>
    obtain ⟨front, length, rfl⟩ := exists_front_of_dropExactly? dropped
    exact .append (truthful_unknowns given) (describes.below length)

/-- An instruction whose opcode has a fixed effect is followed by that. -/
theorem simulateInstruction_of_effect {instruction : Instruction} {op : Opcode} {pops pushes : Nat}
    (isOp : instruction.opcode = .ok op) (effect : op.stackEffect = some (pops, pushes))
    (slots : Slots) : simulateInstruction instruction slots = applyFixed op slots := by
  unfold simulateInstruction
  split
  case h_1 | h_2 | h_3 | h_4 => cases isOp; cases effect
  case h_5 => rw [isOp]

theorem pushAll_sound {values : List PushValue} {operands : List (Operand ω)} {slots : Slots}
    {stack : Operands ω} (pushes : List.Forall₂ PushValue.Pushes values operands)
    (describes : slots.Describes stack) :
    Slots.Describes (values.foldl (fun slots value => Slot.ofPush value :: slots) slots)
      (operands.reverse ++ₛ stack) := by
  induction pushes generalizing slots stack with
  | nil => exact describes
  | @cons value operand values operands first _ ih =>
    have later := ih (.cons (truthful_ofPush first) describes)
    rwa [← Stream'.append_append_stream, ← List.reverse_cons] at later

theorem duplicate_sound {slots : Slots} {top : Operand ω} {stack : Operands ω}
    (describes : slots.Describes ([top] ++ₛ stack)) :
    (simulateInstruction (.basic .pushDuplicate) slots).1.Describes ([top, top] ++ₛ stack) := by
  cases slots with
  | nil => exact .cons (truthful_unknown top) (Slots.nil_describes _)
  | cons slot below => exact .cons describes.top describes

theorem swap_sound {slots : Slots} {top second : Operand ω} {stack : Operands ω}
    (describes : slots.Describes ([top, second] ++ₛ stack)) :
    (simulateInstruction (.basic .stackSwap) slots).1.Describes ([second, top] ++ₛ stack) := by
  match slots, describes with
  | [], _ | [_], _ => exact Slots.nil_describes _
  | first :: next :: below, describes =>
    have rest : Slots.Describes (next :: below) ([second] ++ₛ stack) := describes.rest
    exact .cons rest.top (.cons describes.top rest.rest)

/-- A plain opcode is followed by its fixed effect, if it is none that moves operands. -/
theorem simulateInstruction_basic {op : Opcode} (duplicates : op ≠ .pushDuplicate)
    (swaps : op ≠ .stackSwap) (slots : Slots) :
    simulateInstruction (.basic op) slots = applyFixed op slots := by
  unfold simulateInstruction
  split
  case h_1 equal | h_2 equal => cases equal
  case h_3 equal => exact absurd (Instruction.basic.inj equal) swaps
  case h_4 equal => exact absurd (Instruction.basic.inj equal) duplicates
  case h_5 => rfl

theorem applyFixed_of_no_effect {op : Opcode} (effect : op.stackEffect = none) (slots : Slots) :
    applyFixed op slots = ([], [⟨.noFixedEffect, op.name, slots.length⟩]) := by
  rw [applyFixed, effect]

/-! ### Soundness -/

/-- **What is told of an action is true**: what is known of the stack after it, and its count. -/
structure Tells (slots : Slots) (action : Action) (outcome : Outcome ω) : Prop where
  slots : slots.Describes outcome.stack
  count : ∀ op count, action = .plain (.counted op (some count)) → outcome.count = some count

/-- What a step in order says of its action is true. -/
def OrderedStep.Tells (step : OrderedStep) (outcome : Outcome ω) : Prop :=
  ActionCode.Tells step.slots step.action outcome

theorem tells_of_uncounted {instruction : Instruction} {slots : Slots} {outcome : Outcome ω}
    (uncounted : ∀ op count, instruction ≠ .counted op count)
    (describes : (simulateInstruction instruction slots).1.Describes outcome.stack) :
    Tells (simulate slots (.plain instruction)).state (simulate slots (.plain instruction)).action
      outcome := by
  rw [simulate_of_uncounted uncounted]
  exact ⟨describes, fun op count equal => absurd (Action.plain.inj equal) (uncounted op _)⟩

/-- **Every action keeps what is known true.** -/
theorem simulate_sound {slots : Slots} {action : Action} {count? : Option Nat}
    {stack next : Operands ω} (describes : slots.Describes stack)
    (executes : Executes action count? stack next) :
    Tells (simulate slots action).state (simulate slots action).action ⟨count?, next⟩ := by
  cases executes with
  | marker => exact ⟨describes, nofun⟩
  | define signature body value =>
    exact ⟨.cons (truthful_unknown value) describes, nofun⟩
  | push pushes =>
    exact tells_of_uncounted nofun
      (.cons (truthful_ofPush pushes) describes)
  | pushList pushes =>
    exact tells_of_uncounted nofun (pushAll_sound pushes describes)
  | duplicate => exact tells_of_uncounted nofun (duplicate_sound describes)
  | swap => exact tells_of_uncounted nofun (swap_sound describes)
  | @counted op known above operands results counter count told counts taken given stack =>
    unfold simulate
    dsimp only
    -- Where the count cannot be told, nothing is known any more, whatever the machine takes.
    cases popped : popCounted op slots with
    | error clearing => exact ⟨Slots.nil_describes _, nofun⟩
    | ok found =>
      obtain ⟨rfl, after⟩ := popCounted_sound describes told counts taken given popped
      exact ⟨after, fun _ _ equal => by cases equal; rfl⟩
  | @declared instruction op pops pushes taken given isOp effect takes gives =>
    subst takes gives
    -- No counted opcode has a fixed effect, also where it comes as a plain opcode.
    have uncounted : ∀ family count, instruction ≠ .counted family count := by
      rintro family count rfl
      cases isOp
      cases family <;> cases effect
    refine tells_of_uncounted uncounted ?_
    rw [simulateInstruction_of_effect isOp effect]
    exact applyFixed_sound describes effect
  | undeclared effect duplicates swaps =>
    refine tells_of_uncounted nofun ?_
    rw [simulateInstruction_basic duplicates swaps, applyFixed_of_no_effect effect]
    exact Slots.nil_describes _
  | unknown => exact tells_of_uncounted nofun (Slots.nil_describes _)

/-! ### Steps in order -/

/-- The code of a definition does not matter to what the definition does. -/
theorem executes_examineCode_iff {action : Action} {count? : Option Nat} {stack next : Operands ω}
    (seedSlots : Nat) :
    Executes (examineCode seedSlots action).1 count? stack next ↔
      Executes action count? stack next := by
  cases action with
  | plain instruction => rw [examineCode]
  | marker marker => rw [examineCode]
  | define signature body =>
    rw [examineCode]
    constructor <;> (intro executes; cases executes; exact .define ..)

/-- What becomes of the next action in order. -/
def orderedStep (seedSlots : Nat) (slots : Slots) (action : Action) : OrderedStep :=
  let observed := simulate slots (examineCode seedSlots action).1
  ⟨observed.action, observed.state, (examineCode seedSlots action).2 ++ observed.notes⟩

/-- What becomes of the actions in order, from a stack on. -/
def orderedSteps (seedSlots : Nat) : Slots → List Action → List OrderedStep
  | _, [] => []
  | slots, action :: rest =>
    orderedStep seedSlots slots action ::
      orderedSteps seedSlots (orderedStep seedSlots slots action).slots rest

theorem toList_examineInOrderFrom (seedSlots : Nat) (slots : Slots) (before : Array OrderedStep)
    (actions : List Action) :
    (examineInOrderFrom seedSlots slots before actions).toList =
      before.toList ++ orderedSteps seedSlots slots actions := by
  induction actions generalizing slots before with
  | nil => exact (List.append_nil _).symm
  | cons action rest ih =>
    show (examineInOrderFrom seedSlots (orderedStep seedSlots slots action).slots
      (before.push (orderedStep seedSlots slots action)) rest).toList = _
    rw [ih, Array.toList_push, List.append_assoc, List.singleton_append, orderedSteps]

theorem examineInOrder_eq (actions : List Action) (seedSlots : Nat) :
    examineInOrder actions seedSlots =
      orderedSteps seedSlots (Slots.unknowns seedSlots) actions := by
  rw [examineInOrder, toList_examineInOrderFrom]
  rfl

theorem orderedStep_sound {slots : Slots} {action : Action} {count? : Option Nat}
    {stack next : Operands ω} (seedSlots : Nat) (describes : slots.Describes stack)
    (executes : Executes action count? stack next) :
    (orderedStep seedSlots slots action).Tells ⟨count?, next⟩ :=
  simulate_sound describes ((executes_examineCode_iff seedSlots).mpr executes)

/-- **Along a run, each step begins with what the one before it tells.** -/
theorem orderedSteps_sound {stack : Operands ω} {actions : List Action}
    {outcomes : List (Outcome ω)} (run : Run stack actions outcomes) (seedSlots : Nat)
    {slots : Slots} (describes : slots.Describes stack) :
    List.Forall₂ OrderedStep.Tells (orderedSteps seedSlots slots actions) outcomes := by
  induction run generalizing slots with
  | nil => exact .nil
  | cons first _ ih =>
    have tells := orderedStep_sound seedSlots describes first
    exact .cons tells (ih tells.slots)

theorem Slots.unknowns_describes (count : Nat) (stack : Operands ω) :
    (Slots.unknowns count).Describes stack := by
  intro depth value known
  have unknown := List.eq_of_mem_replicate (List.mem_of_getElem? known)
  cases unknown

end ActionCode
