/-
**What is known of the stack is true of every machine, and it is all that is sure.**

* `Slots.Exhausts`: every literal on the stack of a machine is known.
* `exists_executes_exhausted`: an action that can be followed can also be executed so that nothing else
  becomes a literal.
* **`examineInOrder_exact`**: what is told of a sequence holds in every run; and if the stack is never
  given up, there is a run in which no more than that holds.
-/

import ActionCode.Proofs.Stack.Soundness

namespace ActionCode

variable {ω : Type}

/-! ### Nothing else is known -/

/-- An operand that is a literal is known to be that. -/
def Exhaustive (slot : Option Slot) (operand : Operand ω) : Prop :=
  ∀ value, operand = .literal value → slot = some (.literal value)

/-- **Every literal on the stack is known**, at its depth. -/
abbrev Slots.Exhausts (slots : Slots) (stack : Operands ω) : Prop := slots.Along Exhaustive stack

theorem exhaustive_other (slot : Option Slot) (any : ω) : Exhaustive slot (.other any) :=
  nofun

theorem exists_pushes_exhausted (any : ω) (value : PushValue) :
    ∃ operand, value.Pushes operand ∧ Exhaustive (some (Slot.ofPush value)) (operand : Operand ω) := by
  cases value with
  | register | constant8 | constant16 => exact ⟨.other any, trivial, exhaustive_other _ any⟩
  | _ => exact ⟨_, rfl, fun _ equal => by cases equal; rfl⟩

theorem exhaustive_unknowns (any : ω) (count : Nat) :
    List.Forall₂ (fun slot operand => Exhaustive (some slot) operand) (Slots.unknowns count)
      (List.replicate count (.other any : Operand ω)) := by
  induction count with
  | zero => exact .nil
  | succ count ih => exact .cons (exhaustive_other _ any) ih

/-- A stack without literals. -/
theorem Slots.exhausts_others (slots : Slots) (any : ω) :
    slots.Exhausts (Stream'.const (.other any)) := fun _ => exhaustive_other _ any

/-- A count that is known is one that the operand may be taken for. -/
theorem Exhaustive.countsAs {slot : Slot} {operand : Operand ω} {count : Nat}
    (exhaustive : Exhaustive (some slot) operand) (found : slot.count? = some count) :
    operand.CountsAs count := by
  cases operand with
  | other => trivial
  | literal value =>
    obtain rfl := Option.some.inj (exhaustive value rfl)
    exact fun known equal => Option.some.inj (found.symm.trans equal)

/-! ### Actions -/

theorem exists_counted_exhausted (any : ω) {op : CountedOp} {slots left : Slots} {count : Nat}
    (known : Option Nat) {stack : Operands ω} (exhausts : slots.Exhausts stack)
    (popped : popCounted op slots = .ok (count, left)) :
    ∃ next, Executes (.plain (.counted op known)) (some count) stack next ∧ left.Exhausts next := by
  obtain ⟨_, top, items, below, rfl, fixed, isCount, inside, rfl⟩ := popCounted_inv popped
  obtain ⟨above, rest, told, rfl⟩ := Operands.exists_split op.above.length stack
  obtain ⟨counter, rest, rfl⟩ := Operands.exists_top rest
  obtain ⟨operands, rest, taken, rfl⟩ := Operands.exists_split (count * op.operandsPerItem) rest
  have atCount : Slots.Exhausts (top :: (items ++ below)) _ :=
    exhausts.below (by rw [fixed, told, op.length_above])
  have bottom : Slots.Exhausts below rest := atCount.rest.below (by rw [inside, taken])
  refine ⟨List.replicate op.results (.other any) ++ₛ rest,
    .counted told (atCount.top.countsAs isCount) ?_ ?_ rest,
    .append (exhaustive_unknowns any op.results) bottom⟩
  · rw [taken, op.mul_operandsPerItem]
  · rw [List.length_replicate, op.results_eq]

theorem exists_fixed_exhausted (any : ω) {instruction : Instruction} {op : Opcode} {slots : Slots}
    {stack : Operands ω} (isOp : instruction.opcode = .ok op)
    (fixed : simulate slots (.plain instruction) =
      ⟨(applyFixed op slots).1, .plain instruction, (applyFixed op slots).2⟩)
    (exhausts : slots.Exhausts stack)
    (followed : (simulate slots (.plain instruction)).notes = []) :
    ∃ count next, Executes (.plain instruction) count stack next ∧
      (simulate slots (.plain instruction)).state.Exhausts next := by
  rw [fixed] at followed ⊢
  unfold applyFixed at followed ⊢
  cases effect : op.stackEffect with
  | none => rw [effect] at followed; cases followed
  | some effects =>
    rw [effect] at followed
    dsimp only at followed ⊢
    cases dropped : dropExactly? effects.1 slots with
    | none => rw [dropped] at followed; cases followed
    | some left =>
      obtain ⟨front, length, rfl⟩ := exists_front_of_dropExactly? dropped
      obtain ⟨taken, below, takes, rfl⟩ := Operands.exists_split effects.1 stack
      exact ⟨none, List.replicate effects.2 (.other any) ++ₛ below,
        .declared isOp effect takes List.length_replicate below,
        .append (exhaustive_unknowns any effects.2) (exhausts.below (length.trans takes.symm))⟩

theorem exists_pushAll_exhausted (any : ω) (values : List PushValue) {slots : Slots}
    {stack : Operands ω} (exhausts : slots.Exhausts stack) :
    ∃ operands, List.Forall₂ PushValue.Pushes values operands ∧
      Slots.Exhausts (values.foldl (fun slots value => Slot.ofPush value :: slots) slots)
        (operands.reverse ++ₛ stack) := by
  induction values generalizing slots stack with
  | nil => exact ⟨[], .nil, exhausts⟩
  | cons value values ih =>
    obtain ⟨operand, pushes, exhaustive⟩ := exists_pushes_exhausted any value
    obtain ⟨operands, later, after⟩ := ih (.cons exhaustive exhausts)
    refine ⟨operand :: operands, .cons pushes later, ?_⟩
    rwa [← Stream'.append_append_stream, ← List.reverse_cons] at after

theorem exists_basic_exhausted (any : ω) (op : Opcode) {slots : Slots} {stack : Operands ω}
    (exhausts : slots.Exhausts stack)
    (followed : (simulate slots (.plain (.basic op))).notes = []) :
    ∃ count next, Executes (.plain (.basic op)) count stack next ∧
      (simulate slots (.plain (.basic op))).state.Exhausts next := by
  by_cases duplicates : op = .pushDuplicate
  · subst duplicates
    obtain ⟨top, below, rfl⟩ := Operands.exists_top stack
    match slots, followed with
    | slot :: slots, _ => exact ⟨none, _, .duplicate top below, .cons exhausts.top exhausts⟩
  by_cases swaps : op = .stackSwap
  · subst swaps
    obtain ⟨top, second, below, rfl⟩ := Operands.exists_two stack
    match slots, followed with
    | first :: next :: slots, _ =>
      have rest : Slots.Exhausts (next :: slots) ([second] ++ₛ below) := exhausts.rest
      exact ⟨none, _, .swap top second below, .cons rest.top (.cons exhausts.top rest.rest)⟩
  have uncounted : ∀ family count, Instruction.basic op ≠ .counted family count := nofun
  have fixed := simulate_of_uncounted uncounted slots
  rw [simulateInstruction_basic duplicates swaps] at fixed
  exact exists_fixed_exhausted any rfl fixed exhausts followed

/-- **What can be followed can be executed so that nothing else is known**: wherever any value may be
pushed, it is no literal. -/
theorem exists_executes_exhausted (any : ω) {slots : Slots} {action : Action} {stack : Operands ω}
    (exhausts : slots.Exhausts stack) (followed : (simulate slots action).notes = []) :
    ∃ count next, Executes action count stack next ∧ (simulate slots action).state.Exhausts next := by
  cases action with
  | marker marker => exact ⟨none, stack, .marker marker stack, exhausts⟩
  | define signature body =>
    exact ⟨none, _, .define signature body (.other any) stack,
      .cons (exhaustive_other _ any) exhausts⟩
  | plain instruction =>
    cases instruction with
    | push value =>
      obtain ⟨operand, pushes, exhaustive⟩ := exists_pushes_exhausted any value
      exact ⟨none, _, .push pushes stack, .cons exhaustive exhausts⟩
    | pushList values =>
      obtain ⟨operands, pushes, after⟩ := exists_pushAll_exhausted any values exhausts
      exact ⟨none, _, .pushList pushes stack, after⟩
    | basic op => exact exists_basic_exhausted any op exhausts followed
    | counted op known =>
      unfold simulate at followed ⊢
      dsimp only at followed ⊢
      cases popped : popCounted op slots with
      | error clearing => rw [popped] at followed; cases followed
      | ok found =>
        obtain ⟨next, executes, after⟩ := exists_counted_exhausted any known exhausts popped
        exact ⟨_, next, executes, after⟩
    | unknown => cases followed
    | _ => exact exists_fixed_exhausted any rfl rfl exhausts followed

/-- A count is left open only where the stack is given up. -/
theorem simulate_count_isSome {slots : Slots} {action : Action} (op : CountedOp)
    (followed : (simulate slots action).notes = []) :
    (simulate slots action).action ≠ .plain (.counted op none) := by
  cases action with
  | marker | define => exact nofun
  | plain instruction =>
    cases instruction with
    | counted op known =>
      unfold simulate at followed ⊢
      dsimp only at followed ⊢
      cases popped : popCounted op slots with
      | error clearing => rw [popped] at followed; cases followed
      | ok found => exact nofun
    | _ => exact nofun

/-! ### Runs -/

/-- What a step in order says of its action is all there is to say. -/
structure OrderedStep.Exhausts (step : OrderedStep) (outcome : Outcome ω) : Prop where
  slots : step.slots.Exhausts outcome.stack
  count : ∀ op, step.action ≠ .plain (.counted op none)

theorem exists_run_exhausted (any : ω) (seedSlots : Nat) {slots : Slots} {actions : List Action}
    {stack : Operands ω} (exhausts : slots.Exhausts stack)
    (followed : ∀ step ∈ orderedSteps seedSlots slots actions, step.clearings = []) :
    ∃ outcomes, Run stack actions outcomes ∧
      List.Forall₂ OrderedStep.Exhausts (orderedSteps seedSlots slots actions) outcomes := by
  induction actions generalizing slots stack with
  | nil => exact ⟨[], .nil stack, .nil⟩
  | cons action rest ih =>
    have quiet : (simulate slots (examineCode seedSlots action).1).notes = [] :=
      (List.append_eq_nil_iff.mp (followed _ List.mem_cons_self)).2
    obtain ⟨count, next, executes, after⟩ := exists_executes_exhausted any exhausts quiet
    obtain ⟨outcomes, later, others⟩ := ih after fun step member =>
      followed step (List.mem_cons_of_mem _ member)
    exact ⟨⟨count, next⟩ :: outcomes, .cons ((executes_examineCode_iff seedSlots).mp executes) later,
      .cons ⟨after, fun op => simulate_count_isSome op quiet⟩ others⟩

/-- **What is told of the stack in order is true of every machine, and all that is sure.** After every
action of a run, the literals that are known are on the stack of the machine at the same depth, and a
count that is found is the one that it took. And where the stack is never given up, every count is found,
and a machine that begins without literals may have no others than those that are known. -/
theorem examineInOrder_exact (actions : List Action) (seedSlots : Nat) :
    (∀ (stack : Operands ω) (outcomes : List (Outcome ω)), Run stack actions outcomes →
      List.Forall₂ OrderedStep.Tells (examineInOrder actions seedSlots) outcomes) ∧
    ∀ any : ω, (∀ step ∈ examineInOrder actions seedSlots, step.clearings = []) →
      ∃ outcomes, Run (Stream'.const (.other any)) actions outcomes ∧
        List.Forall₂ OrderedStep.Exhausts (examineInOrder actions seedSlots) outcomes := by
  rw [examineInOrder_eq]
  constructor
  · intro stack outcomes run
    exact orderedSteps_sound run seedSlots (Slots.unknowns_describes seedSlots stack)
  · intro any followed
    exact exists_run_exhausted any seedSlots (Slots.exhausts_others _ any) followed

/-- A call of `f` with the argument 7, on a stack of which nothing is known: the count that is found is
the literal below the name. -/
theorem examineInOrder_exact_call :
    Run (Stream'.const (.other ()) : Operands Unit)
      [.plain (.push (.integer 7)), .plain (.push (.integer 1)), .plain (.push (.text "f")),
        .plain (.counted .callFunction none)]
      [⟨none, [.literal (.integer 7)] ++ₛ Stream'.const (.other ())⟩,
        ⟨none, [.literal (.integer 1), .literal (.integer 7)] ++ₛ Stream'.const (.other ())⟩,
        ⟨none, [.literal (.text "f"), .literal (.integer 1), .literal (.integer 7)] ++ₛ
          Stream'.const (.other ())⟩,
        ⟨some 1, [.other ()] ++ₛ Stream'.const (.other ())⟩] ∧
    List.Forall₂ OrderedStep.Tells
      [⟨.plain (.push (.integer 7)), [.literal (.integer 7)], []⟩,
        ⟨.plain (.push (.integer 1)), [.literal (.integer 1), .literal (.integer 7)], []⟩,
        ⟨.plain (.push (.text "f")),
          [.literal (.text "f"), .literal (.integer 1), .literal (.integer 7)], []⟩,
        ⟨.plain (.counted .callFunction (some 1)), [.unknown], []⟩]
      [⟨none, [.literal (.integer 7)] ++ₛ Stream'.const (.other ())⟩,
        ⟨none, [.literal (.integer 1), .literal (.integer 7)] ++ₛ Stream'.const (.other ())⟩,
        ⟨none, [.literal (.text "f"), .literal (.integer 1), .literal (.integer 7)] ++ₛ
          Stream'.const (.other ())⟩,
        ⟨some 1, [.other ()] ++ₛ (Stream'.const (.other ()) : Operands Unit)⟩] ∧
    ∃ outcomes : List (Outcome Unit),
      List.Forall₂ OrderedStep.Exhausts
        [⟨.plain (.push (.integer 7)), [.literal (.integer 7)], []⟩,
          ⟨.plain (.push (.integer 1)), [.literal (.integer 1), .literal (.integer 7)], []⟩,
          ⟨.plain (.push (.text "f")),
            [.literal (.text "f"), .literal (.integer 1), .literal (.integer 7)], []⟩,
          ⟨.plain (.counted .callFunction (some 1)), [.unknown], []⟩] outcomes := by
  have counts : (Operand.literal (.integer 1) : Operand Unit).CountsAs 1 :=
    fun known equal => Option.some.inj equal
  have called : Executes (.plain (.counted .callFunction none)) (some 1)
      ([.literal (.text "f")] ++ₛ ([.literal (.integer 1)] ++ₛ ([.literal (.integer 7)] ++ₛ
        Stream'.const (.other ()))))
      ([.other ()] ++ₛ (Stream'.const (.other ()) : Operands Unit)) := .counted rfl counts rfl rfl _
  have run := Run.cons (.push (PushValue.pushes_itself (.integer 7)) _)
    (.cons (.push (PushValue.pushes_itself (.integer 1)) _)
      (.cons (.push (PushValue.pushes_itself (.text "f")) _) (.cons called (.nil _))))
  obtain ⟨outcomes, -, exhausts⟩ := (examineInOrder_exact [.plain (.push (.integer 7)),
    .plain (.push (.integer 1)), .plain (.push (.text "f")), .plain (.counted .callFunction none)]
    0).2 () (by
      intro step member
      have steps : step.clearings ∈ [[], [], [], []] := List.mem_map_of_mem member
      simpa using steps)
  exact ⟨run, (examineInOrder_exact _ 0).1 _ _ run, outcomes, exhausts⟩

end ActionCode
