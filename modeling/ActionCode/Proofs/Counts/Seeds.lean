/-
**More seed slots never lose a count.**

* `Slots.Below`: what one stack knows of its slots, another knows of the slots at the same depth, and
  more may lie below them. **A stack that has been given up is below every other.**
* **`simulate_below`**: this is kept by every action, and a count that is found on the first stack is
  found on the second.
* **`examine_keeps_counts`**: so it is along two traversals, at every level.
-/

import ActionCode.Proofs.Counts.Alone
import ActionCode.Proofs.Flow.Lockstep
import ActionCode.Proofs.Stack.Soundness

namespace ActionCode

/-! ### An order on stacks -/

/-- Nothing is known of the first slot, or it is the second. -/
def Slot.Below (slot other : Slot) : Prop := slot = .unknown ∨ slot = other

/-- **The second stack is at least as high, and what is known of the first one holds of it**, at the
same depth from the top. -/
inductive Slots.Below : Slots → Slots → Prop where
  | nil (slots : Slots) : Below [] slots
  | cons {slot other : Slot} {slots others : Slots} (top : slot.Below other)
      (rest : Below slots others) : Below (slot :: slots) (other :: others)

theorem Slot.Below.refl (slot : Slot) : slot.Below slot := .inr rfl

theorem Slots.Below.refl : ∀ slots : Slots, Slots.Below slots slots
  | [] => .nil []
  | slot :: slots => .cons (.refl slot) (.refl slots)

/-- Unknown slots are below any of the same depth. -/
theorem Slots.Below.unknowns {slots others : Slots} (below : slots.Below others) (count : Nat) :
    (Slots.unknowns count ++ slots).Below (Slots.unknowns count ++ others) := by
  induction count with
  | zero => exact below
  | succ count ih => exact .cons (.refl .unknown) ih

/-- The seed slots of one stack are below those of a stack with more. -/
theorem Slots.unknowns_below {fewer more : Nat} (le : fewer ≤ more) :
    (Slots.unknowns fewer).Below (Slots.unknowns more) := by
  obtain ⟨rest, rfl⟩ := Nat.exists_eq_add_of_le le
  have whole := (Slots.Below.nil (Slots.unknowns rest)).unknowns fewer
  unfold Slots.unknowns at whole ⊢
  rwa [List.append_nil, List.replicate_append_replicate] at whole

/-- Where slots can be dropped from a stack, they can be from one above it. -/
theorem Slots.Below.dropExactly {slots others left : Slots} (below : slots.Below others) {count : Nat}
    (dropped : dropExactly? count slots = some left) :
    ∃ left', dropExactly? count others = some left' ∧ left.Below left' := by
  induction below generalizing count with
  | nil slots =>
    cases count with
    | zero =>
      cases dropped
      exact ⟨slots, rfl, .nil slots⟩
    | succ count => cases dropped
  | cons top rest ih =>
    cases count with
    | zero =>
      cases dropped
      exact ⟨_, rfl, .cons top rest⟩
    | succ count => exact ih dropped

/-! ### Actions -/

/-- **A count that is found is found above**, and the stacks stay related. -/
theorem Slots.Below.popCounted {op : CountedOp} {slots others left : Slots} {count : Nat}
    (below : slots.Below others) (popped : ActionCode.popCounted op slots = .ok (count, left)) :
    ∃ left', ActionCode.popCounted op others = .ok (count, left') ∧ left.Below left' := by
  unfold ActionCode.popCounted at popped
  dsimp only at popped
  split at popped
  · cases popped
  · cases popped
  · rename_i top rest dropped
    obtain ⟨_, dropped', above⟩ := below.dropExactly dropped
    split at popped
    · cases popped
    · rename_i found isCount
      split at popped
      · cases popped
      · rename_i bottom taken
        obtain ⟨rfl, rfl⟩ := Prod.mk.inj (Except.ok.inj popped)
        cases above with
        | @cons _ other _ others' same rest =>
          -- A slot that is unknown tells no count, so the second stack has the same literal here.
          obtain rfl | rfl := same
          · cases isCount
          · obtain ⟨bottom', taken', bottoms⟩ := rest.dropExactly taken
            refine ⟨Slots.unknowns op.results ++ bottom', ?_, bottoms.unknowns op.results⟩
            unfold ActionCode.popCounted
            rw [dropped']
            dsimp only
            rw [isCount]
            dsimp only
            rw [taken']

theorem Slots.Below.applyFixed {slots others : Slots} (below : slots.Below others) (op : Opcode) :
    (ActionCode.applyFixed op slots).1.Below (ActionCode.applyFixed op others).1 := by
  unfold ActionCode.applyFixed
  cases op.stackEffect with
  | none => exact .refl []
  | some effects =>
    obtain ⟨pops, pushes⟩ := effects
    have bare : ∀ slots : Slots, (Slots.unknowns pushes).Below (Slots.unknowns pushes ++ slots) := by
      intro slots
      have whole := (Slots.Below.nil slots).unknowns pushes
      rwa [List.append_nil] at whole
    dsimp only
    cases dropped : dropExactly? pops slots with
    | some left =>
      obtain ⟨left', dropped', rest⟩ := below.dropExactly dropped
      rw [dropped']
      exact rest.unknowns pushes
    | none =>
      -- The first stack is given up here, and the second may go on.
      cases dropExactly? pops others with
      | some left' => exact bare left'
      | none => exact .refl _

theorem Slots.Below.pushAll {slots others : Slots} (below : slots.Below others)
    (values : List PushValue) :
    Slots.Below (values.foldl (fun slots value => Slot.ofPush value :: slots) slots)
      (values.foldl (fun slots value => Slot.ofPush value :: slots) others) := by
  induction values generalizing slots others with
  | nil => exact below
  | cons value values ih => exact ih (.cons (.refl _) below)

theorem Slots.Below.swap {slots others : Slots} (below : slots.Below others) :
    (ActionCode.simulateInstruction (.basic .stackSwap) slots).1.Below
      (ActionCode.simulateInstruction (.basic .stackSwap) others).1 := by
  cases below with
  | nil => exact .nil _
  | cons top rest =>
    cases rest with
    | nil => exact .nil _
    | cons second rest => exact .cons second (.cons top rest)

theorem Slots.Below.duplicate {slots others : Slots} (below : slots.Below others) :
    (ActionCode.simulateInstruction (.basic .pushDuplicate) slots).1.Below
      (ActionCode.simulateInstruction (.basic .pushDuplicate) others).1 := by
  cases below with
  | nil others =>
    -- One unknown operand is pushed onto the stack that is empty.
    cases others with
    | nil => exact .refl _
    | cons top others => exact .cons (.inl rfl) (.nil _)
  | cons top rest => exact .cons top (.cons top rest)

theorem Slots.Below.simulateInstruction {slots others : Slots} (below : slots.Below others)
    (instruction : Instruction) :
    (ActionCode.simulateInstruction instruction slots).1.Below
      (ActionCode.simulateInstruction instruction others).1 := by
  cases instruction with
  | push value => exact .cons (.refl _) below
  | pushList values => exact below.pushAll values
  | basic op =>
    by_cases swaps : op = .stackSwap
    · subst swaps
      exact below.swap
    by_cases duplicates : op = .pushDuplicate
    · subst duplicates
      exact below.duplicate
    rw [simulateInstruction_basic duplicates swaps, simulateInstruction_basic duplicates swaps]
    exact below.applyFixed op
  | _ =>
    unfold ActionCode.simulateInstruction
    dsimp only
    split
    · exact below.applyFixed _
    · exact .refl []

/-- **The second action tells every count that the first one tells**, and is the same but for its code. -/
inductive Action.Told : Action → Action → Prop where
  | same (action : Action) : Told action action
  | define (signature : Signature) (body other : List Action) :
      Told (.define signature body) (.define signature other)
  | counted (op : CountedOp) {known found : Option Nat}
      (keeps : ∀ count, known = some count → found = some count) :
      Told (.plain (.counted op known)) (.plain (.counted op found))

namespace Action.Told

variable {action other : Action}

theorem label? (told : action.Told other) : action.label? = other.label? := by
  cases told <;> rfl

theorem branch? (told : action.Told other) : action.branch? = other.branch? := by
  cases told <;> rfl

theorem stops (told : action.Told other) : action.stops = other.stops := by
  cases told <;> rfl

theorem count (told : action.Told other) {op : CountedOp} {count : Nat}
    (isCounted : action = .plain (.counted op (some count))) : other = action := by
  subst isCounted
  cases told with
  | same => rfl
  | counted op keeps => rw [keeps count rfl]

end Action.Told

/-- What is made of an action on two stacks, one below the other. -/
structure ObservedBelow (observed other : Observation Slots Clearing) : Prop where
  slots : observed.state.Below other.state
  told : observed.action.Told other.action

/-- **Every action keeps the order of stacks**, and a count that is found on the first one is found on
the second. -/
theorem simulate_below {slots others : Slots} (below : slots.Below others) {action other : Action}
    (told : action.Told other) : ObservedBelow (simulate slots action) (simulate others other) := by
  have counted : ∀ (op : CountedOp) (known found : Option Nat),
      ObservedBelow (simulate slots (.plain (.counted op known)))
        (simulate others (.plain (.counted op found))) := by
    intro op known found
    unfold simulate
    dsimp only
    cases popped : popCounted op slots with
    | error clearing =>
      -- The first stack is given up, and no count is told.
      cases popCounted op others with
      | error _ => exact ⟨.nil _, .same _⟩
      | ok _ => exact ⟨.nil _, .counted op fun _ none => by cases none⟩
    | ok found =>
      obtain ⟨count, left⟩ := found
      obtain ⟨left', popped', rest⟩ := below.popCounted popped
      rw [popped']
      exact ⟨rest, .same _⟩
  have plain : ∀ {instruction : Instruction}, (∀ op count, instruction ≠ .counted op count) →
      ObservedBelow (simulate slots (.plain instruction)) (simulate others (.plain instruction)) := by
    intro instruction uncounted
    rw [simulate_of_uncounted uncounted, simulate_of_uncounted uncounted]
    exact ⟨below.simulateInstruction instruction, .same _⟩
  cases told with
  | define signature body other => exact ⟨.cons (.refl _) below, .define signature body other⟩
  | counted op keeps => exact counted op _ _
  | same =>
    cases action with
    | define signature body => exact ⟨.cons (.refl _) below, .same _⟩
    | marker found => exact ⟨below, .same _⟩
    | plain instruction =>
      cases instruction with
      | counted op known => exact counted op known known
      | _ => exact plain nofun

/-! ### Sequences -/

theorem inStep_told {actions others : List Action} (told : List.Forall₂ Action.Told actions others) :
    InStep simulate simulate (labelIndices actions) (labelIndices others) Slots.Below Action.Told
      ObservedBelow where
  examined below told := simulate_below below told
  state := ObservedBelow.slots
  flow made index :=
    successors_congr (getElem?_labelIndices_congr Action.Told.label? told) made.told.branch?
      made.told.stops index

/-- The code of definitions does not matter to what is told of a sequence. -/
theorem examinedInside_told (fewer more : Nat) (action : Action) :
    (action.examinedInside fewer).Told (action.examinedInside more) := by
  cases action with
  | plain instruction =>
    rw [Action.examinedInside, Action.examinedInside, examineCode_plain, examineCode_plain]
    exact .same _
  | define signature body =>
    rw [Action.examinedInside, Action.examinedInside, examineCode_define, examineCode_define]
    exact .define signature _ _
  | marker found =>
    rw [Action.examinedInside, Action.examinedInside, examineCode_marker, examineCode_marker]
    exact .same _

/-- What more seed slots tell of a sequence, its own actions alone. -/
theorem examine_told {fewer more : Nat} (le : fewer ≤ more) (actions : List Action) :
    List.Forall₂ Action.Told (examine actions fewer).actions (examine actions more).actions := by
  have inside : List.Forall₂ Action.Told (actions.map (Action.examinedInside fewer))
      (actions.map (Action.examinedInside more)) :=
    forall₂_map_same (examinedInside_told fewer more) actions
  rw [actions_examine, actions_examine]
  exact (inStep_told inside).traversed (Slots.unknowns_below le) inside ObservedBelow.told

/-- Wherever the first sequence has a counted action with a count, the second one has the same. -/
def CountsKept (code other : List Action) : Prop :=
  ∀ (index : Nat) (op : CountedOp) (count : Nat),
    code[index]? = some (.plain (.counted op (some count))) →
      other[index]? = some (.plain (.counted op (some count)))

theorem countsKept_of_told {code other : List Action} (told : List.Forall₂ Action.Told code other) :
    CountsKept code other := by
  intro index op count found
  induction told generalizing index with
  | nil => cases found
  | cons here _ ih =>
    cases index with
    | zero =>
      have equal := Option.some.inj found
      exact congrArg some ((here.count equal).trans equal)
    | succ index => exact ih index found

/-- **More seed slots never lose a count.** A counted action that is given its count is given the same
one if every sequence begins with more unknown operands, at every level. -/
theorem examine_keeps_counts {fewer more : Nat} (le : fewer ≤ more) (actions : List Action) :
    AtEveryLevel CountsKept (examine actions fewer).actions (examine actions more).actions := by
  intro path
  rw [codeAt?_examine, codeAt?_examine]
  cases codeAt? path actions with
  | none => exact .none
  | some code => exact .some (countsKept_of_told (examine_told le code))

/-- A call in the code of a definition, after which an array takes as many values as were there before,
and around it the same array. -/
def calledOnSeeds (called within around : Option Nat) : List Action :=
  [.define (.simple "f" []) [.plain (.push (.integer 0)), .plain (.push (.text "g")),
      .plain (.counted .callFunction called), .plain (.basic .stackSwap),
      .plain (.push (.integer 2)), .plain (.counted .initArray within)],
    .plain (.push (.integer 2)), .plain (.counted .initArray around)]

/-- Without seed slots the call alone is given its count, and with two of them the arrays are too. -/
theorem examine_keeps_counts_two :
    0 ≤ 2 ∧ AtEveryLevel CountsKept (calledOnSeeds (some 0) none none)
      (calledOnSeeds (some 0) (some 2) (some 2)) := by
  have kept := examine_keeps_counts (Nat.zero_le 2) (calledOnSeeds none none none)
  have without : (examine (calledOnSeeds none none none) 0).actions =
      calledOnSeeds (some 0) none none := by decide +kernel
  have seeded : (examine (calledOnSeeds none none none) 2).actions =
      calledOnSeeds (some 0) (some 2) (some 2) := by decide +kernel
  rw [without, seeded] at kept
  exact ⟨Nat.zero_le 2, kept⟩

end ActionCode
