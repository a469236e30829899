/-
**What less room for definitions changes.**

* `Narrowed`: with less room comes the same, or a definition lies too deep; and then what comes with
  more room, if something does, nests deeper than the lesser room.
* **`nextStep_narrowed`**: one step. **`decodeFrom_narrowed`**: the rows of a block, by the steps.
* **`disassemble_narrowed`**: a buffer.
-/

import ActionCode.Proofs.Counts.Examining
import ActionCode.Proofs.Depth.Nesting
import ActionCode.Proofs.RoundTrip.Labelling

namespace ActionCode

variable {limit room : Nat}

/-! ### Steps -/

/-- A known opcode makes the same step with less room, or it begins a definition that lies too
deep. -/
theorem knownStep_narrowed (within : limit ≤ room) (depth : Nat) (op : Opcode) (offset : Nat)
    (block after : Cursor) :
    knownStep room depth op offset block after = knownStep limit depth op offset block after ∨
      limit < depth + 1 ∧
        knownStep limit depth op offset block after = .error (.tooDeep offset limit) ∧
        ∀ instruction next,
          knownStep room depth op offset block after ≠ .ok (.instruction instruction next) := by
  unfold knownStep
  cases (Body.read op).at block with
  | error fault => exact .inl rfl
  | ok found =>
    obtain ⟨body, stop⟩ := found
    cases body with
    | instruction instruction => exact .inl rfl
    | definition signature codeSize =>
      simp only [bind, Except.bind, pure, Except.pure, throw, throwThe, MonadExceptOf.throw]
      by_cases deep : limit < depth + 1
      · refine .inr ⟨deep, by rw [if_pos deep], fun instruction next => ?_⟩
        split
        · exact nofun
        · split
          · exact nofun
          · exact nofun
      · rw [if_neg deep, if_neg (by omega)]
        exact .inl rfl

/-- **A step is the same with less room, or it goes into a definition that lies too deep.** -/
theorem nextStep_narrowed (within : limit ≤ room) (depth : Nat) (cursor : Cursor) :
    nextStep room depth cursor = nextStep limit depth cursor ∨
      limit < depth + 1 ∧ nextStep limit depth cursor = .error (.tooDeep cursor.offset limit) ∧
        ∀ instruction next, nextStep room depth cursor ≠ .ok (.instruction instruction next) := by
  unfold nextStep
  cases Reader.byte.at cursor with
  | error fault => exact .inl rfl
  | ok found =>
    obtain ⟨opcode, afterOpcode⟩ := found
    simp only [bind, Except.bind, pure, Except.pure]
    by_cases short : opcode < bodyThreshold
    · simp [short]
    · rw [if_neg short, if_neg short]
      cases readBlock.at afterOpcode with
      | error fault => exact .inl rfl
      | ok found =>
        obtain ⟨block, after⟩ := found
        cases Opcode.ofByte? opcode with
        | none => exact .inl rfl
        | some op => exact knownStep_narrowed within depth op cursor.offset block after

/-- The code of a definition is a block of its own. -/
theorem position_of_nextStep {depth : Nat} {cursor code next : Cursor} {signature : Signature}
    {leftover : Option ReadFault}
    (found : nextStep limit depth cursor = .ok (.definition signature code next leftover)) :
    code.position = 0 := by
  obtain ⟨_, _, _, isCode⟩ := code_of_nextStep found
  rw [isCode]
  rfl

/-! ### Blocks -/

/-- What comes with less room, and what comes with more: the same, or a definition lies too deep, and
what comes with more room is deep. -/
inductive Narrowed {α : Type} (limit : Nat) (deep : α → Prop)
    (wide : EStateM.Result DisassemblyFault Progress α) :
    EStateM.Result DisassemblyFault Progress α → Prop
  | same : Narrowed limit deep wide wide
  | tooDeep (offset : Nat) (progress : Progress)
      (isDeep : ∀ value after, wide = .ok value after → deep value) :
      Narrowed limit deep wide (.error (.tooDeep offset limit) progress)

/-- Rows `depth` definitions deep nest deeper than the limit. -/
def RowsDeep (limit depth : Nat) (rows : List Located) : Prop :=
  limit < depth + nesting (rows.map Located.action)

theorem RowsDeep.of_mem {depth : Nat} {rows : List Located} {row : Located} (inside : row ∈ rows)
    (deep : limit < depth + row.action.nesting) : RowsDeep limit depth rows := by
  have here := nesting_le_of_mem (List.mem_map_of_mem (f := Located.action) inside)
  unfold RowsDeep
  omega

/-- A row that has been decoded is among those of the whole block. -/
theorem mem_of_decodeFrom {depth : Nat} {done : Array Located} {row : Located} {cursor : Cursor}
    {progress after : Progress} {rows : List Located}
    (success : decodeFrom room depth (done.push row) cursor progress = .ok rows after) :
    row ∈ rows := by
  obtain ⟨own, rfl, -⟩ := exists_decodes success
  simp

/-- Rows nest deeper than the limit if the code of the definition that they begin with does. -/
theorem RowsDeep.of_definition {depth : Nat} {done : Array Located} {cursor code next : Cursor}
    {progress after : Progress} {signature : Signature} {leftover : Option ReadFault}
    {rows : List Located} (nonempty : ¬ cursor.isEmpty = true)
    (found : nextStep room depth cursor = .ok (.definition signature code next leftover))
    (deep : ∀ body middle, disassembleBlock room (depth + 1) code progress = .ok body middle →
      limit < depth + 1 + nesting body)
    (success : decodeFrom room depth done cursor progress = .ok rows after) :
    RowsDeep limit depth rows := by
  rw [decodeFrom_of_definition nonempty found] at success
  cases finishes : disassembleBlock room (depth + 1) code progress with
  | error fault middle =>
    rw [finishes] at success
    cases success
  | ok body middle =>
    rw [finishes] at success
    cases leftover with
    | some fault => cases success
    | none =>
      have inner := deep body middle finishes
      refine .of_mem (mem_of_decodeFrom success) ?_
      change limit < depth + (Action.define signature body).nesting
      rw [Action.nesting_define]
      omega

/-- The actions of a block nest as deep as its rows. -/
theorem nesting_of_finishSequence {depth : Nat} {cursor : Cursor} {progress middle after : Progress}
    {rows : List Located} {actions : List Action}
    (decodes : Decodes room depth cursor progress rows middle) (front : cursor.position = 0)
    (finishes : finishSequence cursor.region rows middle = .ok actions after) :
    nesting actions = nesting (rows.map Located.action) := by
  obtain ⟨real, finishable, rfl, -⟩ := decodes.finished front finishes
  apply nesting_of_bodies
  rw [bodiesOf_finished real finishable.fit, List.map_map]
  rfl

/-- A block is finished alike if its rows are the same. -/
theorem Narrowed.finish {depth : Nat} {cursor : Cursor} {progress : Progress}
    (front : cursor.position = 0)
    (rows : Narrowed limit (RowsDeep limit depth) (decodeFrom room depth #[] cursor progress)
      (decodeFrom limit depth #[] cursor progress)) :
    Narrowed limit (fun actions => limit < depth + nesting actions)
      (disassembleBlock room depth cursor progress)
      (disassembleBlock limit depth cursor progress) := by
  unfold disassembleBlock
  generalize decodeFrom limit depth #[] cursor progress = narrow at rows
  cases rows with
  | same => exact .same
  | tooDeep offset last isDeep =>
    refine .tooDeep offset last fun actions after finishes => ?_
    obtain ⟨rows, middle, decodes, finishes⟩ := disassembleBlock_ok_iff.mp finishes
    rw [nesting_of_finishSequence decodes front finishes]
    exact isDeep rows middle (decodeFrom_ok_iff.mpr decodes)

/-- Where a definition lies too deep for one limit, more room is for deeper rows only. -/
theorem narrowed_of_lies {depth : Nat} {done : Array Located} {cursor : Cursor} {progress : Progress}
    (nonempty : ¬ cursor.isEmpty = true) (deep : limit < depth + 1)
    (lies : nextStep limit depth cursor = .error (.tooDeep cursor.offset limit))
    (moves : ∀ instruction next, nextStep room depth cursor ≠ .ok (.instruction instruction next)) :
    Narrowed limit (RowsDeep limit depth) (decodeFrom room depth done cursor progress)
      (decodeFrom limit depth done cursor progress) := by
  rw [decodeFrom_fault nonempty lies]
  refine .tooDeep cursor.offset progress fun rows after success => ?_
  cases found : nextStep room depth cursor with
  | error fault =>
    rw [decodeFrom_fault nonempty found] at success
    cases success
  | ok step =>
    cases step with
    | instruction instruction next => exact absurd found (moves instruction next)
    | definition signature code next leftover =>
      exact .of_definition nonempty found (fun body middle _ => by omega) success

/-- **Rows are the same with less room, or a definition lies too deep**, and then with more room the
rows nest deeper than the limit. -/
theorem decodeFrom_narrowed (within : limit ≤ room) (depth : Nat) (done : Array Located)
    (cursor : Cursor) (progress : Progress) :
    Narrowed limit (RowsDeep limit depth) (decodeFrom room depth done cursor progress)
      (decodeFrom limit depth done cursor progress) := by
  fun_induction chunksFrom limit depth cursor generalizing done progress with
  | case1 depth cursor empty =>
    rw [decodeFrom_empty empty, decodeFrom_empty empty]
    exact .same
  | case2 depth cursor nonempty fault found =>
    obtain same | ⟨deep, lies, moves⟩ := nextStep_narrowed within depth cursor
    · rw [decodeFrom_fault nonempty (same.trans found), decodeFrom_fault nonempty found]
      exact .same
    · exact narrowed_of_lies nonempty deep lies moves
  | case3 depth cursor nonempty instruction next found ih =>
    obtain same | ⟨_, lies, _⟩ := nextStep_narrowed within depth cursor
    · rw [decodeFrom_instruction nonempty (same.trans found), decodeFrom_instruction nonempty found]
      exact ih _ progress
    · rw [found] at lies
      cases lies
  | case4 depth cursor nonempty signature code next leftover found ih₁ ih₂ =>
    obtain same | ⟨_, lies, _⟩ := nextStep_narrowed within depth cursor
    · have block := (ih₁ #[] progress).finish (position_of_nextStep found)
      rw [decodeFrom_of_definition nonempty (same.trans found),
        decodeFrom_of_definition nonempty found]
      generalize disassembleBlock limit (depth + 1) code progress = narrow at block
      cases block with
      | same =>
        cases disassembleBlock room (depth + 1) code progress with
        | error fault after => exact .same
        | ok body after =>
          cases leftover with
          | some fault => exact .same
          | none => exact ih₂ _ after
      | tooDeep offset last isDeep =>
        refine .tooDeep offset last fun rows after success => ?_
        rw [← decodeFrom_of_definition nonempty (same.trans found)] at success
        exact .of_definition nonempty (same.trans found) isDeep success
    · rw [found] at lies
      cases lies

/-! ### Buffers -/

theorem nesting_examined (settings : DisassemblySettings) (actions : List Action) :
    nesting (settings.examined actions) = nesting actions := by
  have same := recastAll_examined dropsCounts_essence settings actions
  rw [nesting, ← nestingFrom_recastAll Instruction.essence, same, nestingFrom_recastAll]
  rfl

/-- **A buffer is disassembled alike with less room, or a definition lies too deep**, and then with
more room the actions nest deeper than the limit. -/
theorem disassemble_narrowed (settings : DisassemblySettings) (within : settings.maxDepth ≤ room)
    (bytes : List UInt8) :
    disassemble { settings with maxDepth := room } bytes = disassemble settings bytes ∨
      (∃ offset, (disassemble settings bytes).result = .error (.tooDeep offset settings.maxDepth)) ∧
        ∀ actions, (disassemble { settings with maxDepth := room } bytes).result = .ok actions →
          settings.maxDepth < nesting actions := by
  have block := (decodeFrom_narrowed within 0 #[] (Cursor.start 0 bytes) ⟨0, #[]⟩).finish rfl
  simp only [disassemble_eq_ok_iff, disassemble_eq_error_iff]
  generalize narrow : disassembleBlock settings.maxDepth 0 (Cursor.start 0 bytes) ⟨0, #[]⟩ = result
    at block
  cases block with
  | same =>
    left
    unfold disassemble
    rw [narrow]
  | tooDeep offset progress isDeep =>
    right
    refine ⟨⟨offset, progress, rfl⟩, ?_⟩
    rintro _ ⟨plain, after, success, rfl⟩
    have deep := isDeep plain after success
    rw [Nat.zero_add] at deep
    rwa [nesting_examined]

end ActionCode
