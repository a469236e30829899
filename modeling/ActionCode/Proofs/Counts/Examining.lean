/-
**Examination enters counts only, and sees neither offsets nor sizes.**

* **`recastAll_examine`**: a sequence with its counts is the sequence, up to a cast that drops counts.
* **`examine_blank`**: sequences that differ in the offsets of labelled branches and in the sizes of
  blocks are given the same counts.
* **`assemble_examined`**: a sequence is assembled as if its counts had not been looked for.
-/

import ActionCode.Stack.Examination
import ActionCode.Proofs.Chunks.Grammar
import ActionCode.Proofs.Counts.Traversing
import ActionCode.Proofs.Derived.Measuring

namespace ActionCode

/-! ### Counts only -/

variable {cast : Instruction → Instruction}

/-- A cast drops counts. -/
def DropsCounts (cast : Instruction → Instruction) : Prop :=
  ∀ op count, cast (.counted op count) = cast (.counted op none)

theorem DropsCounts.simulate (drops : DropsCounts cast) (slots : Slots) (action : Action) :
    (ActionCode.simulate slots action).action.recast cast = action.recast cast := by
  refine view_simulate (fun op count => ?_) slots action
  rw [Action.recast, Action.recast, drops op count]

theorem map_examineAround (drops : DropsCounts cast) (seedSlots : Nat)
    (rows : Array (Action × List Clearing)) :
    recastAll cast (examineAround seedSlots rows).actions =
      rows.toList.map fun row => row.1.recast cast := by
  rw [recastAll_eq_map]
  show (traverse simulate (Slots.unknowns seedSlots) (rows.toList.map Prod.fst)).actions.map _ = _
  rw [map_traverse drops.simulate, List.map_map]
  rfl

mutual

theorem recast_examineCode (drops : DropsCounts cast) (seedSlots : Nat) :
    ∀ action : Action, (examineCode seedSlots action).1.recast cast = action.recast cast
  | .plain instruction => by
    rw [examineCode]
  | .define signature body => by
    have inner := map_examineCodeOf drops seedSlots #[] body
    rw [examineCode, Action.recast, Action.recast, map_examineAround drops, inner,
      recastAll_eq_map]
    rfl
  | .marker marker => by
    rw [examineCode]

theorem map_examineCodeOf (drops : DropsCounts cast) (seedSlots : Nat) :
    ∀ (done : Array (Action × List Clearing)) (actions : List Action),
      (examineCodeOf seedSlots done actions).toList.map (fun row => row.1.recast cast) =
        done.toList.map (fun row => row.1.recast cast) ++ actions.map (Action.recast cast)
  | done, [] => by
    rw [examineCodeOf, List.map_nil, List.append_nil]
  | done, action :: rest => by
    rw [examineCodeOf, map_examineCodeOf drops seedSlots _ rest, Array.toList_push,
      List.map_append, List.map_singleton, recast_examineCode drops seedSlots action,
      List.append_assoc]
    rfl

end

/-- **A sequence with its counts is the sequence**, up to a cast that drops counts. -/
theorem recastAll_examine (drops : DropsCounts cast) (actions : List Action) (seedSlots : Nat) :
    recastAll cast (examine actions seedSlots).actions = recastAll cast actions := by
  rw [examine, map_examineAround drops, map_examineCodeOf drops, recastAll_eq_map]
  rfl

theorem dropsCounts_essence : DropsCounts Instruction.essence := fun _ _ => rfl

theorem recastAll_examined (drops : DropsCounts cast) (settings : DisassemblySettings)
    (actions : List Action) :
    recastAll cast (settings.examined actions) = recastAll cast actions := by
  unfold DisassemblySettings.examined
  split
  · exact recastAll_examine drops actions settings.seedSlots
  · rfl

/-- **A sequence is assembled as if its counts had not been looked for.** -/
theorem assemble_examined (disassembly : DisassemblySettings) (assembly : AssemblySettings)
    (actions : List Action) :
    assemble assembly (disassembly.examined actions) = assemble assembly actions := by
  rw [← assemble_essence, recastAll_examined dropsCounts_essence, assemble_essence]

/-! ### Offsets and sizes -/

theorem simulateInstruction_blank (instruction : Instruction) (slots : Slots) :
    simulateInstruction instruction.blank slots = simulateInstruction instruction slots := by
  cases instruction with
  | block opened =>
    cases opened with
    | wait frame _ => cases frame <;> rfl
    | _ => rfl
  | branch jump =>
    obtain ⟨conditional, offset, label⟩ := jump
    cases label <;> cases conditional <;> rfl
  | _ => rfl

theorem Instruction.blank_eq_counted_iff {instruction : Instruction} {op : CountedOp}
    {count : Option Nat} : instruction.blank = .counted op count ↔ instruction = .counted op count := by
  cases instruction with
  | counted other found => exact Iff.rfl
  | _ => exact iff_of_false (fun same => by cases same) (fun same => by cases same)

/-- Looking for counts sees neither the offsets of labelled branches nor the sizes of blocks. -/
theorem transparent_blank : Transparent simulate (Action.recast Instruction.blank) where
  examined slots action := by
    cases action with
    | plain instruction =>
      by_cases counts : ∃ op count, instruction = .counted op count
      · obtain ⟨op, count, rfl⟩ := counts
        have kept : ∀ count, (Instruction.counted op count).blank = .counted op count := fun _ => rfl
        simp only [Action.recast, kept, simulate]
        cases popCounted op slots <;> simp only [Action.recast, kept]
      · have uncounted : ∀ op count, instruction ≠ .counted op count :=
          fun op count same => counts ⟨op, count, same⟩
        have uncounted' : ∀ op count, instruction.blank ≠ .counted op count :=
          fun op count same => uncounted op count (Instruction.blank_eq_counted_iff.mp same)
        rw [Action.recast, simulate_of_uncounted uncounted, simulate_of_uncounted uncounted',
          simulateInstruction_blank]
        dsimp only
        rw [Action.recast]
    | define signature body => simp only [Action.recast, simulate]
    | marker found => simp only [Action.recast, simulate]
  flow labels index action := by
    cases action with
    | plain instruction =>
      rw [Action.recast]
      cases instruction with
      | branch jump =>
        obtain ⟨conditional, offset, label⟩ := jump
        cases label <;> rfl
      | _ => rfl
    | define signature body =>
      rw [Action.recast]
      rfl
    | marker found =>
      rw [Action.recast]
  label := label?_recast _

/-- Rows with an action changed in each. -/
def blankRows (rows : Array (Action × List Clearing)) : Array (Action × List Clearing) :=
  rows.map (Prod.map (Action.recast Instruction.blank) id)

theorem examineAround_blank (seedSlots : Nat) (rows : Array (Action × List Clearing)) :
    examineAround seedSlots (blankRows rows) =
      ⟨recastAll Instruction.blank (examineAround seedSlots rows).actions,
        (examineAround seedSlots rows).clearings⟩ := by
  have actions : (blankRows rows).toList.map Prod.fst =
      (rows.toList.map Prod.fst).map (Action.recast Instruction.blank) := by
    rw [blankRows, Array.toList_map, List.map_map, List.map_map]
    rfl
  have inner : ∀ index : Nat, (blankRows rows)[index]? =
      rows[index]?.map (Prod.map (Action.recast Instruction.blank) id) := by
    intro index
    rw [blankRows, Array.getElem?_map]
  have traversed := transparent_blank.traverse (Slots.unknowns seedSlots)
    (rows.toList.map Prod.fst)
  rw [recastAll_eq_map]
  unfold examineAround
  dsimp only
  rw [actions, traversed]
  dsimp only
  rw [List.flatMap_map]
  refine congrArg (Examined.mk _) (congrArg (fun notes => List.flatMap notes _) ?_)
  funext visit
  have index : (Transparent.visit (Action.recast Instruction.blank) visit).index = visit.index := rfl
  refine congrArg (· ++ visit.observed.notes) ?_
  rw [index, inner]
  cases rows[visit.index]? <;> rfl

mutual

theorem examineCode_blank (seedSlots : Nat) : ∀ action : Action,
    examineCode seedSlots (action.recast Instruction.blank) =
      ((examineCode seedSlots action).1.recast Instruction.blank, (examineCode seedSlots action).2)
  | .plain instruction => by
    rw [Action.recast, examineCode, examineCode, Action.recast]
  | .define signature body => by
    have inner := examineCodeOf_blank seedSlots #[] body
    rw [blankRows, Array.map_empty] at inner
    rw [Action.recast, examineCode, examineCode, inner]
    dsimp only
    rw [examineAround_blank, Action.recast]
  | .marker marker => by
    rw [Action.recast, examineCode, Action.recast]

theorem examineCodeOf_blank (seedSlots : Nat) :
    ∀ (done : Array (Action × List Clearing)) (actions : List Action),
      examineCodeOf seedSlots (blankRows done) (recastAll Instruction.blank actions) =
        blankRows (examineCodeOf seedSlots done actions)
  | done, [] => by
    rw [recastAll, examineCodeOf, examineCodeOf]
  | done, action :: rest => by
    rw [recastAll, examineCodeOf, examineCodeOf, examineCode_blank seedSlots action,
      ← examineCodeOf_blank seedSlots _ rest, blankRows, blankRows, Array.map_push]
    rfl

end

/-- **Sequences that differ in offsets of labelled branches and in sizes of blocks are given the same
counts.** -/
theorem examine_blank (actions : List Action) (seedSlots : Nat) :
    (examine (recastAll Instruction.blank actions) seedSlots).actions =
      recastAll Instruction.blank (examine actions seedSlots).actions := by
  have inner := examineCodeOf_blank seedSlots #[] actions
  rw [blankRows, Array.map_empty] at inner
  rw [examine, inner, examineAround_blank]
  rfl

theorem examined_blank (settings : DisassemblySettings) {actions others : List Action}
    (same : recastAll Instruction.blank actions = recastAll Instruction.blank others) :
    recastAll Instruction.blank (settings.examined actions) =
      recastAll Instruction.blank (settings.examined others) := by
  unfold DisassemblySettings.examined
  split
  · rw [← examine_blank, same, examine_blank]
  · exact same

end ActionCode
