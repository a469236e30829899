/-
**Blocks that are decoded.**

* `decodeFrom_empty`, `decodeFrom_nonempty`: decoding, one step at a time; `decodeFrom_fault`,
  `decodeFrom_instruction`, `decodeFrom_definition` for each kind of step.
* `Decodes`: the rows that a block is decoded into without a fault, those of the code of a definition
  before those that follow it. **`decodeFrom_ok_iff`**: these are the rows that decoding ends with.
* `disassembleBlock_ok_iff`: they are finished into the actions of the block.
-/

import ActionCode.Disassembly.Sequence

namespace ActionCode

/-! ### Steps -/

theorem decodeFrom_empty {cursor : Cursor} (empty : cursor.isEmpty = true) (maxDepth depth : Nat)
    (done : Array Located) (progress : Progress) :
    decodeFrom maxDepth depth done cursor progress = .ok done.toList progress := by
  rw [decodeFrom, if_pos empty]

/-- What is left of a block is decoded from its next step on. The code of a definition comes first. -/
theorem decodeFrom_nonempty {maxDepth depth : Nat} {cursor : Cursor}
    (nonempty : ¬ cursor.isEmpty = true) (done : Array Located) (progress : Progress) :
    decodeFrom maxDepth depth done cursor progress =
      match nextStep maxDepth depth cursor with
      | .error fault => .error fault progress
      | .ok (.instruction instruction next) =>
        decodeFrom maxDepth depth (done.push (.between (.plain instruction) cursor next)) next
          progress
      | .ok (.definition signature code next leftover) =>
        match disassembleBlock maxDepth (depth + 1) code progress with
        | .error fault progress => .error fault progress
        | .ok body progress =>
          match leftover with
          | some fault => .error (.read fault) progress
          | none =>
            decodeFrom maxDepth depth (done.push (.between (.define signature body) cursor next)) next
              progress := by
  rw [decodeFrom, if_neg nonempty]
  split
  · next found => rw [found]
  · next found => rw [found]
  · next signature code next leftover found =>
    -- The step is replaced on the right only: on the left the match depends on `found`.
    conv => rhs; rw [found]
    dsimp only [disassembleBlock]
    cases decodeFrom maxDepth (depth + 1) #[] code progress with
    | error fault progress => rfl
    | ok rows progress =>
      dsimp only
      cases finishSequence code.region rows progress with
      | error fault progress => rfl
      | ok body progress => cases leftover <;> rfl

theorem decodeFrom_fault {maxDepth depth : Nat} {cursor : Cursor} {fault : DisassemblyFault}
    (nonempty : ¬ cursor.isEmpty = true)
    (found : nextStep maxDepth depth cursor = .error fault) (done : Array Located)
    (progress : Progress) :
    decodeFrom maxDepth depth done cursor progress = .error fault progress := by
  rw [decodeFrom_nonempty nonempty, found]

theorem decodeFrom_instruction {maxDepth depth : Nat} {cursor next : Cursor}
    {instruction : Instruction} (nonempty : ¬ cursor.isEmpty = true)
    (found : nextStep maxDepth depth cursor = .ok (.instruction instruction next))
    (done : Array Located) (progress : Progress) :
    decodeFrom maxDepth depth done cursor progress =
      decodeFrom maxDepth depth (done.push (.between (.plain instruction) cursor next)) next
        progress := by
  rw [decodeFrom_nonempty nonempty, found]

/-- What is left of a block from a definition on: its code comes first. -/
theorem decodeFrom_of_definition {maxDepth depth : Nat} {cursor code next : Cursor}
    {signature : Signature} {leftover : Option ReadFault} (nonempty : ¬ cursor.isEmpty = true)
    (found : nextStep maxDepth depth cursor = .ok (.definition signature code next leftover))
    (done : Array Located) (progress : Progress) :
    decodeFrom maxDepth depth done cursor progress =
      match disassembleBlock maxDepth (depth + 1) code progress with
      | .error fault progress => .error fault progress
      | .ok body progress =>
        match leftover with
        | some fault => .error (.read fault) progress
        | none =>
          decodeFrom maxDepth depth (done.push (.between (.define signature body) cursor next)) next
            progress := by
  rw [decodeFrom_nonempty nonempty]
  cases leftover <;> simp only [found]

theorem decodeFrom_definition {maxDepth depth : Nat} {cursor code next : Cursor}
    {signature : Signature} (nonempty : ¬ cursor.isEmpty = true)
    (found : nextStep maxDepth depth cursor = .ok (.definition signature code next none))
    {progress middle after : Progress} {rows : List Located} {body : List Action}
    (decoded : decodeFrom maxDepth (depth + 1) #[] code progress = .ok rows middle)
    (finishes : finishSequence code.region rows middle = .ok body after) (done : Array Located) :
    decodeFrom maxDepth depth done cursor progress =
      decodeFrom maxDepth depth (done.push (.between (.define signature body) cursor next)) next
        after := by
  rw [decodeFrom_of_definition nonempty found, disassembleBlock, decoded]
  dsimp only
  rw [finishes]

/-! ### Blocks -/

/-- What is left of a block is decoded into rows without a fault, if it lies `depth` definitions
deep. -/
inductive Decodes (maxDepth : Nat) :
    Nat → Cursor → Progress → List Located → Progress → Prop where
  | ended {depth : Nat} {cursor : Cursor} (empty : cursor.isEmpty = true) (progress : Progress) :
    Decodes maxDepth depth cursor progress [] progress
  | instruction {depth : Nat} {cursor next : Cursor} {progress after : Progress}
      {instruction : Instruction} {rows : List Located} (nonempty : ¬ cursor.isEmpty = true)
      (found : nextStep maxDepth depth cursor = .ok (.instruction instruction next))
      (later : Decodes maxDepth depth next progress rows after) :
    Decodes maxDepth depth cursor progress (.between (.plain instruction) cursor next :: rows) after
  | definition {depth : Nat} {cursor code next : Cursor} {progress middle last after : Progress}
      {signature : Signature} {inner rows : List Located} {body : List Action}
      (nonempty : ¬ cursor.isEmpty = true)
      (found : nextStep maxDepth depth cursor = .ok (.definition signature code next none))
      (inside : Decodes maxDepth (depth + 1) code progress inner middle)
      (finishes : finishSequence code.region inner middle = .ok body last)
      (later : Decodes maxDepth depth next last rows after) :
    Decodes maxDepth depth cursor progress (.between (.define signature body) cursor next :: rows)
      after

section

variable {maxDepth depth : Nat} {cursor : Cursor} {progress after : Progress} {rows : List Located}

/-- A block is decoded in the same way after any rows. -/
theorem Decodes.decodeFrom_eq (decodes : Decodes maxDepth depth cursor progress rows after)
    (done : Array Located) :
    decodeFrom maxDepth depth done cursor progress = .ok (done.toList ++ rows) after := by
  induction decodes generalizing done with
  | ended empty progress => rw [decodeFrom_empty empty, List.append_nil]
  | instruction nonempty found _ ih =>
    rw [decodeFrom_instruction nonempty found, ih, Array.toList_push, List.append_assoc]
    rfl
  | definition nonempty found _ finishes _ inner ih =>
    rw [decodeFrom_definition nonempty found (inner #[]) finishes, ih, Array.toList_push,
      List.append_assoc]
    rfl

/-- Decoding puts the rows of a block behind those there are. -/
theorem exists_decodes {done : Array Located}
    (success : decodeFrom maxDepth depth done cursor progress = .ok rows after) :
    ∃ own, rows = done.toList ++ own ∧ Decodes maxDepth depth cursor progress own after := by
  fun_induction decodeFrom maxDepth depth done cursor progress generalizing rows after with
  | case1 depth done cursor progress empty =>
    cases success
    exact ⟨[], (List.append_nil _).symm, .ended empty progress⟩
  | case2 => cases success
  | case3 depth done cursor progress nonempty instruction next found ih =>
    obtain ⟨own, rfl, later⟩ := ih success
    refine ⟨_, ?_, .instruction nonempty found later⟩
    rw [Array.toList_push, List.append_assoc]
    rfl
  | case4 => cases success
  | case5 => cases success
  | case6 => cases success
  | case7 depth done cursor progress nonempty signature code next inner middle decoded body last
      finishes found _ ih₁ ih₂ =>
    obtain ⟨_, rfl, inside⟩ := ih₁ decoded
    obtain ⟨own, rfl, later⟩ := ih₂ success
    refine ⟨_, ?_, .definition nonempty found inside finishes later⟩
    rw [Array.toList_push, List.append_assoc]
    rfl

/-- **Decoding ends without a fault exactly for blocks that are decoded.** -/
theorem decodeFrom_ok_iff :
    decodeFrom maxDepth depth #[] cursor progress = .ok rows after ↔
      Decodes maxDepth depth cursor progress rows after := by
  constructor
  · intro success
    obtain ⟨own, same, decodes⟩ := exists_decodes success
    obtain rfl : rows = own := same
    exact decodes
  · exact fun decodes => decodes.decodeFrom_eq #[]

/-- A block is decoded, and its rows are finished. -/
theorem disassembleBlock_ok_iff {actions : List Action} :
    disassembleBlock maxDepth depth cursor progress = .ok actions after ↔
      ∃ rows middle, Decodes maxDepth depth cursor progress rows middle ∧
        finishSequence cursor.region rows middle = .ok actions after := by
  simp only [← decodeFrom_ok_iff]
  unfold disassembleBlock
  cases decodeFrom maxDepth depth #[] cursor progress with
  | error fault middle => exact ⟨nofun, nofun⟩
  | ok rows middle =>
    constructor
    · exact fun finishes => ⟨rows, middle, rfl, finishes⟩
    · rintro ⟨_, _, ⟨⟩, finishes⟩
      exact finishes

end

end ActionCode
