/-
**Instructions and what they are read back as.**

* **`Instruction.image_canon`**: an instruction is read back as one with the same bytes.
* `Instruction.canon_canon`: and that one is read back as it is.
* `Block.ends_canon`: blocks are read back with the same spans and closings.
-/

import ActionCode.Proofs.Bytes.Steps
import ActionCode.Proofs.Blocks.Closings

namespace ActionCode

/-! ### Blocks -/

/-- An exception block as it is read back; other blocks stay. -/
def Block.canon : Block → Block
  | .exception handlers => .exception { handlers with flags := handlers.writtenFlags }
  | opened => opened

theorem Instruction.canon_block (opened : Block) :
    (Instruction.block opened).canon = .block opened.canon := by
  cases opened <;> rfl

/-- The register bit does not say whether there is a handler or a cleanup. -/
theorem TryBlock.containsAll_writtenFlags (block : TryBlock) {mask : UInt8}
    (apart : mask = TryFlag.handler.mask ∨ mask = TryFlag.cleanup.mask) :
    TryFlags.containsAll block.writtenFlags mask = TryFlags.containsAll block.flags mask := by
  have set : ∀ flags : BitVec 8, ((flags ||| 4) &&& 1) = flags &&& 1 ∧
      ((flags ||| 4) &&& 2) = flags &&& 2 := by decide
  have cleared : ∀ flags : BitVec 8, ((flags &&& ~~~4) &&& 1) = flags &&& 1 ∧
      ((flags &&& ~~~4) &&& 2) = flags &&& 2 := by decide
  have same : block.writtenFlags &&& mask = block.flags &&& mask := by
    obtain ⟨flags, trySize, catchSize, finallySize, name | index⟩ := block
    · rcases apart with rfl | rfl
      · exact UInt8.toBitVec_inj.mp (cleared flags.toBitVec).1
      · exact UInt8.toBitVec_inj.mp (cleared flags.toBitVec).2
    · rcases apart with rfl | rfl
      · exact UInt8.toBitVec_inj.mp (set flags.toBitVec).1
      · exact UInt8.toBitVec_inj.mp (set flags.toBitVec).2
  rw [TryFlags.containsAll, TryFlags.containsAll, same]

/-- Blocks are read back with the same closings. -/
theorem Block.ends_canon (block : Block) : block.canon.ends = block.ends := by
  cases block with
  | exception handlers =>
    have catches := handlers.containsAll_writtenFlags (.inl rfl)
    have cleans := handlers.containsAll_writtenFlags (.inr rfl)
    have hasCatch : TryBlock.hasCatch { handlers with flags := handlers.writtenFlags } =
        handlers.hasCatch := congrArg (· || decide (0 < handlers.catchSize.toNat)) catches
    have hasFinally : TryBlock.hasFinally { handlers with flags := handlers.writtenFlags } =
        handlers.hasFinally := congrArg (· || decide (0 < handlers.finallySize.toNat)) cleans
    rw [canon, ends, ends, hasCatch, hasFinally]
  | _ => rfl

theorem Block.canon_canon (block : Block) : block.canon.canon = block.canon := by
  cases block with
  | exception handlers =>
    have same := TryBlock.writtenFlags_of_read handlers.isRegister_of_writtenFlags
      handlers.trySize handlers.catchSize handlers.finallySize
    simp only [canon, same]
  | _ => rfl

/-! ### Instructions -/

theorem Instruction.canon_canon (instruction : Instruction) :
    instruction.canon.canon = instruction.canon := by
  cases instruction with
  | block opened => rw [canon_block, canon_block, Block.canon_canon]
  | gotoFrame2 flags bias =>
    cases bias with
    | none =>
      have same := and_biasBit (biasBit_cleared flags)
      simp only [canon, same]
    | some bias =>
      have same := or_biasBit (biasBit_set flags)
      simp only [canon, same]
  | _ => rfl

theorem Instruction.Readable.canon {instruction : Instruction} (readable : instruction.Readable) :
    instruction.canon.Readable := by
  cases instruction with
  | block opened => rw [Instruction.canon_block]; trivial
  | gotoFrame2 flags bias => cases bias <;> trivial
  | basic op => exact readable
  | unknown value payload => exact readable
  | _ => trivial

theorem Instruction.byte_canon (instruction : Instruction) :
    instruction.canon.byte = instruction.byte := by
  cases instruction with
  | block opened =>
    rw [canon_block]
    rcases opened with size | ⟨frame | _, skipCount⟩ | handlers <;> rfl
  | gotoFrame2 flags bias => cases bias <;> rfl
  | _ => rfl

theorem Instruction.layout_canon (instruction : Instruction) :
    instruction.canon.layout = instruction.layout := by
  cases instruction with
  | block opened =>
    rw [canon_block]
    rcases opened with size | ⟨frame | _, skipCount⟩ | handlers
    · rfl
    · rfl
    · rfl
    · have same := TryBlock.writtenFlags_of_read handlers.isRegister_of_writtenFlags
        handlers.trySize handlers.catchSize handlers.finallySize
      simp only [Block.canon, layout, same]
  | gotoFrame2 flags bias =>
    cases bias with
    | none =>
      have same := and_biasBit (biasBit_cleared flags)
      simp only [canon, layout, same]
    | some bias =>
      have same := or_biasBit (biasBit_set flags)
      simp only [canon, layout, same]
  | push value => exact List.append_nil _
  | _ => rfl

/-- **An instruction is read back as one with the same bytes.** -/
theorem Instruction.image_canon (instruction : Instruction) :
    instruction.canon.image = instruction.image := by
  rw [image, image, head, head, byte_canon, layout_canon,
    bodyLength_of_layout instruction.layout_canon]

end ActionCode
