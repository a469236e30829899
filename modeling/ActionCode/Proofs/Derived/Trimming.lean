/-
**What assembly works out itself.**

* `Instruction.trimmed`: an instruction without what is never written of it: operand counts, and the
  flag bits that follow from other fields.
* **`WritesAlike.writeFrom_recastAll`**: a sequence is written as its trimmed one, byte for byte and
  fault for fault.
* `Instruction.measurable`, `Instruction.essence`: without sizes, and without the offsets of labelled
  branches as well.
-/

import ActionCode.Proofs.Bytes.Canon
import ActionCode.Proofs.Levels.Settling
import ActionCode.Proofs.Merging.Levels

namespace ActionCode

/-! ### What is not written -/

/-- An exception block without the bit that says where the caught value goes. -/
def TryBlock.trimmed (block : TryBlock) : TryBlock :=
  { block with flags := block.flags &&& ~~~TryFlag.caughtInRegister.mask }

/-- A block without flags that follow from other fields. -/
def Block.trimmed : Block → Block
  | .exception handlers => .exception handlers.trimmed
  | opened => opened

/-- An instruction without what is never written of it: an operand count, and flag bits that follow
from other fields. -/
def Instruction.trimmed : Instruction → Instruction
  | .counted op _ => .counted op none
  | .block opened => .block opened.trimmed
  | .gotoFrame2 flags bias => .gotoFrame2 (flags &&& ~~~biasBit) bias
  | instruction => instruction

/-- An instruction without what measuring blocks enters, and without what is never written. -/
def Instruction.measurable (instruction : Instruction) : Instruction := instruction.unsized.trimmed

/-- An instruction without anything that assembly works out itself: **labelled offsets, sizes, operand
counts, and the flag bits that follow from other fields**. -/
def Instruction.essence (instruction : Instruction) : Instruction := instruction.unaimed.measurable

/-- The register bit of the flags is written as the target says, whatever it was. -/
theorem TryBlock.writtenFlags_trimmed (block : TryBlock) :
    block.trimmed.writtenFlags = block.writtenFlags := by
  have set : ∀ bits : BitVec 8, bits &&& ~~~4 ||| 4 = bits ||| 4 := by decide
  have cleared : ∀ bits : BitVec 8, bits &&& ~~~4 &&& ~~~4 = bits &&& ~~~4 := by decide
  obtain ⟨flags, trySize, catchSize, finallySize, name | index⟩ := block
  · exact UInt8.toBitVec_inj.mp (cleared flags.toBitVec)
  · exact UInt8.toBitVec_inj.mp (set flags.toBitVec)

theorem Instruction.byte_trimmed (instruction : Instruction) :
    instruction.trimmed.byte = instruction.byte := by
  cases instruction with
  | block opened => cases opened <;> rfl
  | _ => rfl

theorem Instruction.layout_trimmed (instruction : Instruction) :
    instruction.trimmed.layout = instruction.layout := by
  cases instruction with
  | block opened =>
    cases opened with
    | exception handlers =>
      show (Instruction.block (.exception handlers.trimmed)).layout = _
      rw [layout, layout, TryBlock.writtenFlags_trimmed]
      rfl
    | _ => rfl
  | gotoFrame2 flags bias =>
    have set : ∀ bits : BitVec 8, bits &&& ~~~2 ||| 2 = bits ||| 2 := by decide
    have cleared : ∀ bits : BitVec 8, bits &&& ~~~2 &&& ~~~2 = bits &&& ~~~2 := by decide
    have set' : flags &&& ~~~biasBit ||| biasBit = flags ||| biasBit :=
      UInt8.toBitVec_inj.mp (set flags.toBitVec)
    have cleared' : flags &&& ~~~biasBit &&& ~~~biasBit = flags &&& ~~~biasBit :=
      UInt8.toBitVec_inj.mp (cleared flags.toBitVec)
    cases bias with
    | none => rw [trimmed, layout, layout, cleared']
    | some bias => rw [trimmed, layout, layout, set']
  | _ => rfl

theorem Instruction.bodyLength_trimmed (instruction : Instruction) :
    instruction.trimmed.bodyLength = instruction.bodyLength :=
  bodyLength_of_layout instruction.layout_trimmed

theorem Instruction.width_trimmed (instruction : Instruction) :
    instruction.trimmed.width = instruction.width := by
  rw [width_eq, width_eq, byte_trimmed, bodyLength_trimmed]

theorem Instruction.write_trimmed (instruction : Instruction) :
    instruction.trimmed.write = instruction.write := by
  unfold write
  rw [byte_trimmed, bodyLength_trimmed, layout_trimmed]

theorem keeps_trimmed : Keeps Instruction.trimmed where
  width := Instruction.width_trimmed
  push _ := rfl
  other instruction other := by
    cases instruction with
    | push value => cases other
    | _ => rfl

theorem keeps_measurable : Keeps Instruction.measurable where
  width instruction := (keeps_trimmed.width _).trans (keeps_unsized.width instruction)
  push _ := rfl
  other instruction other := keeps_trimmed.other _ (keeps_unsized.other instruction other)

theorem keeps_essence : Keeps Instruction.essence where
  width instruction := (keeps_measurable.width _).trans (keeps_unaimed.width instruction)
  push _ := rfl
  other instruction other := keeps_measurable.other _ (keeps_unaimed.other instruction other)

theorem Instruction.essence_blank (instruction : Instruction) :
    instruction.blank.essence = instruction.essence := by
  rw [essence, essence, measurable, measurable]
  exact congrArg trimmed (blank_blank instruction)

theorem sparesPushes_essence : SparesPushes Instruction.essence :=
  sparesPushes_of_pushed (fun _ => rfl) (fun _ => rfl) fun instruction => by
    cases instruction <;> rfl

/-! ### Writing -/

/-- A cast of instructions that are written alike. -/
structure WritesAlike (cast : Instruction → Instruction) : Prop extends Keeps cast where
  write : ∀ instruction, (cast instruction).write = instruction.write

theorem writesAlike_trimmed : WritesAlike Instruction.trimmed where
  toKeeps := keeps_trimmed
  write := Instruction.write_trimmed

/-- A run of pushes ends where another action comes. -/
theorem pushRun_other {action : Action} (other : action.isPush = false) (count bytes : Nat)
    (rest : List Action) : pushRun count bytes (action :: rest) = (count, bytes) := by
  cases action with
  | plain instruction =>
    cases instruction with
    | push value => cases other
    | _ => rfl
  | define signature body => rfl
  | marker marker => rfl

theorem isPush_recast {cast : Instruction → Instruction} (keeps : Keeps cast) {action : Action}
    (other : action.isPush = false) : (action.recast cast).isPush = false := by
  cases action with
  | plain instruction =>
    rw [Action.recast]
    exact keeps.other instruction other
  | define signature body =>
    rw [Action.recast]
    rfl
  | marker marker =>
    rw [Action.recast]
    rfl

variable {cast : Instruction → Instruction}

/-- Runs of pushes are as long as they were. -/
theorem Keeps.pushRun (keeps : Keeps cast) (count bytes : Nat) (actions : List Action) :
    ActionCode.pushRun count bytes (recastAll cast actions) =
      ActionCode.pushRun count bytes actions := by
  induction actions generalizing count bytes with
  | nil => rw [recastAll]
  | cons action rest ih =>
    rw [recastAll]
    rcases action.push_or_other with ⟨value, rfl⟩ | other
    · rw [Action.recast, keeps.push]
      exact ih _ _
    · rw [pushRun_other other, pushRun_other (isPush_recast keeps other)]

mutual

theorem WritesAlike.write_recast (alike : WritesAlike cast) :
    ∀ action : Action, (action.recast cast).write = action.write
  | .plain instruction => by
    rw [Action.recast, Action.write, Action.write, alike.write]
  | .define signature body => by
    rw [Action.recast, Action.write, Action.write, alike.writeFrom_recastAll false body,
      alike.encodedLength]
  | .marker marker => by
    rw [Action.recast]

/-- **A sequence is written as one whose instructions are written alike**, byte for byte and fault
for fault. -/
theorem WritesAlike.writeFrom_recastAll (alike : WritesAlike cast) :
    ∀ (inRun : Bool) (actions : List Action),
      writeFrom inRun (recastAll cast actions) = writeFrom inRun actions
  | inRun, [] => by
    rw [recastAll]
  | inRun, action :: rest => by
    have later := fun inRun => alike.writeFrom_recastAll inRun rest
    rw [recastAll]
    rcases action.push_or_other with ⟨value, rfl⟩ | other
    · rw [Action.recast, alike.push, writeFrom_push, writeFrom_push, alike.pushRun, later]
    · rw [writeFrom_cons other, writeFrom_cons (isPush_recast alike.toKeeps other),
        alike.write_recast action, later]

end

end ActionCode
