/-
**Instructions: the actions that hold no code of their own.**

* `Branch`, `Block`: the actions that move control, and those that span some of the actions after
  them.
* `Instruction`: every action but function definitions and markers.
* `Instruction.layout`: the fields after the opcode and the length. **Fields that follow from other
  ones are not stored**: the register bit of an exception block comes from where the caught value
  goes, and the bias bit of `GotoFrame2` from whether there is a bias.
* `Instruction.bodyLength`, `Instruction.width`: the lengths, **tables beside the layout** that are
  known before anything is written. `Instruction.totalWidth_layout`: they fit it.
-/

import ActionCode.Opcode
import ActionCode.PushValue

namespace ActionCode

/-! ### Branches and blocks -/

/-- A jump, or a branch taken if the popped condition is true. -/
structure Branch where
  conditional : Bool
  /-- Bytes from the end of the branch to its target. -/
  offset : Int16
  /-- The target, once it is known; the offset then follows from it. -/
  label : Option Label
deriving DecidableEq

/-- The bytes of an opcode and a 16-bit length. -/
def headWidth : Nat := 3

/-- The bytes a branch takes: opcode, length and offset. Offsets count from there. -/
def Branch.width : Nat := 5

/-- The opcode of a branch. -/
def Branch.opcode (branch : Branch) : Opcode := if branch.conditional then .ifTrue else .jump

/-- Where a caught value goes. -/
inductive CatchTarget where
  | variable (name : String)
  | register (index : Register)
deriving DecidableEq

/-- An exception block: the bytes of its three spans, which follow one another. -/
structure TryBlock where
  flags : UInt8
  trySize : UInt16
  catchSize : UInt16
  finallySize : UInt16
  target : CatchTarget
deriving DecidableEq

namespace TryBlock

/-- A handler is there if it is flagged or not empty. -/
def hasCatch (block : TryBlock) : Bool :=
  TryFlags.containsAll block.flags TryFlag.handler.mask || decide (0 < block.catchSize.toNat)

/-- A cleanup is there if it is flagged or not empty. -/
def hasFinally (block : TryBlock) : Bool :=
  TryFlags.containsAll block.flags TryFlag.cleanup.mask || decide (0 < block.finallySize.toNat)

/-- The flags as they are written: the register bit says where the caught value goes. -/
def writtenFlags (block : TryBlock) : UInt8 :=
  match block.target with
  | .register _ => block.flags ||| TryFlag.caughtInRegister.mask
  | .variable _ => block.flags &&& ~~~TryFlag.caughtInRegister.mask

/-- The declared length of an exception block. -/
def bodyLength (block : TryBlock) : Nat :=
  7 + match block.target with
    | .variable name => name.utf8ByteSize + 1
    | .register _ => 1

end TryBlock

/-- An action that spans some of the actions after it. -/
inductive Block where
  /-- The scope of an object: a span of bytes. -/
  | scope (size : UInt16)
  /-- What is skipped until a frame is loaded: a span of records. The frame is popped if it is not
  given. -/
  | wait (frame : Option UInt16) (skipCount : UInt8)
  | exception (block : TryBlock)
deriving DecidableEq

/-- The opcode of a block. -/
def Block.opcode : Block → Opcode
  | .scope _ => .withScope
  | .wait (some _) _ => .waitForFrame
  | .wait none _ => .waitForFrame2
  | .exception _ => .tryBlock

/-! ### Instructions -/

/-- An action without code of its own. -/
inductive Instruction where
  /-- An opcode and nothing else. -/
  | basic (op : Opcode)
  /-- The count is known once the operand stack has been followed up to here. -/
  | counted (op : CountedOp) (count : Option Nat)
  | gotoFrame (frame : UInt16)
  | getUrl (url target : String)
  | storeRegister (register : Register)
  | constantPool (constants : List String)
  | setTarget (target : String)
  | goToLabel (frameLabel : String)
  | block (block : Block)
  | push (value : PushValue)
  | pushList (values : List PushValue)
  | branch (branch : Branch)
  | getUrl2 (flags : UInt8)
  | call
  | gotoFrame2 (flags : UInt8) (sceneBias : Option UInt16)
  /-- Kept byte for byte. -/
  | unknown (opcode : UInt8) (payload : List UInt8)
deriving DecidableEq

namespace Instruction

/-- The instruction of an opcode that comes without a body. -/
def ofOpcode (op : Opcode) : Instruction :=
  match CountedOp.ofOpcode? op with
  | some family => .counted family none
  | none => if op = .call then .call else .basic op

/-- The instruction of a single byte. -/
def ofByte (value : UInt8) : Instruction :=
  match Opcode.ofByte? value with
  | some op => ofOpcode op
  | none => .unknown value []

/-- The opcode of an instruction, or the byte of an unknown one. -/
def opcode : Instruction → Except UInt8 Opcode
  | .basic op => .ok op
  | .counted op _ => .ok op.opcode
  | .gotoFrame _ => .ok .gotoFrame
  | .getUrl _ _ => .ok .getUrl
  | .storeRegister _ => .ok .storeRegister
  | .constantPool _ => .ok .constantPool
  | .setTarget _ => .ok .setTarget
  | .goToLabel _ => .ok .goToLabel
  | .block opened => .ok opened.opcode
  | .push _ | .pushList _ => .ok .push
  | .branch jump => .ok jump.opcode
  | .getUrl2 _ => .ok .getUrl2
  | .call => .ok .call
  | .gotoFrame2 _ _ => .ok .gotoFrame2
  | .unknown value _ => .error value

/-- The first byte of an instruction. -/
def byte (instruction : Instruction) : UInt8 :=
  match instruction.opcode with
  | .ok op => op.byte
  | .error value => value

/-- The bit of `GotoFrame2` that says whether a bias follows. -/
def biasBit : UInt8 := 0x02

/-- The fields after the opcode and the length. -/
def layout : Instruction → List Field
  | .basic _ | .counted _ _ | .call => []
  | .gotoFrame frame => [.word frame]
  | .getUrl url target => [.text url, .text target]
  | .storeRegister register => [.byte register.index]
  | .constantPool constants => .size .constantCount constants.length :: constants.map .text
  | .setTarget target => [.text target]
  | .goToLabel frameLabel => [.text frameLabel]
  | .block (.scope size) => [.word size]
  | .block (.wait (some frame) skipCount) => [.word frame, .byte skipCount]
  | .block (.wait none skipCount) => [.byte skipCount]
  | .block (.exception handlers) =>
    [.byte handlers.writtenFlags, .word handlers.trySize, .word handlers.catchSize,
      .word handlers.finallySize,
      match handlers.target with
      | .variable name => .text name
      | .register index => .byte index.index]
  | .push value => value.fields
  | .pushList values => values.flatMap PushValue.fields
  | .branch jump => [.word jump.offset.toUInt16]
  | .getUrl2 flags => [.byte flags]
  | .gotoFrame2 flags (some bias) => [.byte (flags ||| biasBit), .word bias]
  | .gotoFrame2 flags none => [.byte (flags &&& ~~~biasBit)]
  | .unknown _ payload => [.raw payload]

/-- The declared length of an instruction: the bytes after the opcode and the length. -/
def bodyLength : Instruction → Nat
  | .basic _ | .counted _ _ | .call => 0
  | .gotoFrame _ => 2
  | .getUrl url target => url.utf8ByteSize + 1 + target.utf8ByteSize + 1
  | .storeRegister _ | .block (.wait none _) | .getUrl2 _ => 1
  | .constantPool constants => 2 + totalOf (fun constant => constant.utf8ByteSize + 1) constants
  | .setTarget target => target.utf8ByteSize + 1
  | .goToLabel frameLabel => frameLabel.utf8ByteSize + 1
  | .block (.wait (some _) _) => 3
  | .block (.scope _) | .branch _ => 2
  | .block (.exception handlers) => handlers.bodyLength
  | .push value => value.width
  | .pushList values => totalOf PushValue.width values
  | .gotoFrame2 _ sceneBias => 1 + if sceneBias.isSome then 2 else 0
  | .unknown _ payload => payload.length

/-- The bytes an instruction takes as a record of its own. -/
def width (instruction : Instruction) : Nat :=
  if instruction.byte < bodyThreshold then
    match instruction with
    | .unknown _ payload => 1 + payload.length
    | _ => 1
  else headWidth + instruction.bodyLength

/-- **The fields of an instruction take the declared length.** -/
theorem totalWidth_layout (instruction : Instruction) :
    Field.totalWidth instruction.layout = instruction.bodyLength := by
  cases instruction with
  | constantPool constants =>
    rw [layout, Field.totalWidth_cons, Field.totalWidth_map, bodyLength]
    rfl
  | getUrl url target => simp [layout, bodyLength, Field.width, Nat.add_assoc]
  | block opened =>
    rcases opened with size | ⟨_ | frame, skipCount⟩ | handlers
    · rfl
    · rfl
    · rfl
    · rw [layout, bodyLength, TryBlock.bodyLength]
      cases handlers.target <;> simp [Field.width] <;> omega
  | push value => exact value.totalWidth_fields
  | pushList values => exact PushValue.totalWidth_flatMap_fields values
  | gotoFrame2 flags bias => cases bias <;> rfl
  | _ => simp [layout, bodyLength, Field.width]

/-- The declared length only depends on what is written. -/
theorem bodyLength_of_layout {first second : Instruction} (same : first.layout = second.layout) :
    first.bodyLength = second.bodyLength := by
  rw [← totalWidth_layout, ← totalWidth_layout, same]

/-- Of what comes without a length, only what is unknown may have bytes after the opcode. -/
theorem width_eq (instruction : Instruction) :
    instruction.width =
      (if instruction.byte < bodyThreshold then 1 else headWidth) + instruction.bodyLength := by
  unfold width
  by_cases short : instruction.byte < bodyThreshold
  · rw [if_pos short, if_pos short]
    cases instruction with
    | basic _ | counted _ _ | call | unknown _ _ => rfl
    | block opened =>
      rcases opened with size | ⟨_ | frame, skipCount⟩ | handlers <;>
        exact absurd short (of_decide_eq_false rfl)
    | branch jump =>
      obtain ⟨conditional, offset, label⟩ := jump
      cases conditional <;> exact absurd short (of_decide_eq_false rfl)
    | _ => exact absurd short (of_decide_eq_false rfl)
  · rw [if_neg short, if_neg short]

/-- Append an instruction as a record of its own. -/
def write (instruction : Instruction) : Writer Unit := do
  if instruction.byte < bodyThreshold then
    Writer.bytes [instruction.byte]
  else
    Writer.header instruction.byte instruction.bodyLength
  Writer.fields instruction.layout

end Instruction

end ActionCode
