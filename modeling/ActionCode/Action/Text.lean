/-
**Actions as they appear in listings.**

* `Action.shown`: the mnemonic and the operands of an action, on one line. Of a definition only the
  declaration and the number of its actions are shown.
* Branches show their label; **one without a label shows its offset with a sign**.
-/

import ActionCode.Action
import ActionCode.Text.Hex
import ActionCode.Text.Quoted

namespace ActionCode

/-- An integer with its sign, which zero has too. -/
def signed (value : Int) : String :=
  if value < 0 then toString value else "+" ++ toString value

/-- A branch with its target. -/
def Branch.shown (branch : Branch) : String :=
  branch.opcode.name ++ " " ++
    match branch.label with
    | some label => label.text
    | none => signed branch.offset.toInt

/-- Where a caught value goes. -/
def CatchTarget.shown : CatchTarget → String
  | .variable name => Text.quoted name
  | .register index => index.text

/-- The mnemonic and the spans of a block. -/
def Block.shown (block : Block) : String :=
  block.opcode.name ++
    match block with
    | .scope size => s!" {size.toNat}"
    | .wait (some frame) skipCount => s!" {frame.toNat} skip {skipCount.toNat}"
    | .wait none skipCount => s!" skip {skipCount.toNat}"
    | .exception handlers =>
      s!" try {handlers.trySize.toNat} catch {handlers.catchSize.toNat}" ++
        s!" finally {handlers.finallySize.toNat} into " ++ handlers.target.shown

/-- The operands of an instruction, if any, with a space in front. -/
def Instruction.shownOperands : Instruction → String
  | .basic _ | .call | .counted _ none => ""
  | .counted _ (some count) => s!" ({count})"
  | .gotoFrame frame => s!" {frame.toNat}"
  | .getUrl url target => " " ++ Text.quoted url ++ " " ++ Text.quoted target
  | .storeRegister register => " " ++ register.text
  | .constantPool constants => " " ++ Text.commaSeparated (constants.map Text.quoted)
  | .setTarget target => " " ++ Text.quoted target
  | .goToLabel frameLabel => " " ++ Text.quoted frameLabel
  | .push value => " " ++ value.shown
  | .pushList values => " " ++ Text.commaSeparated (values.map PushValue.shown)
  | .getUrl2 flags => " 0x" ++ Text.hexUpper 2 flags.toNat
  | .gotoFrame2 flags none => " 0x" ++ Text.hexUpper 2 flags.toNat
  | .gotoFrame2 flags (some bias) => " 0x" ++ Text.hexUpper 2 flags.toNat ++ s!" bias {bias.toNat}"
  | .unknown value payload => " 0x" ++ Text.hexUpper 2 value.toNat ++ s!" [{payload.length} bytes]"
  | .block _ | .branch _ => ""

/-- An instruction on one line. -/
def Instruction.shown (instruction : Instruction) : String :=
  match instruction with
  | .block opened => opened.shown
  | .branch jump => jump.shown
  | _ =>
    match instruction.opcode with
    | .ok op => op.name ++ instruction.shownOperands
    | .error _ => "Unknown" ++ instruction.shownOperands

/-- The declaration of a function. Parameter names are shown as they are. -/
def Signature.shown (signature : Signature) : String :=
  signature.opcode.name ++ " " ++
    match signature with
    | .simple name params => Text.quoted name ++ " (" ++ Text.commaSeparated params ++ ")"
    | .withRegisters name registerCount flags params =>
      let declared := params.map fun param => param.register.text ++ "=" ++ param.name
      Text.quoted name ++ " (" ++ Text.commaSeparated declared ++
        s!") registers {registerCount.toNat} flags 0x" ++ Text.hexUpper 4 flags.toNat

/-- An action on one line, provided no parameter name breaks it. -/
def Action.shown : Action → String
  | .plain instruction => instruction.shown
  | .define signature body => signature.shown ++ s!" [{body.length} actions]"
  | .marker pseudo => pseudo.shown

end ActionCode
