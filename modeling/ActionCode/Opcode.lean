/-
**The opcodes of the action bytecode.**

* `Opcode`: the one hundred assigned opcodes, each of one byte.
* `Opcode.byte`, `Opcode.ofByte?`: the byte of an opcode, and the opcode of a byte if one is
  assigned; **`ofByte?_byte`**, `byte_of_ofByte?`: the two are inverse to each other.
* `Opcode.hasBody`: from `0x80` on, an opcode is followed by a 16-bit length and that many bytes.
* `Opcode.stackEffect`: the fixed pops and pushes, where an opcode has them.
* `CountedOp`: the seven opcodes that pop the number of their operands from the stack.
-/

namespace ActionCode

/-- From this byte on, an opcode is followed by the 16-bit length of its body. -/
def bodyThreshold : UInt8 := 0x80

/-- The assigned opcodes, in the order of their bytes. -/
inductive Opcode where
  | endActions | nextFrame | prevFrame | play | stop | toggleQuality | stopSounds | add | subtract
  | multiply | divide | equals | less | logicalAnd | logicalOr | logicalNot | stringEquals
  | stringLength | stringExtract | pop | toInteger | getVariable | setVariable | setTarget2
  | stringAdd | getProperty | setProperty | cloneSprite | removeSprite | trace | startDrag
  | endDrag | stringLess | throwValue | castOp | implementsOp | randomNumber | mbStringLength
  | charToAscii | asciiToChar | getTime | mbStringExtract | mbCharToAscii | mbAsciiToChar | delete
  | delete2 | defineLocal | callFunction | returnValue | modulo | newObject | defineLocal2
  | initArray | initObject | typeOf | targetPath | enumerate | add2 | less2 | equals2 | toNumber
  | toText | pushDuplicate | stackSwap | getMember | setMember | increment | decrement
  | callMethod | newMethod | instanceOf | enumerate2 | bitAnd | bitOr | bitXor | bitLShift
  | bitRShift | bitURShift | strictEquals | greater | stringGreater | extendsClass | gotoFrame
  | getUrl | storeRegister | constantPool | waitForFrame | setTarget | goToLabel | waitForFrame2
  | defineFunction2 | tryBlock | withScope | push | jump | getUrl2 | defineFunction | ifTrue
  | call | gotoFrame2
deriving DecidableEq

namespace Opcode

/-! ### Bytes and mnemonics -/

/-- Every opcode once, in the order of bytes. -/
def all : List Opcode :=
  [.endActions, .nextFrame, .prevFrame, .play, .stop, .toggleQuality, .stopSounds, .add,
   .subtract, .multiply, .divide, .equals, .less, .logicalAnd, .logicalOr, .logicalNot,
   .stringEquals, .stringLength, .stringExtract, .pop, .toInteger, .getVariable, .setVariable,
   .setTarget2, .stringAdd, .getProperty, .setProperty, .cloneSprite, .removeSprite, .trace,
   .startDrag, .endDrag, .stringLess, .throwValue, .castOp, .implementsOp, .randomNumber,
   .mbStringLength, .charToAscii, .asciiToChar, .getTime, .mbStringExtract, .mbCharToAscii,
   .mbAsciiToChar, .delete, .delete2, .defineLocal, .callFunction, .returnValue, .modulo,
   .newObject, .defineLocal2, .initArray, .initObject, .typeOf, .targetPath, .enumerate, .add2,
   .less2, .equals2, .toNumber, .toText, .pushDuplicate, .stackSwap, .getMember, .setMember,
   .increment, .decrement, .callMethod, .newMethod, .instanceOf, .enumerate2, .bitAnd, .bitOr,
   .bitXor, .bitLShift, .bitRShift, .bitURShift, .strictEquals, .greater, .stringGreater,
   .extendsClass, .gotoFrame, .getUrl, .storeRegister, .constantPool, .waitForFrame, .setTarget,
   .goToLabel, .waitForFrame2, .defineFunction2, .tryBlock, .withScope, .push, .jump, .getUrl2,
   .defineFunction, .ifTrue, .call, .gotoFrame2]

/-- The byte that stands for an opcode. -/
def byte : Opcode → UInt8
  | .endActions => 0x00
  | .nextFrame => 0x04
  | .prevFrame => 0x05
  | .play => 0x06
  | .stop => 0x07
  | .toggleQuality => 0x08
  | .stopSounds => 0x09
  | .add => 0x0A
  | .subtract => 0x0B
  | .multiply => 0x0C
  | .divide => 0x0D
  | .equals => 0x0E
  | .less => 0x0F
  | .logicalAnd => 0x10
  | .logicalOr => 0x11
  | .logicalNot => 0x12
  | .stringEquals => 0x13
  | .stringLength => 0x14
  | .stringExtract => 0x15
  | .pop => 0x17
  | .toInteger => 0x18
  | .getVariable => 0x1C
  | .setVariable => 0x1D
  | .setTarget2 => 0x20
  | .stringAdd => 0x21
  | .getProperty => 0x22
  | .setProperty => 0x23
  | .cloneSprite => 0x24
  | .removeSprite => 0x25
  | .trace => 0x26
  | .startDrag => 0x27
  | .endDrag => 0x28
  | .stringLess => 0x29
  | .throwValue => 0x2A
  | .castOp => 0x2B
  | .implementsOp => 0x2C
  | .randomNumber => 0x30
  | .mbStringLength => 0x31
  | .charToAscii => 0x32
  | .asciiToChar => 0x33
  | .getTime => 0x34
  | .mbStringExtract => 0x35
  | .mbCharToAscii => 0x36
  | .mbAsciiToChar => 0x37
  | .delete => 0x3A
  | .delete2 => 0x3B
  | .defineLocal => 0x3C
  | .callFunction => 0x3D
  | .returnValue => 0x3E
  | .modulo => 0x3F
  | .newObject => 0x40
  | .defineLocal2 => 0x41
  | .initArray => 0x42
  | .initObject => 0x43
  | .typeOf => 0x44
  | .targetPath => 0x45
  | .enumerate => 0x46
  | .add2 => 0x47
  | .less2 => 0x48
  | .equals2 => 0x49
  | .toNumber => 0x4A
  | .toText => 0x4B
  | .pushDuplicate => 0x4C
  | .stackSwap => 0x4D
  | .getMember => 0x4E
  | .setMember => 0x4F
  | .increment => 0x50
  | .decrement => 0x51
  | .callMethod => 0x52
  | .newMethod => 0x53
  | .instanceOf => 0x54
  | .enumerate2 => 0x55
  | .bitAnd => 0x60
  | .bitOr => 0x61
  | .bitXor => 0x62
  | .bitLShift => 0x63
  | .bitRShift => 0x64
  | .bitURShift => 0x65
  | .strictEquals => 0x66
  | .greater => 0x67
  | .stringGreater => 0x68
  | .extendsClass => 0x69
  | .gotoFrame => 0x81
  | .getUrl => 0x83
  | .storeRegister => 0x87
  | .constantPool => 0x88
  | .waitForFrame => 0x8A
  | .setTarget => 0x8B
  | .goToLabel => 0x8C
  | .waitForFrame2 => 0x8D
  | .defineFunction2 => 0x8E
  | .tryBlock => 0x8F
  | .withScope => 0x94
  | .push => 0x96
  | .jump => 0x99
  | .getUrl2 => 0x9A
  | .defineFunction => 0x9B
  | .ifTrue => 0x9D
  | .call => 0x9E
  | .gotoFrame2 => 0x9F

/-- The mnemonic of an opcode. -/
def name : Opcode → String
  | .endActions => "End"
  | .nextFrame => "NextFrame"
  | .prevFrame => "PrevFrame"
  | .play => "Play"
  | .stop => "Stop"
  | .toggleQuality => "ToggleQuality"
  | .stopSounds => "StopSounds"
  | .add => "Add"
  | .subtract => "Subtract"
  | .multiply => "Multiply"
  | .divide => "Divide"
  | .equals => "Equals"
  | .less => "Less"
  | .logicalAnd => "And"
  | .logicalOr => "Or"
  | .logicalNot => "Not"
  | .stringEquals => "StringEquals"
  | .stringLength => "StringLength"
  | .stringExtract => "StringExtract"
  | .pop => "Pop"
  | .toInteger => "ToInteger"
  | .getVariable => "GetVariable"
  | .setVariable => "SetVariable"
  | .setTarget2 => "SetTarget2"
  | .stringAdd => "StringAdd"
  | .getProperty => "GetProperty"
  | .setProperty => "SetProperty"
  | .cloneSprite => "CloneSprite"
  | .removeSprite => "RemoveSprite"
  | .trace => "Trace"
  | .startDrag => "StartDrag"
  | .endDrag => "EndDrag"
  | .stringLess => "StringLess"
  | .throwValue => "Throw"
  | .castOp => "CastOp"
  | .implementsOp => "ImplementsOp"
  | .randomNumber => "RandomNumber"
  | .mbStringLength => "MbStringLength"
  | .charToAscii => "CharToAscii"
  | .asciiToChar => "AsciiToChar"
  | .getTime => "GetTime"
  | .mbStringExtract => "MbStringExtract"
  | .mbCharToAscii => "MbCharToAscii"
  | .mbAsciiToChar => "MbAsciiToChar"
  | .delete => "Delete"
  | .delete2 => "Delete2"
  | .defineLocal => "DefineLocal"
  | .callFunction => "CallFunction"
  | .returnValue => "Return"
  | .modulo => "Modulo"
  | .newObject => "NewObject"
  | .defineLocal2 => "DefineLocal2"
  | .initArray => "InitArray"
  | .initObject => "InitObject"
  | .typeOf => "TypeOf"
  | .targetPath => "TargetPath"
  | .enumerate => "Enumerate"
  | .add2 => "Add2"
  | .less2 => "Less2"
  | .equals2 => "Equals2"
  | .toNumber => "ToNumber"
  | .toText => "ToString"
  | .pushDuplicate => "PushDuplicate"
  | .stackSwap => "StackSwap"
  | .getMember => "GetMember"
  | .setMember => "SetMember"
  | .increment => "Increment"
  | .decrement => "Decrement"
  | .callMethod => "CallMethod"
  | .newMethod => "NewMethod"
  | .instanceOf => "InstanceOf"
  | .enumerate2 => "Enumerate2"
  | .bitAnd => "BitAnd"
  | .bitOr => "BitOr"
  | .bitXor => "BitXor"
  | .bitLShift => "BitLShift"
  | .bitRShift => "BitRShift"
  | .bitURShift => "BitURShift"
  | .strictEquals => "StrictEquals"
  | .greater => "Greater"
  | .stringGreater => "StringGreater"
  | .extendsClass => "Extends"
  | .gotoFrame => "GotoFrame"
  | .getUrl => "GetUrl"
  | .storeRegister => "StoreRegister"
  | .constantPool => "ConstantPool"
  | .waitForFrame => "WaitForFrame"
  | .setTarget => "SetTarget"
  | .goToLabel => "GoToLabel"
  | .waitForFrame2 => "WaitForFrame2"
  | .defineFunction2 => "DefineFunction2"
  | .tryBlock => "Try"
  | .withScope => "With"
  | .push => "Push"
  | .jump => "Jump"
  | .getUrl2 => "GetUrl2"
  | .defineFunction => "DefineFunction"
  | .ifTrue => "If"
  | .call => "Call"
  | .gotoFrame2 => "GotoFrame2"

/-- The opcode a byte stands for, if the byte is assigned. -/
def ofByte? (value : UInt8) : Option Opcode :=
  all.find? fun op => op.byte == value

/-- The opcode with a given mnemonic. -/
def ofName? (mnemonic : String) : Option Opcode :=
  all.find? fun op => op.name == mnemonic

/-- Whether a length and a body follow the opcode byte. -/
def hasBody (op : Opcode) : Bool := decide (bodyThreshold ≤ op.byte)

theorem ofByte?_byte (op : Opcode) : ofByte? op.byte = some op := by
  cases op <;> decide +kernel

theorem byte_of_ofByte? {value : UInt8} {op : Opcode} (found : ofByte? value = some op) :
    op.byte = value := by
  simpa using List.find?_some found

/-! ### Effect on the operand stack -/

/-- The fixed pops and pushes of an opcode. **Absent where the effect depends on operands or on
nested code**: the counted family, `Push`, `PushDuplicate`, `StackSwap` and the function
definitions. -/
def stackEffect : Opcode → Option (Nat × Nat)
  | .endActions | .nextFrame | .prevFrame | .play | .stop | .toggleQuality | .stopSounds
  | .endDrag | .gotoFrame | .getUrl | .storeRegister | .constantPool | .waitForFrame | .setTarget
  | .goToLabel | .tryBlock | .jump => some (0, 0)
  | .add | .subtract | .multiply | .divide | .equals | .less | .logicalAnd | .logicalOr
  | .stringEquals | .stringAdd | .getProperty | .stringLess | .castOp | .delete | .modulo | .add2
  | .less2 | .equals2 | .getMember | .instanceOf | .bitAnd | .bitOr | .bitXor | .bitLShift
  | .bitRShift | .bitURShift | .strictEquals | .greater | .stringGreater => some (2, 1)
  | .logicalNot | .stringLength | .toInteger | .getVariable | .randomNumber | .mbStringLength
  | .charToAscii | .asciiToChar | .mbCharToAscii | .mbAsciiToChar | .delete2 | .typeOf
  | .targetPath | .enumerate | .toNumber | .toText | .increment | .decrement
  | .enumerate2 => some (1, 1)
  | .stringExtract | .mbStringExtract => some (3, 1)
  | .pop | .setTarget2 | .removeSprite | .trace | .throwValue | .returnValue | .defineLocal2
  | .waitForFrame2 | .withScope | .ifTrue | .call | .gotoFrame2 => some (1, 0)
  | .setVariable | .defineLocal | .extendsClass | .getUrl2 => some (2, 0)
  | .setProperty | .cloneSprite | .startDrag | .setMember => some (3, 0)
  | .implementsOp | .callFunction | .newObject | .initArray | .initObject | .pushDuplicate
  | .stackSwap | .callMethod | .newMethod | .defineFunction2 | .push | .defineFunction => none
  | .getTime => some (0, 1)

end Opcode

/-! ### The counted family -/

/-- The actions that find the number of their operands on the stack. -/
inductive CountedOp where
  | callFunction | callMethod | newObject | newMethod | initArray | initObject | implementsOp
deriving DecidableEq

namespace CountedOp

/-- The opcode of a counted action. -/
def opcode : CountedOp → Opcode
  | .callFunction => .callFunction
  | .callMethod => .callMethod
  | .newObject => .newObject
  | .newMethod => .newMethod
  | .initArray => .initArray
  | .initObject => .initObject
  | .implementsOp => .implementsOp

/-- Every counted action once. -/
def all : List CountedOp :=
  [.callFunction, .callMethod, .newObject, .newMethod, .initArray, .initObject, .implementsOp]

/-- The counted action of an opcode, if the opcode is of this family. -/
def ofOpcode? (op : Opcode) : Option CountedOp :=
  all.find? fun counted => counted.opcode == op

/-- The mnemonic of a counted action. -/
def name (counted : CountedOp) : String := counted.opcode.name

theorem ofOpcode?_opcode (counted : CountedOp) : ofOpcode? counted.opcode = some counted := by
  cases counted <;> rfl

theorem opcode_of_ofOpcode? {op : Opcode} {counted : CountedOp}
    (found : ofOpcode? op = some counted) : counted.opcode = op := by
  simpa using List.find?_some found

/-- Operands above the count on the stack: a name, an object, a constructor. -/
def fixedOperands : CountedOp → Nat
  | .callMethod | .newMethod => 2
  | .callFunction | .newObject | .implementsOp => 1
  | .initArray | .initObject => 0

/-- Operands per counted item below the count: a property of an object literal is a key and a
value. -/
def operandsPerItem : CountedOp → Nat
  | .initObject => 2
  | _ => 1

/-- Results pushed at the end. -/
def results : CountedOp → Nat
  | .implementsOp => 0
  | _ => 1

end CountedOp

/-- Whether an opcode is of the counted family. -/
def Opcode.isCounted (op : Opcode) : Bool := (CountedOp.ofOpcode? op).isSome

end ActionCode
