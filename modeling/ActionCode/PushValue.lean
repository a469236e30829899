/-
**The literals that actions push.**

* `PushValue`: the ten kinds of literal. Floating-point literals are kept as words, so that **every
  bit survives**, those of words that are no numbers included.
* `PushValue.fields`, `PushValue.read`: a tag byte and the operand, written and read.
  **`PushValue.width` is a table of its own**, and `PushValue.totalWidth_fields` the check of it.
* `PushValue.count?`: the operand count that a literal stands for, if it stands for one.
* `PushValue.shown`: a literal as it appears in a listing.
-/

import ActionCode.Operand
import ActionCode.Bytes.Cursor
import ActionCode.Bytes.Output
import ActionCode.Floating.Numeral

namespace ActionCode

/-- A literal pushed onto the operand stack. -/
inductive PushValue where
  | text (value : String)
  /-- A 32-bit floating-point word. -/
  | single (word : UInt32)
  | null
  | undefined
  | register (source : Register)
  | boolean (value : Bool)
  /-- A 64-bit floating-point word. -/
  | double (word : UInt64)
  | integer (value : Int32)
  /-- An entry of the constant pool, by an index of one byte. -/
  | constant8 (index : UInt8)
  /-- An entry of the constant pool, by an index of two bytes. -/
  | constant16 (index : UInt16)
deriving DecidableEq

namespace PushValue

/-! ### Layout -/

/-- The byte that announces the kind of a literal. -/
def tag : PushValue → UInt8
  | .text _ => 0
  | .single _ => 1
  | .null => 2
  | .undefined => 3
  | .register _ => 4
  | .boolean _ => 5
  | .double _ => 6
  | .integer _ => 7
  | .constant8 _ => 8
  | .constant16 _ => 9

/-- The operand that follows the tag. -/
def operand : PushValue → List Field
  | .text value => [.text value]
  | .single word => [.long word]
  | .null | .undefined => []
  | .register source => [.byte source.index]
  | .boolean value => [.byte (if value then 1 else 0)]
  | .double word => Field.double word
  | .integer value => [.long value.toUInt32]
  | .constant8 index => [.byte index]
  | .constant16 index => [.word index]

/-- The layout of a literal: its tag and its operand. -/
def fields (value : PushValue) : List Field := .byte value.tag :: value.operand

/-- The bytes of the operand that follows the tag. -/
def operandWidth : PushValue → Nat
  | .text value => value.utf8ByteSize + 1
  | .single _ | .integer _ => 4
  | .null | .undefined => 0
  | .register _ | .boolean _ | .constant8 _ => 1
  | .double _ => 8
  | .constant16 _ => 2

/-- The bytes a literal takes, its tag included. -/
def width (value : PushValue) : Nat := 1 + value.operandWidth

/-- Append a literal. -/
def write (value : PushValue) : Writer Unit := Writer.fields value.fields

theorem width_pos (value : PushValue) : 0 < value.width := Nat.add_pos_left Nat.one_pos _

/-- **The fields of a literal take its width.** -/
theorem totalWidth_fields (value : PushValue) : Field.totalWidth value.fields = value.width := by
  rw [fields, Field.totalWidth_cons, width]
  cases value <;> simp [operand, operandWidth, Field.width, Field.double]

theorem totalWidth_flatMap_fields (values : List PushValue) :
    Field.totalWidth (values.flatMap fields) = totalOf width values := by
  simp only [Field.totalWidth_flatMap, totalWidth_fields]

/-! ### Reading -/

/-- The operand that follows a tag at an absolute offset. **Any byte but zero is true.** -/
def readOperand (tag : UInt8) (offset : Nat) : Reader PushValue :=
  match tag with
  | 0 => return .text (← Reader.text)
  | 1 => return .single (← Reader.long)
  | 2 => return .null
  | 3 => return .undefined
  | 4 => return .register ⟨← Reader.byte⟩
  | 5 => return .boolean ((← Reader.byte) != 0)
  | 6 => return .double (← Reader.double)
  | 7 => return .integer (← Reader.long).toInt32
  | 8 => return .constant8 (← Reader.byte)
  | 9 => return .constant16 (← Reader.word)
  | _ => throw (.unknownValueTag tag offset)

/-- The next literal. -/
def read : Reader PushValue := do
  let offset := (← get).offset
  let tag ← Reader.byte
  readOperand tag offset

theorem readOperand_advances (tag : UInt8) (offset : Nat) : (readOperand tag offset).Advances := by
  unfold readOperand
  split
  · exact Reader.text_advances.bind fun _ => .pure _
  · exact Reader.long_advances.bind fun _ => .pure _
  · exact .pure _
  · exact .pure _
  · exact Reader.byte_advances.bind fun _ => .pure _
  · exact Reader.byte_advances.bind fun _ => .pure _
  · exact Reader.double_advances.bind fun _ => .pure _
  · exact Reader.long_advances.bind fun _ => .pure _
  · exact Reader.byte_advances.bind fun _ => .pure _
  · exact Reader.word_advances.bind fun _ => .pure _
  · exact .throw _

theorem read_consumes : read.Consumes := by
  intro before after value success
  exact (Reader.byte_consumes.bind fun tag => readOperand_advances tag before.offset) success

/-- All literals of a block. -/
def readAll : Reader (List PushValue) := Reader.untilEmpty read read_consumes

/-! ### Counts -/

/-- The operand count that a literal stands for. **Floating-point literals count if they are
integral**, since counts are pushed in either form; no count exceeds 32 bits. -/
def count? (value : PushValue) : Option Nat :=
  let natural? := match value with
    | .integer value => if 0 ≤ value.toInt then some value.toInt.toNat else none
    | .single word => (Floating.single.decode word.toNat).natural?
    | .double word => (Floating.double.decode word.toNat).natural?
    | _ => none
  natural?.filter fun count => decide (count < UInt32.size)

/-! ### Text -/

/-- A literal as it appears in a listing. -/
def shown : PushValue → String
  | .text value => Text.quoted value
  | .single word => Floating.numeral Floating.single Floating.plainStyle word.toNat ++ "f"
  | .null => "null"
  | .undefined => "undefined"
  | .register source => source.text
  | .boolean value => if value then "true" else "false"
  | .double word => Floating.numeral Floating.double Floating.markedStyle word.toNat
  | .integer value => toString value.toInt
  | .constant8 index => "c" ++ toString index.toNat
  | .constant16 index => "c" ++ toString index.toNat

end PushValue

end ActionCode
