/-
**Writing bytes at the end.**

* `Field`: one field of a layout, with its `width` in bytes and the way it is written.
* `Writer`: a computation that appends to an output or fails. **What was written before a fault
  stays**, and can be seen.
* `WriteFault`: a number too large for its field, or a zero inside a text.

A layout is a list of fields. Its width does not depend on the numbers inside, and a layout that is
written without a fault takes as many bytes as its width says.
-/

import ActionCode.Bytes.LittleEndian
import ActionCode.Bytes.Text
import ActionCode.Text.Quoted

namespace ActionCode

/-! ### Faults -/

/-- The fields whose number is computed from the program, and may be too large for them. -/
inductive SizeField where
  | bodyLength | constantCount | parameterCount | codeSize
  | scopeSize | trySize | catchSize | finallySize | skipCount
deriving DecidableEq

namespace SizeField

/-- How a size field is called in messages. -/
def name : SizeField → String
  | .bodyLength => "action body length"
  | .constantCount => "constant pool size"
  | .parameterCount => "parameter count"
  | .codeSize => "function code size"
  | .scopeSize => "with size"
  | .trySize => "try size"
  | .catchSize => "catch size"
  | .finallySize => "finally size"
  | .skipCount => "skip count"

/-- The width of a size field. Only the count of skipped records has a single byte. -/
def bits : SizeField → Nat
  | .skipCount => 8
  | _ => 16

/-- Whether a number fits a size field. -/
def fits (field : SizeField) (value : Nat) : Bool := decide (value < Nat.pow 2 field.bits)

end SizeField

/-- Why a program could not be written. -/
inductive WriteFault where
  | overflow (field : SizeField) (value : Nat)
  /-- Texts end at their first zero, so they must not contain one. -/
  | interiorNul (text : String)
deriving DecidableEq

/-- The wording of a fault. -/
def WriteFault.message : WriteFault → String
  | .overflow field value =>
    field.name ++ s!" value {value} does not fit in {field.bits} bits"
  | .interiorNul text => "String contains an interior NUL byte: " ++ Text.quoted text

/-! ### Totals -/

/-- What a measure of items adds up to. -/
def totalOf {α : Type} (measure : α → Nat) (items : List α) : Nat :=
  items.foldl (fun total item => total + measure item) 0

@[simp]
theorem totalOf_nil {α : Type} (measure : α → Nat) : totalOf measure [] = 0 := rfl

@[simp]
theorem totalOf_cons {α : Type} (measure : α → Nat) (item : α) (items : List α) :
    totalOf measure (item :: items) = measure item + totalOf measure items := by
  suffices general : ∀ start, items.foldl (fun total item => total + measure item) start =
      start + totalOf measure items by
    rw [totalOf, List.foldl_cons, Nat.zero_add]
    exact general (measure item)
  unfold totalOf
  induction items with
  | nil => simp
  | cons first rest ih =>
    intro start
    rw [List.foldl_cons, List.foldl_cons, ih (start + measure first), ih (0 + measure first)]
    omega

/-! ### Fields -/

/-- One field of a layout. -/
inductive Field where
  | byte (value : UInt8)
  | word (value : UInt16)
  | long (value : UInt32)
  /-- A 16-bit number computed from the program. -/
  | size (field : SizeField) (value : Nat)
  /-- A text with the zero byte that ends it. -/
  | text (value : String)
  | raw (value : List UInt8)
deriving DecidableEq

namespace Field

/-- The 64 bits of a double: **two 32-bit words, the high one first**. -/
def double (value : UInt64) : List Field :=
  [.long (UInt32.ofNat (value.toNat / UInt32.size)), .long (UInt32.ofNat value.toNat)]

/-- The bytes a field takes. -/
def width : Field → Nat
  | .byte _ => 1
  | .word _ | .size _ _ => 2
  | .long _ => 4
  | .text value => value.utf8ByteSize + 1
  | .raw value => value.length

/-- The bytes a layout takes. -/
def totalWidth (fields : List Field) : Nat := totalOf width fields

@[simp]
theorem totalWidth_nil : totalWidth [] = 0 := totalOf_nil width

@[simp]
theorem totalWidth_cons (field : Field) (fields : List Field) :
    totalWidth (field :: fields) = field.width + totalWidth fields := totalOf_cons width field fields

@[simp]
theorem totalWidth_append (first second : List Field) :
    totalWidth (first ++ second) = totalWidth first + totalWidth second := by
  induction first with
  | nil => simp
  | cons field rest ih => simp [ih, Nat.add_assoc]

/-- Items of some fields each take what these fields take together. -/
theorem totalWidth_flatMap {α : Type} (fields : α → List Field) (items : List α) :
    totalWidth (items.flatMap fields) = totalOf (fun item => totalWidth (fields item)) items := by
  induction items with
  | nil => rfl
  | cons item rest ih => rw [List.flatMap_cons, totalWidth_append, ih, totalOf_cons]

theorem totalWidth_map {α : Type} (field : α → Field) (items : List α) :
    totalWidth (items.map field) = totalOf (fun item => (field item).width) items := by
  have each : ∀ item, totalWidth [field item] = (field item).width := fun item => by simp
  rw [List.map_eq_flatMap, totalWidth_flatMap]
  simp only [each]

end Field

/-! ### Writers -/

/-- A computation that appends to an output. The output survives a fault. -/
abbrev Writer := EStateM WriteFault (Array UInt8)

namespace Writer

/-- Append bytes. -/
def bytes (block : List UInt8) : Writer Unit := 
  modify fun (output : Array UInt8) => output ++ block

/-- Append a text and the zero byte that ends it. **A text with a zero inside is not begun.** -/
def text (value : String) : Writer Unit :=
  let block := Bytes.ofText value
  if block.contains 0 then throw (.interiorNul value) else bytes (block ++ [0])

/-- Append a number of 16 bits. -/
def size (field : SizeField) (value : Nat) : Writer Unit :=
  if field.fits value then bytes (Bytes.toBytes 2 value) else throw (.overflow field value)

/-- Append a field. -/
def field : Field → Writer Unit
  | .byte value => bytes [value]
  | .word value => bytes (Bytes.toBytes 2 value.toNat)
  | .long value => bytes (Bytes.toBytes 4 value.toNat)
  | .size field value => size field value
  | .text value => text value
  | .raw value => bytes value

/-- Append the fields of a layout up to the first that fails. -/
def fields (layout : List Field) : Writer Unit := layout.forM field

/-- Append an opcode and the length of the body that follows. **Neither is begun if the length does
not fit.** -/
def header (opcode : UInt8) (length : Nat) : Writer Unit :=
  if SizeField.bodyLength.fits length then bytes (opcode :: Bytes.toBytes 2 length)
  else throw (.overflow .bodyLength length)

/-- The outcome of a writer on an empty output, and all it wrote. -/
def run {α : Type} (writer : Writer α) : Except WriteFault α × List UInt8 :=
  match writer #[] with
  | .ok value output => (.ok value, output.toList)
  | .error fault output => (.error fault, output.toList)

end Writer

end ActionCode
