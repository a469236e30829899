/-
**Actions: instructions, function definitions and markers.**

* `Signature`: what a function definition declares before its code.
* `Marker`: pseudo actions that make structure visible. **They take no bytes.**
* `Action`: one element of a sequence. Only definitions nest, and what nests is a sequence again.
* Views of an action: its branch, its label, its body, the block it opens.
-/

import ActionCode.Instruction

namespace ActionCode

/-! ### Signatures and markers -/

/-- A parameter and the register that receives it; register zero stands for none. -/
structure RegisterParam where
  register : Register
  name : String
deriving DecidableEq

/-- What a function definition declares before its code. -/
inductive Signature where
  | simple (name : String) (params : List String)
  | withRegisters (name : String) (registerCount : UInt8) (flags : UInt16)
      (params : List RegisterParam)
deriving DecidableEq

namespace Signature

/-- The opcode of a definition. -/
def opcode : Signature → Opcode
  | .simple _ _ => .defineFunction
  | .withRegisters _ _ _ _ => .defineFunction2

/-- The fields of a declaration up to the size of the code. -/
def layout : Signature → List Field
  | .simple name params =>
    .text name :: .size .parameterCount params.length :: params.map .text
  | .withRegisters name registerCount flags params =>
    .text name :: .size .parameterCount params.length :: .byte registerCount :: .word flags ::
      params.flatMap fun param => [.byte param.register.index, .text param.name]

/-- The declared length of a definition: its fields and the 16-bit size of the code. **The code
itself is not part of it.** -/
def bodyLength : Signature → Nat
  | .simple name params =>
    name.utf8ByteSize + 1 + 2 + totalOf (fun param => param.utf8ByteSize + 1) params + 2
  | .withRegisters name _ _ params =>
    name.utf8ByteSize + 1 + 2 + 1 + 2 +
      totalOf (fun param => 1 + param.name.utf8ByteSize + 1) params + 2

/-- **The fields of a declaration and the size of the code take the declared length.** -/
theorem totalWidth_layout (signature : Signature) :
    Field.totalWidth signature.layout + 2 = signature.bodyLength := by
  cases signature with
  | simple name params =>
    simp only [layout, bodyLength, Field.totalWidth_cons, Field.totalWidth_map, Field.width]
    omega
  | withRegisters name registerCount flags params =>
    have param : ∀ param : RegisterParam,
        Field.totalWidth [.byte param.register.index, .text param.name] =
          1 + param.name.utf8ByteSize + 1 := fun param => by
      rw [Field.totalWidth_cons, Field.totalWidth_cons, Field.totalWidth_nil]
      exact (Nat.add_assoc ..).symm
    simp only [layout, bodyLength, Field.totalWidth_cons, Field.totalWidth_flatMap, Field.width, param]
    omega

end Signature

/-- A pseudo action that makes structure visible. -/
inductive Marker where
  /-- The place a branch goes to. -/
  | label (id : Label)
  | endWith
  | endWait
  | catchStart
  | finallyStart
  | endTry
deriving DecidableEq

/-- A marker as it appears in a listing. -/
def Marker.shown : Marker → String
  | .label id => id.text ++ ":"
  | .endWith => "EndWith"
  | .endWait => "EndWait"
  | .catchStart => "Catch"
  | .finallyStart => "Finally"
  | .endTry => "EndTry"

/-! ### Actions -/

/-- One element of a sequence. -/
inductive Action where
  | plain (instruction : Instruction)
  | define (signature : Signature) (body : List Action)
  | marker (marker : Marker)

namespace Action

/-- The opcode byte, except for markers, which have none. -/
def byte? : Action → Option UInt8
  | .plain instruction => some instruction.byte
  | .define signature _ => some signature.opcode.byte
  | .marker _ => none

/-- The mnemonic of an action. -/
def name : Action → String
  | .plain (.pushList _) => "PushList"
  | .plain instruction =>
    match instruction.opcode with
    | .ok op => op.name
    | .error _ => "Unknown"
  | .define signature _ => signature.opcode.name
  | .marker _ => "Marker"

/-- Whether an action is a marker. -/
def isMarker : Action → Bool
  | .marker _ => true
  | _ => false

/-- Whether an action pushes a single literal. Neighbours of this kind share a record. -/
def isPush : Action → Bool
  | .plain (.push _) => true
  | _ => false

/-- The label that an action places. -/
def label? : Action → Option Label
  | .marker (.label id) => some id
  | _ => none

/-- The branch that an action is. -/
def branch? : Action → Option Branch
  | .plain (.branch branch) => some branch
  | _ => none

/-- The block that an action opens. -/
def block? : Action → Option Block
  | .plain (.block block) => some block
  | _ => none

/-- The code of a function definition. -/
def body? : Action → Option (List Action)
  | .define _ body => some body
  | _ => none

/-! ### Equality -/

mutual

/-- Whether two actions are equal. Floating-point literals are words, so equal means bit by bit. -/
def same : Action → Action → Bool
  | .plain first, .plain second => decide (first = second)
  | .define signature body, .define other code => decide (signature = other) && sameAll body code
  | .marker first, .marker second => decide (first = second)
  | _, _ => false

/-- Whether two sequences are equal. -/
def sameAll : List Action → List Action → Bool
  | [], [] => true
  | first :: rest, second :: others => same first second && sameAll rest others
  | _, _ => false

end

mutual

theorem same_iff : ∀ (first second : Action), same first second = true ↔ first = second
  | .plain first, second => by cases second <;> simp [same]
  | .define signature body, second => by
    cases second with
    | define other code => simp [same, sameAll_iff body code]
    | plain _ => simp [same]
    | marker _ => simp [same]
  | .marker first, second => by cases second <;> simp [same]

theorem sameAll_iff : ∀ (first second : List Action), sameAll first second = true ↔ first = second
  | [], second => by cases second <;> simp [sameAll]
  | action :: rest, [] => by simp [sameAll]
  | action :: rest, other :: others => by
    simp [sameAll, same_iff action other, sameAll_iff rest others]

end

instance : DecidableEq Action := fun first second =>
  decidable_of_iff _ (same_iff first second)

end Action

end ActionCode
