/-
**From bytes to actions and back, twice.**

* `roundTrip`: disassemble a buffer, assemble the actions, and do both again with the bytes; the
  first fault ends it.
* `RoundTrip.identical`, `stable`, `settled`: whether the bytes came back, whether the second
  actions are the first ones, and whether the second bytes are the first ones.
-/

import ActionCode.Disassembly
import ActionCode.Assembly

namespace ActionCode

/-- The steps of a round trip that can fail. -/
inductive RoundTripFault where
  | disassembly (fault : DisassemblyFault)
  | assembly (fault : AssemblyFault)
  | secondDisassembly (fault : DisassemblyFault)
  | secondAssembly (fault : AssemblyFault)

/-- What a round trip went through. -/
structure RoundTrip where
  bytes : List UInt8
  first : List Action
  again : List UInt8
  second : List Action
  third : List UInt8

/-- Disassemble and assemble a buffer, and the result once more. -/
def roundTrip (disassembly : DisassemblySettings) (assembly : AssemblySettings)
    (bytes : List UInt8) : Except RoundTripFault RoundTrip :=
  match (disassemble disassembly bytes).result with
  | .error fault => .error (.disassembly fault)
  | .ok first =>
    match (assemble assembly first).result with
    | .error fault => .error (.assembly fault)
    | .ok again =>
      match (disassemble disassembly again).result with
      | .error fault => .error (.secondDisassembly fault)
      | .ok second =>
        match (assemble assembly second).result with
        | .error fault => .error (.secondAssembly fault)
        | .ok third => .ok ⟨bytes, first, again, second, third⟩

namespace RoundTrip

/-- Whether the bytes came back. -/
def identical (trip : RoundTrip) : Bool := trip.again == trip.bytes

/-- Whether the actions came back, bit by bit. -/
def stable (trip : RoundTrip) : Bool := Action.sameAll trip.second trip.first

/-- Whether the second assembly gave the bytes of the first. -/
def settled (trip : RoundTrip) : Bool := trip.third == trip.again

end RoundTrip

end ActionCode
