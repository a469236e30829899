/-
**The small operands of actions.**

* `Register`, `Label`: a machine register, and the identity of a branch target.
* `FunctionFlag`, `TryFlag`: the named bits of the two flag fields; `containsAll` asks whether every
  bit of a mask is set.
-/

namespace ActionCode

/-- One of the 256 registers of the machine. -/
structure Register where
  index : UInt8
deriving DecidableEq, Inhabited

/-- Registers are shown as `r0` to `r255`. -/
def Register.text (register : Register) : String :=
  "r" ++ toString register.index.toNat

/-- The identity of a branch target within one disassembly. -/
structure Label where
  id : Nat
deriving DecidableEq, Inhabited

/-- Labels are shown as `label_0`, `label_1` and so on. -/
def Label.text (label : Label) : String :=
  "label_" ++ toString label.id

/-! ### Flag fields -/

/-- Whether every bit of `mask` is set in a 16-bit field. -/
def FunctionFlags.containsAll (flags mask : UInt16) : Bool := flags &&& mask == mask

/-- What a function with registers does with its implicit variables before it runs. -/
inductive FunctionFlag where
  | preloadThis | suppressThis | preloadArguments | suppressArguments | preloadSuper
  | suppressSuper | preloadRoot | preloadParent | preloadGlobal
deriving DecidableEq

namespace FunctionFlag

/-- The named flags in the order of their bits. -/
def all : List FunctionFlag :=
  [.preloadThis, .suppressThis, .preloadArguments, .suppressArguments, .preloadSuper,
   .suppressSuper, .preloadRoot, .preloadParent, .preloadGlobal]

/-- The bit of a flag. -/
def mask : FunctionFlag → UInt16
  | .preloadThis => 0x0001
  | .suppressThis => 0x0002
  | .preloadArguments => 0x0004
  | .suppressArguments => 0x0008
  | .preloadSuper => 0x0010
  | .suppressSuper => 0x0020
  | .preloadRoot => 0x0040
  | .preloadParent => 0x0080
  | .preloadGlobal => 0x0100

end FunctionFlag

/-- Whether every bit of `mask` is set in an 8-bit field. -/
def TryFlags.containsAll (flags mask : UInt8) : Bool := flags &&& mask == mask

/-- The named bits of an exception block: which handlers follow, and where the caught value goes. -/
inductive TryFlag where
  | handler | cleanup | caughtInRegister
deriving DecidableEq

namespace TryFlag

/-- The named flags in the order of their bits. -/
def all : List TryFlag := [.handler, .cleanup, .caughtInRegister]

/-- The bit of a flag. -/
def mask : TryFlag → UInt8
  | .handler => 0x01
  | .cleanup => 0x02
  | .caughtInRegister => 0x04

end TryFlag

end ActionCode
