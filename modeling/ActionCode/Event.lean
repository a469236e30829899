/-
**What the tools report while they work.**

* `Clearing`: why, at which action and at which depth a simulated stack was given up.
* `Event`: a report, with its `target`, its `message`, and the values that go with it.
* `Reported`: a result and the reports that came with it.
-/

namespace ActionCode

/-- Why a simulated stack is given up. -/
inductive ClearingReason where
  | underflow
  | countNotLiteral
  | noFixedEffect
  | unknownOpcode
deriving DecidableEq

/-- The wording of a reason. -/
def ClearingReason.text : ClearingReason → String
  | .underflow => "stack underflow"
  | .countNotLiteral => "operand count is not a literal"
  | .noFixedEffect => "no fixed stack effect"
  | .unknownOpcode => "unknown opcode"

/-- A simulated stack given up. -/
structure Clearing where
  reason : ClearingReason
  /-- The mnemonic of the action that could not be followed. -/
  action : String
  /-- The slots that were left when the stack was given up. -/
  depth : Nat
deriving DecidableEq

/-- A report. -/
inductive Event where
  /-- A sequence with branches has been labeled. A record of pushes is one action here. -/
  | labelsReconstructed (labels actions : Nat)
  | stackCleared (clearing : Clearing)
  | disassembled (bytes actions labels : Nat)
  | assembled (actions bytes : Nat)
deriving DecidableEq

namespace Event

/-- The part of the library that a report comes from. -/
def target : Event → String
  | .labelsReconstructed _ _ | .disassembled _ _ _ => "avm1::disasm"
  | .stackCleared _ => "avm1::examine"
  | .assembled _ _ => "avm1::asm"

/-- The text of a report. -/
def message : Event → String
  | .labelsReconstructed _ _ => "labels reconstructed"
  | .stackCleared clearing => clearing.reason.text ++ "; clearing simulated stack"
  | .disassembled _ _ _ => "disassembled"
  | .assembled _ _ => "assembled"

/-- The numbers that go with a report, by name. -/
def numbers : Event → List (String × Nat)
  | .labelsReconstructed labels actions => [("labels", labels), ("actions", actions)]
  | .stackCleared clearing => [("depth", clearing.depth)]
  | .disassembled bytes actions labels =>
    [("bytes", bytes), ("actions", actions), ("labels", labels)]
  | .assembled actions bytes => [("actions", actions), ("bytes", bytes)]

/-- The texts that go with a report, by name. -/
def texts : Event → List (String × String)
  | .stackCleared clearing => [("action", clearing.action)]
  | _ => []

end Event

/-- The result of a computation, and the reports that came with it. -/
structure Reported (ε α : Type) where
  result : Except ε α
  events : List Event

end ActionCode
