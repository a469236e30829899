/-
**Limits and choices of the two directions.**

* `DisassemblySettings`: whether operand counts are looked for, how deep definitions may nest, and
  how many unknown slots the simulated stack begins with.
* `AssemblySettings`: how deep definitions may nest.
-/

namespace ActionCode

/-- How many definitions may enclose an action unless something else is asked for. -/
def defaultMaxDepth : Nat := 64

/-- The choices for disassembly. -/
structure DisassemblySettings where
  /-- Look for the operand counts of counted actions. -/
  examineStack : Bool := true
  /-- How many definitions may enclose an action. -/
  maxDepth : Nat := defaultMaxDepth
  /-- Unknown slots that stand for what was pushed before the code runs. -/
  seedSlots : Nat := 4
deriving DecidableEq

/-- The default choices, but operand counts are left open. -/
def DisassemblySettings.raw : DisassemblySettings := { examineStack := false }

/-- The choices for assembly. -/
structure AssemblySettings where
  /-- How many definitions may enclose an action. -/
  maxDepth : Nat := defaultMaxDepth
deriving DecidableEq

end ActionCode
