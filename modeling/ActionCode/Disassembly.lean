/-
**Bytes to actions.**

* `disassemble`: the actions of a buffer, with labels, closing markers and, if asked for, operand
  counts; and the reports, which come also with a fault.
-/

import ActionCode.Settings
import ActionCode.Disassembly.Sequence
import ActionCode.Stack.Examination

namespace ActionCode

/-- The actions of a buffer. Counts are looked for once, in the finished sequence. -/
def disassemble (settings : DisassemblySettings) (bytes : List UInt8) :
    Reported DisassemblyFault (List Action) :=
  match disassembleBlock settings.maxDepth 0 (Cursor.start 0 bytes) ⟨0, #[]⟩ with
  | .error fault progress => ⟨.error fault, progress.events.toList⟩
  | .ok actions progress =>
    let examined :=
      if settings.examineStack then examine actions settings.seedSlots else ⟨actions, []⟩
    let summary := Event.disassembled bytes.length examined.actions.length progress.nextLabel
    { result := .ok examined.actions
      events := progress.events.toList ++ examined.clearings.map .stackCleared ++ [summary] }

end ActionCode
