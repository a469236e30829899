/-
**Sequences as bytes.**

* `Action.write`: an action as a record of its own. Markers write nothing.
* `writeFrom`, `writeSequence`: a sequence. **The first push of a run writes the head of the whole
  run**, and the others write only their literals.
* The code of a definition follows its declared body, and its size is measured before it is
  written.
-/

import ActionCode.Record

namespace ActionCode

mutual

/-- Append an action as a record of its own. -/
def Action.write : Action → Writer Unit
  | .plain instruction => instruction.write
  | .define signature body => do
    Writer.header signature.opcode.byte signature.bodyLength
    Writer.fields signature.layout
    Writer.size .codeSize (encodedLength body)
    writeFrom false body
  | .marker _ => pure ()

/-- Append the actions of a sequence. If `inRun`, the head of a run of pushes has been written, and
pushes at the front belong to it. -/
def writeFrom (inRun : Bool) : List Action → Writer Unit
  | [] => pure ()
  | .plain (.push value) :: rest => do
    unless inRun do
      Writer.header Opcode.push.byte (pushRun 1 value.width rest).2
    value.write
    writeFrom true rest
  | action :: rest => do
    action.write
    writeFrom false rest

end

/-- Append a sequence. -/
def writeSequence (actions : List Action) : Writer Unit := writeFrom false actions

end ActionCode
