/-
**Blocks of bytes become sequences of actions.**

* `decodeFrom`: the rows of a block, one for each action. The code of a definition becomes a
  finished sequence as it is met. **It ends because every step makes the rest shorter.**
* `finishSequence`: labels, closing markers and single pushes, in this order.
* `disassembleBlock`: both.

What has happened so far survives a fault: a `Progress` holds the number of the next label and the
reports.
-/

import ActionCode.Event
import ActionCode.Disassembly.Spans

namespace ActionCode

/-- What has happened so far. **Labels are numbered through all sequences**, those of the code of a
definition before those of the sequence around it. -/
structure Progress where
  nextLabel : Nat
  events : Array Event

/-- A computation that disassembles. Its progress survives a fault. -/
abbrev Disassembler := EStateM DisassemblyFault Progress

/-- The progress after the labels of a sequence have been bound. A sequence without branches is not
reported. -/
def Progress.labeled (progress : Progress) (binding : Binding) (actions : Nat) : Progress where
  nextLabel := binding.nextLabel
  events :=
    if binding.labels.isEmpty then progress.events
    else progress.events.push (.labelsReconstructed binding.labels.size actions)

/-- Labels, closing markers and single pushes. -/
def finishSequence (region : Region) (rows : List Located) : Disassembler (List Action) :=
  fun progress =>
    match bindLabels region rows progress.nextLabel with
    | .error fault => .error fault progress
    | .ok (bound, binding) =>
      let progress := progress.labeled binding rows.length
      match placeClosings (placeLabels region binding.labels bound) with
      | .error fault => .error fault progress
      | .ok actions => .ok (splitPushes actions) progress

/-- Where the block of a cursor lies. -/
def Cursor.region (cursor : Cursor) : Region := ⟨cursor.base, cursor.offset + cursor.remaining⟩

/-- The action between two cursors. -/
def Located.between (action : Action) (cursor next : Cursor) : Located :=
  ⟨action, cursor.offset, next.offset - cursor.offset⟩

/-- The rows of what is left of a block `depth` definitions deep, after those in `done`. -/
def decodeFrom (maxDepth depth : Nat) (done : Array Located) (cursor : Cursor)
    (progress : Progress) : EStateM.Result DisassemblyFault Progress (List Located) :=
  if cursor.isEmpty then .ok done.toList progress
  else
    match _found : nextStep maxDepth depth cursor with
    | .error fault => .error fault progress
    | .ok (.instruction instruction next) =>
      decodeFrom maxDepth depth (done.push (.between (.plain instruction) cursor next)) next
        progress
    | .ok (.definition signature code next leftover) =>
      match decodeFrom maxDepth (depth + 1) #[] code progress with
      | .error fault progress => .error fault progress
      | .ok rows progress =>
        match finishSequence code.region rows progress with
        | .error fault progress => .error fault progress
        | .ok body progress =>
          match leftover with
          | some fault => .error (.read fault) progress
          | none =>
            decodeFrom maxDepth depth (done.push (.between (.define signature body) cursor next))
              next progress
termination_by cursor.rest.length
decreasing_by
  · exact nextStep_shorter _found
  · exact (nextStep_shorter _found).1
  · exact (nextStep_shorter _found).2

/-- A block that lies `depth` definitions deep as a finished sequence. -/
def disassembleBlock (maxDepth depth : Nat) (cursor : Cursor) : Disassembler (List Action) :=
  fun progress =>
    match decodeFrom maxDepth depth #[] cursor progress with
    | .error fault progress => .error fault progress
    | .ok rows progress => finishSequence cursor.region rows progress

end ActionCode
