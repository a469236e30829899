/-
**Block spans become end markers.**

* `spanEnd`: walk over a span from an index on. The span must end where an action ends.
* `closings`: the markers of a block and the indices they go to. **The handler of an exception block
  is marked if it is flagged or not empty**, and its end always.
* `placeClosings`: all markers at their places. **At one place the block that opened last closes
  first**, and labels of that place come after.
* `splitPushes`: a record of pushes becomes single pushes; an empty one stays.
-/

import ActionCode.Disassembly.Labels

namespace ActionCode

/-! ### Spans -/

/-- Walk over `amount` units from the action at `index` on, which the rows begin with. The answer is
the index and the rows after the span. -/
def spanEnd (measure : Located → Nat) (overrun misaligned : DisassemblyFault) (index amount : Nat)
    (rows : List Located) : Except DisassemblyFault (Nat × List Located) :=
  match amount, rows with
  | 0, rows => .ok (index, rows)
  | _ + 1, [] => .error overrun
  | amount, row :: rest =>
    if measure row ≤ amount then
      spanEnd measure overrun misaligned (index + 1) (amount - measure row) rest
    else .error misaligned

/-- Walk over bytes. -/
def byteSpanEnd (offset index : Nat) (size : UInt16) (rows : List Located) :
    Except DisassemblyFault (Nat × List Located) :=
  spanEnd Located.span (.blockOverrun offset size.toNat) (.misalignedBlock offset size.toNat) index
    size.toNat rows

/-- Markers are no records. -/
def Located.recordCount (located : Located) : Nat := if located.action.isMarker then 0 else 1

/-- Walk over records. -/
def recordSpanEnd (offset index : Nat) (count : UInt8) (rows : List Located) :
    Except DisassemblyFault (Nat × List Located) :=
  spanEnd Located.recordCount (.blockOverrun offset count.toNat)
    (.misalignedBlock offset count.toNat) index count.toNat rows

/-! ### Closing markers -/

/-- A marker and the index of the action it goes before. -/
structure Closing where
  index : Nat
  marker : Marker

/-- The closing markers of a block, in their order. `index` and `rows` are those of the action after
the block. -/
def closings (offset index : Nat) (rows : List Located) (block : Block) :
    Except DisassemblyFault (List Closing) :=
  match block with
  | .scope size => do
    let (stop, _) ← byteSpanEnd offset index size rows
    return [⟨stop, .endWith⟩]
  | .wait _ skipCount => do
    let (stop, _) ← recordSpanEnd offset index skipCount rows
    return [⟨stop, .endWait⟩]
  | .exception handlers => do
    let (tryEnd, rows) ← byteSpanEnd offset index handlers.trySize rows
    let (catchEnd, rows) ← byteSpanEnd offset tryEnd handlers.catchSize rows
    let (finallyEnd, _) ← byteSpanEnd offset catchEnd handlers.finallySize rows
    return (if handlers.hasCatch then [⟨tryEnd, .catchStart⟩] else []) ++
      (if handlers.hasFinally then [⟨catchEnd, .finallyStart⟩] else []) ++
      [⟨finallyEnd, .endTry⟩]

/-- Put the markers of one block in front of those of the blocks that opened before it. -/
def addClosings (places : Array (List Marker)) (closings : List Closing) : Array (List Marker) :=
  closings.foldr (fun closing places => places.modify closing.index (closing.marker :: ·)) places

/-- The markers of every place, added block by block. The rows begin at `index`. -/
def collectClosings (places : Array (List Marker)) (index : Nat) :
    List Located → Except DisassemblyFault (Array (List Marker))
  | [] => .ok places
  | row :: rest =>
    match row.action.block? with
    | none => collectClosings places (index + 1) rest
    | some block =>
      match closings row.offset (index + 1) rest block with
      | .error fault => .error fault
      | .ok found => collectClosings (addClosings places found) (index + 1) rest

/-- The actions of a sequence with the markers of each place before its action, and those of the
last place at the end. -/
def weave (done : Array Action) : List (List Marker) → List Located → Array Action
  | markers :: places, row :: rest =>
    weave ((done.appendList (markers.map .marker)).push row.action) places rest
  | markers :: _, [] => done.appendList (markers.map .marker)
  | [], rows => done.appendList (rows.map Located.action)

/-- The actions of a sequence with the closing markers of its blocks. -/
def placeClosings (rows : List Located) : Except DisassemblyFault (List Action) :=
  match collectClosings (Array.replicate (rows.length + 1) []) 0 rows with
  | .error fault => .error fault
  | .ok places => .ok (weave #[] places.toList rows).toList

/-! ### Single pushes -/

/-- Single pushes in place of a record of some. -/
def Action.splitPush : Action → List Action
  | .plain (.pushList (value :: values)) =>
    (value :: values).map fun value => .plain (.push value)
  | action => [action]

/-- A sequence with single pushes only. -/
def splitPushes (actions : List Action) : List Action := actions.flatMap Action.splitPush

end ActionCode
