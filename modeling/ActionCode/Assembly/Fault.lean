/-
**Why actions are not the code of a program.**

* `AssemblyFault`: the causes; `AssemblyFault.message`: their wording.
* `BlockKind`: the three kinds of blocks that a fault can name.

Indices count the actions of a sequence in which neighbouring pushes have been merged.
-/

import ActionCode.Action

namespace ActionCode

/-- The kinds of blocks. -/
inductive BlockKind where
  | scope | wait | exception
deriving DecidableEq

/-- How a kind of block is called in messages. -/
def BlockKind.name : BlockKind → String
  | .scope => "With"
  | .wait => "WaitForFrame"
  | .exception => "Try"

/-- The kind of a block. -/
def Block.kind : Block → BlockKind
  | .scope _ => .scope
  | .wait _ _ => .wait
  | .exception _ => .exception

/-- Why actions are not the code of a program. -/
inductive AssemblyFault where
  | write (fault : WriteFault)
  /-- A branch goes to a label that its sequence does not place. -/
  | missingLabel (label : Label)
  /-- A sequence places a label twice. -/
  | duplicateLabel (label : Label)
  /-- The offset to a label does not fit in 16 bits. -/
  | branchOutOfRange (label : Label) (offset : Int)
  /-- A block is still open at the end of its sequence. -/
  | missingEndMarker (block : BlockKind) (index : Nat)
  /-- A closing marker where no block is open. -/
  | unmatchedMarker (marker : Marker) (index : Nat)
  /-- A closing marker that does not continue the innermost open block. -/
  | mismatchedNesting (marker : Marker) (innermost : BlockKind) (index : Nat)
  /-- A definition lies in too many others. -/
  | tooDeep (maxDepth : Nat)
deriving DecidableEq

/-- The wording of a fault. -/
def AssemblyFault.message : AssemblyFault → String
  | .write fault => fault.message
  | .missingLabel label => "Missing label " ++ label.text
  | .duplicateLabel label => "Duplicate label " ++ label.text
  | .branchOutOfRange label offset =>
    "Branch to " ++ label.text ++ s!" needs offset {offset}, outside i16"
  | .missingEndMarker block index => block.name ++ s!" at index {index} has no end marker"
  | .unmatchedMarker marker index => marker.shown ++ s!" at index {index} has no open block"
  | .mismatchedNesting marker innermost index =>
    marker.shown ++ s!" at index {index} does not match the open " ++ innermost.name
  | .tooDeep maxDepth => s!"Function bodies nested deeper than {maxDepth}"

end ActionCode
