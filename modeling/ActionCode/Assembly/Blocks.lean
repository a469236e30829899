/-
**Closing markers become block sizes.**

A scan over a sequence keeps the blocks that are open, innermost first. A closing marker must
continue the innermost one: `EndWith` and `EndWait` end their blocks, and an exception block goes on
from its try span to a handler, to a cleanup, and to its end, **in this order, with either left
out**.

* `OpenKind.advance`: what a closing marker makes of the innermost block, with the size of the span
  it ends.
* `measureOwnBlocks`: the sizes of one sequence. Scopes and exception blocks are measured in bytes,
  waits in records.
* `measureBlocks`: at every level.
-/

import ActionCode.Levels
import ActionCode.Extent
import ActionCode.Assembly.Fault

namespace ActionCode

/-! ### Open blocks -/

/-- The span of an exception block that is being measured. -/
inductive TryStage where
  | attempt | handler | cleanup
deriving DecidableEq

/-- A block that has not been closed, with the sizes measured so far. -/
inductive OpenKind where
  | scope
  | wait (frame : Option UInt16)
  | exception (stage : TryStage) (block : TryBlock)

/-- A block at an index whose current span began at an extent. -/
structure OpenBlock where
  index : Nat
  kind : OpenKind
  start : Extent

/-- The kind of block that is open. -/
def OpenKind.blockKind : OpenKind → BlockKind
  | .scope => .scope
  | .wait _ => .wait
  | .exception _ _ => .exception

/-- What a block is while it is open. -/
def OpenKind.ofBlock : Block → OpenKind
  | .scope _ => .scope
  | .wait frame _ => .wait frame
  | .exception block => .exception .attempt block

/-- A 16-bit size. -/
def size16 (field : SizeField) (value : Nat) : Except AssemblyFault UInt16 :=
  if field.fits value then .ok (UInt16.ofNat value) else .error (.write (.overflow field value))

/-- An 8-bit size. -/
def size8 (field : SizeField) (value : Nat) : Except AssemblyFault UInt8 :=
  if field.fits value then .ok (UInt8.ofNat value) else .error (.write (.overflow field value))

/-- Enter the size of the span that ends. **Later spans are empty until they are measured.** -/
def TryBlock.measure (block : TryBlock) (stage : TryStage) (size : Nat) :
    Except AssemblyFault TryBlock :=
  match stage with
  | .attempt => do
    let size ← size16 .trySize size
    return { block with trySize := size, catchSize := 0, finallySize := 0 }
  | .handler => do
    let size ← size16 .catchSize size
    return { block with catchSize := size, finallySize := 0 }
  | .cleanup => do
    let size ← size16 .finallySize size
    return { block with finallySize := size }

/-- What a closing marker makes of an open block. -/
inductive Advance where
  /-- The next span of an exception block begins. -/
  | stage (kind : OpenKind)
  /-- The block ends, with its sizes. -/
  | close (block : Block)

/-- The next stage that a marker begins, if the current one allows it. -/
def TryStage.next? (stage : TryStage) (marker : Marker) : Option TryStage :=
  match stage, marker with
  | .attempt, .catchStart => some .handler
  | .attempt, .finallyStart | .handler, .finallyStart => some .cleanup
  | _, _ => none

/-- What a closing marker at an index makes of the innermost open block, if the span it ends has the
given bytes and records. -/
def OpenKind.advance (kind : OpenKind) (marker : Marker) (index bytes records : Nat) :
    Except AssemblyFault Advance :=
  match kind, marker with
  | .scope, .endWith => do
    let size ← size16 .scopeSize bytes
    return .close (.scope size)
  | .wait frame, .endWait => do
    let skipCount ← size8 .skipCount records
    return .close (.wait frame skipCount)
  | .exception stage block, .endTry => do
    let block ← block.measure stage bytes
    return .close (.exception block)
  | .exception stage block, marker =>
    match stage.next? marker with
    | some next => do
      let block ← block.measure stage bytes
      return .stage (.exception next block)
    | none => throw (.mismatchedNesting marker .exception index)
  | kind, marker => throw (.mismatchedNesting marker kind.blockKind index)

/-! ### The scan -/

/-- The state of a scan: the extent and the index reached, the open blocks, and the actions with the
sizes entered so far. -/
structure BlockScan where
  extent : Extent
  index : Nat
  openBlocks : List OpenBlock
  actions : Array Action

/-- The scan after a closing marker, whose own extent is given. -/
def BlockScan.close (scan : BlockScan) (extent : Extent) (marker : Marker) :
    Except AssemblyFault BlockScan :=
  match scan.openBlocks with
  | [] => .error (.unmatchedMarker marker scan.index)
  | innermost :: outer =>
    match innermost.kind.advance marker scan.index (extent.bytes - innermost.start.bytes)
        (extent.records - innermost.start.records) with
    | .error fault => .error fault
    | .ok (.stage kind) =>
      .ok { scan with
        extent := extent
        index := scan.index + 1
        openBlocks := { innermost with kind := kind, start := extent } :: outer }
    | .ok (.close block) =>
      .ok {
        extent := extent
        index := scan.index + 1
        openBlocks := outer
        actions := scan.actions.setIfInBounds innermost.index (.plain (.block block)) }

/-- The scan after one more action. -/
def BlockScan.step (scan : BlockScan) (action : Action) : Except AssemblyFault BlockScan :=
  let extent := scan.extent.advance action
  match action with
  | .plain (.block block) =>
    .ok { scan with
      extent := extent
      index := scan.index + 1
      openBlocks := ⟨scan.index, .ofBlock block, extent⟩ :: scan.openBlocks }
  | .marker (.label _) => .ok { scan with extent := extent, index := scan.index + 1 }
  | .marker marker => scan.close extent marker
  | _ => .ok { scan with extent := extent, index := scan.index + 1 }

/-- The scan after a list of actions. -/
def BlockScan.run (scan : BlockScan) : List Action → Except AssemblyFault BlockScan
  | [] => .ok scan
  | action :: rest =>
    match scan.step action with
    | .error fault => .error fault
    | .ok scan => scan.run rest

/-- Measure the blocks of one sequence. -/
def measureOwnBlocks (actions : List Action) : Except AssemblyFault (List Action) :=
  match BlockScan.run ⟨Extent.start, 0, [], actions.toArray⟩ actions with
  | .error fault => .error fault
  | .ok scan =>
    match scan.openBlocks with
    | [] => .ok scan.actions.toList
    | innermost :: _ => .error (.missingEndMarker innermost.kind.blockKind innermost.index)

/-- Measure the blocks of a sequence and of all code in it. -/
def measureBlocks (actions : List Action) : Except AssemblyFault (List Action) :=
  tryLevels measureOwnBlocks actions

end ActionCode
