/-
**Actions to bytes.**

* `assemble`: merge pushes, resolve branches, measure blocks, write. **Every fault of a pass comes
  before any fault of a later one**, and nesting is tested before all.
-/

import ActionCode.Settings
import ActionCode.Event
import ActionCode.Encoding
import ActionCode.Assembly.PushRuns
import ActionCode.Assembly.Branches
import ActionCode.Assembly.Blocks

namespace ActionCode

/-- The actions as they are written: pushes merged, offsets and sizes entered. -/
def resolve (settings : AssemblySettings) (actions : List Action) :
    Except AssemblyFault (List Action) := do
  if settings.maxDepth < nesting actions then throw (.tooDeep settings.maxDepth)
  let resolved ← resolveBranches (mergePushes actions)
  measureBlocks resolved

/-- The bytes of a sequence. -/
def assemble (settings : AssemblySettings) (actions : List Action) :
    Reported AssemblyFault (List UInt8) :=
  match resolve settings actions with
  | .error fault => ⟨.error fault, []⟩
  | .ok resolved =>
    match (writeSequence resolved).run with
    | (.error fault, _) => ⟨.error (.write fault), []⟩
    | (.ok (), bytes) => ⟨.ok bytes, [.assembled resolved.length bytes.length]⟩

end ActionCode
