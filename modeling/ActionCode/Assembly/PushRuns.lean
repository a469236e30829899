/-
**Neighbouring pushes are merged.**

* `mergeRuns`: two or more single pushes in a row become one push of a list. A single push stays.
* `mergePushes`: at every level.

The merged list takes the record that the run would have been written in, so that **merging changes
no byte of the encoding**.
-/

import ActionCode.Levels

namespace ActionCode

/-- The actions after a run of single pushes has ended. -/
def flushRun (run : Array PushValue) (done : Array Action) : Array Action :=
  match run.toList with
  | [] => done
  | [value] => done.push (.plain (.push value))
  | values => done.push (.plain (.pushList values))

/-- Merge the runs of a sequence, after the actions in `done` and the pushes in `run`. -/
def mergeRunsFrom (run : Array PushValue) (done : Array Action) : List Action → Array Action
  | [] => flushRun run done
  | .plain (.push value) :: rest => mergeRunsFrom (run.push value) done rest
  | action :: rest => mergeRunsFrom #[] ((flushRun run done).push action) rest

/-- Merge the runs of one sequence. -/
def mergeRuns (actions : List Action) : List Action := (mergeRunsFrom #[] #[] actions).toList

/-- Merge the runs of a sequence and of all code in it. -/
def mergePushes (actions : List Action) : List Action := mapLevels mergeRuns actions

end ActionCode
