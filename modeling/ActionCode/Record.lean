/-
**A sequence as the records it is written in.**

* `Record`: the indices a record covers, and the bytes it takes.
* `recordAt?`: the record that begins at an index. **Inside a run of pushes it is the rest of the
  run.**
* `records`: all records, from the first action on; the ranges follow one another up to the end.
-/

import ActionCode.Extent

namespace ActionCode

/-- What a record consists of. -/
inductive RecordKind where
  /-- Single pushes, one after another. -/
  | pushRun
  /-- One action of any other kind. -/
  | action
  /-- A marker, which takes no bytes and counts for nothing. -/
  | marker
deriving DecidableEq

/-- A record and the actions it covers: those at the indices from `first` below `stop`. -/
structure Record where
  first : Nat
  stop : Nat
  bytes : Nat
  kind : RecordKind
deriving DecidableEq

/-- Whether a record counts where records are counted. -/
def Record.counted (record : Record) : Bool := record.kind != .marker

/-- The number and the bytes of the single pushes that a sequence begins with, added to those
given. -/
def pushRun (count bytes : Nat) : List Action → Nat × Nat
  | .plain (.push value) :: rest => pushRun (count + 1) (bytes + value.width) rest
  | _ => (count, bytes)

/-- The record that a sequence begins with, if its first action has the given index. -/
def firstRecord? (index : Nat) : List Action → Option Record
  | [] => none
  | .plain (.push value) :: rest =>
    let (count, bytes) := pushRun 1 value.width rest
    some ⟨index, index + count, headWidth + bytes, .pushRun⟩
  | .marker _ :: _ => some ⟨index, index + 1, 0, .marker⟩
  | action :: _ => some ⟨index, index + 1, action.width, .action⟩

/-- The record that begins at an index of a sequence. -/
def recordAt? (actions : List Action) (index : Nat) : Option Record :=
  firstRecord? index (actions.drop index)

theorem le_pushRun (count bytes : Nat) (actions : List Action) :
    count ≤ (pushRun count bytes actions).1 := by
  fun_induction pushRun count bytes actions with
  | case1 => omega
  | case2 => exact Nat.le_refl _

/-- A record covers one action at least. -/
theorem lt_stop_of_firstRecord? {index : Nat} {actions : List Action} {record : Record}
    (found : firstRecord? index actions = some record) : index < record.stop := by
  unfold firstRecord? at found
  split at found
  · cases found
  · rename_i value rest
    cases found
    have := le_pushRun 1 value.width rest
    dsimp only
    omega
  · cases found; exact Nat.lt_succ_self _
  · cases found; exact Nat.lt_succ_self _

theorem ne_nil_of_firstRecord? {index : Nat} {actions : List Action} {record : Record}
    (found : firstRecord? index actions = some record) : actions ≠ [] := by
  rintro rfl
  cases found

/-- The records of a sequence whose first action has the given index, after those in `done`. -/
def recordsFrom (done : Array Record) (index : Nat) (actions : List Action) : Array Record :=
  match _found : firstRecord? index actions with
  | none => done
  | some record => recordsFrom (done.push record) record.stop (actions.drop (record.stop - index))
termination_by actions.length
decreasing_by
  have := lt_stop_of_firstRecord? _found
  have := List.length_pos_iff.mpr (ne_nil_of_firstRecord? _found)
  rw [List.length_drop]
  omega

/-- The records of a sequence. -/
def records (actions : List Action) : List Record := (recordsFrom #[] 0 actions).toList

end ActionCode
