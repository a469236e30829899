/-
**Branch offsets become labels.**

* `Located`: a decoded action with its place in the input.
* `Located.target`: the byte that a branch goes to, relative to its sequence.
* `bindLabels`: **two branches of a sequence share a label exactly if they go to the same byte**,
  which must be where an action starts, or the end of the sequence. Labels are numbered in the order
  in which the branches need them.
* `placeLabels`: each label marker right before the action that starts at its byte.
-/

import Std.Data.TreeMap.Basic
import Std.Data.TreeSet.Basic
import ActionCode.Decoding

namespace ActionCode

/-- A decoded action with its place in the input. -/
structure Located where
  action : Action
  /-- Absolute offset of its first byte. -/
  offset : Nat
  /-- Its bytes, with the code of a definition; none for markers. -/
  span : Nat

/-- Where a sequence lies in the input: the absolute offsets of its first byte and of its end. -/
structure Region where
  base : Nat
  stop : Nat

/-- The length of a sequence in bytes. -/
def Region.length (region : Region) : Nat := region.stop - region.base

/-- The labels of a sequence by the byte they stand for, and the number of the next one. -/
structure Binding where
  labels : Std.TreeMap Nat Label
  nextLabel : Nat

/-- The label of a byte, which is a new one if no branch has gone there before. -/
def Binding.labelFor (binding : Binding) (target : Nat) : Label × Binding :=
  match binding.labels[target]? with
  | some label => (label, binding)
  | none =>
    let label := Label.mk binding.nextLabel
    (label, ⟨binding.labels.insert target label, binding.nextLabel + 1⟩)

/-- The byte that a branch goes to, relative to the first byte of its sequence. -/
def Located.target (region : Region) (located : Located) (branch : Branch) : Int :=
  (located.offset - region.base + Branch.width : Nat) + branch.offset.toInt

/-- The first bytes of the actions of a sequence, relative to its own. -/
def startsOf (region : Region) (located : List Located) : Std.TreeSet Nat :=
  located.foldl (fun starts row => starts.insert (row.offset - region.base)) ∅

/-- A branch bound to the label of its target, which must be where an action starts, or the end. -/
def bindBranch (region : Region) (starts : Std.TreeSet Nat) (located : Located) (branch : Branch)
    (binding : Binding) : Except DisassemblyFault (Located × Binding) :=
  let target := located.target region branch
  if target < 0 ∨ (region.length : Int) < target then
    .error (.branchOutOfRange located.offset target)
  else if target.toNat = region.length ∨ starts.contains target.toNat then
    let (label, binding) := binding.labelFor target.toNat
    let bound := { branch with label := some label }
    .ok ({ located with action := .plain (.branch bound) }, binding)
  else .error (.misalignedBranch located.offset target.toNat)

/-- Bind one action: a branch gets its label, and other actions stay. -/
def bindRow (region : Region) (starts : Std.TreeSet Nat) (located : Located) :
    StateT Binding (Except DisassemblyFault) Located := fun binding =>
  match located.action.branch? with
  | none => .ok (located, binding)
  | some branch => bindBranch region starts located branch binding

/-- Bind every branch of a sequence. New labels are numbered from `nextLabel` on. -/
def bindLabels (region : Region) (located : List Located) (nextLabel : Nat) :
    Except DisassemblyFault (List Located × Binding) :=
  (located.mapM (bindRow region (startsOf region located))).run ⟨∅, nextLabel⟩

/-- A label marker at an absolute offset. -/
def Located.ofLabel (label : Label) (offset : Nat) : Located :=
  ⟨.marker (.label label), offset, 0⟩

/-- The marker of the label of a byte, if the byte has one. -/
def labelAt (region : Region) (labels : Std.TreeMap Nat Label) (offset : Nat) : List Located :=
  match labels[offset - region.base]? with
  | some label => [Located.ofLabel label offset]
  | none => []

/-- Put each label right before the action that starts at its byte, and the label of the end after
all actions. -/
def placeLabels (region : Region) (labels : Std.TreeMap Nat Label) (located : List Located) :
    List Located :=
  (located.flatMap fun row => labelAt region labels row.offset ++ [row]) ++
    labelAt region labels region.stop

end ActionCode
