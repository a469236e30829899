/-
**Blocks and the closing markers they expect.**

A sequence is a list of pieces, each an action and the room it takes. Its blocks are read with a
stack of closings that are still to come: a block that opens pushes its own closings, and a closing
marker pops the one on top, **which must be of its kind and due at this very point**.

* `Spanned`: the closings of a block with its sizes, from the point after it on.
* `Closes`: the pieces close all blocks they open and the closings given, and the sizes that they
  should have.
* **`Closes.sorted`**: closings come in the order of their points.
-/

import ActionCode.Assembly.Blocks
import Mathlib.Algebra.Ring.Nat

namespace ActionCode

/-! ### Places and pieces -/

/-- A point in a sequence: the bytes and the records before it. -/
structure Point where
  bytes : Nat
  records : Nat
deriving DecidableEq

/-- A point is not after another. -/
structure Point.Le (first second : Point) : Prop where
  bytes : first.bytes ≤ second.bytes
  records : first.records ≤ second.records

theorem Point.Le.refl (point : Point) : Point.Le point point := ⟨Nat.le_refl _, Nat.le_refl _⟩

theorem Point.Le.trans {first second third : Point} (early : Point.Le first second)
    (late : Point.Le second third) : Point.Le first third :=
  ⟨Nat.le_trans early.bytes late.bytes, Nat.le_trans early.records late.records⟩

/-- An action and the room it takes. -/
structure Piece where
  action : Action
  bytes : Nat
  records : Nat

/-- The point after a piece. -/
def Point.after (point : Point) (piece : Piece) : Point :=
  ⟨point.bytes + piece.bytes, point.records + piece.records⟩

theorem Point.le_after (point : Point) (piece : Piece) : Point.Le point (point.after piece) :=
  ⟨Nat.le_add_right _ _, Nat.le_add_right _ _⟩

/-- A marker takes no room. -/
def Piece.ofMarker (marker : Marker) : Piece := ⟨.marker marker, 0, 0⟩

@[simp]
theorem Point.after_ofMarker (point : Point) (marker : Marker) :
    point.after (.ofMarker marker) = point := rfl

/-- The point after a list of pieces. -/
def Point.through (point : Point) (pieces : List Piece) : Point := pieces.foldl Point.after point

theorem Point.le_through (point : Point) (pieces : List Piece) :
    Point.Le point (point.through pieces) := by
  induction pieces generalizing point with
  | nil => exact .refl _
  | cons piece rest ih => exact (point.le_after piece).trans (ih (point.after piece))

theorem Point.bytes_through (point : Point) (pieces : List Piece) :
    (point.through pieces).bytes = point.bytes + (pieces.map Piece.bytes).sum := by
  induction pieces generalizing point with
  | nil => rfl
  | cons piece rest ih =>
    rw [List.map_cons, List.sum_cons, ← Nat.add_assoc]
    exact ih (point.after piece)

/-- Whether a marker closes a span. All but labels do. -/
def Marker.closes : Marker → Bool
  | .label _ => false
  | _ => true

/-- The marker that closes a span, if an action is one. -/
def Action.closing? : Action → Option Marker
  | .marker found => if found.closes then some found else none
  | _ => none

/-- An action that neither opens a block nor closes a span. -/
structure Action.Flat (action : Action) : Prop where
  block : action.block? = none
  closing : action.closing? = none

/-- An action opens a block, closes a span, or neither. -/
theorem Action.opening_closing_or_flat (action : Action) :
    (∃ block, action = .plain (.block block)) ∨
      (∃ marker, action = .marker marker ∧ marker.closes = true) ∨ action.Flat := by
  cases action with
  | plain instruction =>
    cases instruction with
    | block block => exact .inl ⟨block, rfl⟩
    | _ => exact .inr (.inr ⟨rfl, rfl⟩)
  | define signature body => exact .inr (.inr ⟨rfl, rfl⟩)
  | marker found =>
    cases closes : found.closes with
    | true => exact .inr (.inl ⟨found, rfl, closes⟩)
    | false => exact .inr (.inr ⟨rfl, by rw [closing?, closes]; rfl⟩)

/-- A block without its sizes. -/
def Block.unsized : Block → Block
  | .scope _ => .scope 0
  | .wait frame _ => .wait frame 0
  | .exception handlers =>
    .exception { handlers with trySize := 0, catchSize := 0, finallySize := 0 }

/-! ### Closings to come -/

/-- A closing marker that is still to come, and the point where it is due. -/
structure Pending where
  marker : Marker
  point : Point
deriving DecidableEq

/-- The closings of a block with its sizes, if it is followed by a point. A handler or a cleanup
without a marker is empty. -/
inductive Spanned : Block → Point → List Pending → Prop
  | scope {size : UInt16} {start stop : Point}
      (bytes : stop.bytes = start.bytes + size.toNat) :
      Spanned (.scope size) start [⟨.endWith, stop⟩]
  | wait {frame : Option UInt16} {skipCount : UInt8} {start stop : Point}
      (records : stop.records = start.records + skipCount.toNat) :
      Spanned (.wait frame skipCount) start [⟨.endWait, stop⟩]
  | attempt {block : TryBlock} {start tryEnd : Point}
      (attempt : tryEnd.bytes = start.bytes + block.trySize.toNat)
      (handler : block.catchSize = 0) (cleanup : block.finallySize = 0) :
      Spanned (.exception block) start [⟨.endTry, tryEnd⟩]
  | handled {block : TryBlock} {start tryEnd catchEnd : Point}
      (attempt : tryEnd.bytes = start.bytes + block.trySize.toNat)
      (handler : catchEnd.bytes = tryEnd.bytes + block.catchSize.toNat)
      (cleanup : block.finallySize = 0) :
      Spanned (.exception block) start [⟨.catchStart, tryEnd⟩, ⟨.endTry, catchEnd⟩]
  | cleaned {block : TryBlock} {start tryEnd finallyEnd : Point}
      (attempt : tryEnd.bytes = start.bytes + block.trySize.toNat)
      (handler : block.catchSize = 0)
      (cleanup : finallyEnd.bytes = tryEnd.bytes + block.finallySize.toNat) :
      Spanned (.exception block) start [⟨.finallyStart, tryEnd⟩, ⟨.endTry, finallyEnd⟩]
  | full {block : TryBlock} {start tryEnd catchEnd finallyEnd : Point}
      (attempt : tryEnd.bytes = start.bytes + block.trySize.toNat)
      (handler : catchEnd.bytes = tryEnd.bytes + block.catchSize.toNat)
      (cleanup : finallyEnd.bytes = catchEnd.bytes + block.finallySize.toNat) :
      Spanned (.exception block) start
        [⟨.catchStart, tryEnd⟩, ⟨.finallyStart, catchEnd⟩, ⟨.endTry, finallyEnd⟩]

/-- The pieces from a point on close the blocks they open and the closings of a stack, each at its
point. The actions are those of the pieces with the sizes that their blocks have. -/
inductive Closes : Point → List Piece → List Action → List Pending → Prop
  | nil (point : Point) : Closes point [] [] []
  | flat {point : Point} {piece : Piece} {rest : List Piece} {sized : List Action}
      {stack : List Pending} (flat : piece.action.Flat)
      (later : Closes (point.after piece) rest sized stack) :
      Closes point (piece :: rest) (piece.action :: sized) stack
  | opening {point : Point} {piece : Piece} {old new : Block} {rest : List Piece}
      {sized : List Action} {own stack : List Pending}
      (opens : piece.action = .plain (.block old)) (same : old.unsized = new.unsized)
      (spanned : Spanned new (point.after piece) own)
      (later : Closes (point.after piece) rest sized (own ++ stack)) :
      Closes point (piece :: rest) (.plain (.block new) :: sized) stack
  | closing {point : Point} {marker : Marker} {rest : List Piece} {sized : List Action}
      {stack : List Pending} (closes : marker.closes = true)
      (later : Closes point rest sized stack) :
      Closes point (.ofMarker marker :: rest) (.marker marker :: sized) (⟨marker, point⟩ :: stack)

/-! #### The first piece -/

theorem Action.not_flat_of_block {action : Action} {block : Block}
    (opens : action = .plain (.block block)) : ¬ action.Flat := by
  subst opens
  exact fun flat => by cases flat.block

theorem Action.not_flat_of_closes {marker : Marker} (closes : marker.closes = true) :
    ¬ (Action.marker marker).Flat := by
  intro flat
  have none := flat.closing
  rw [closing?, closes] at none
  cases none

theorem Closes.cons_flat {point : Point} {piece : Piece} {rest : List Piece} {sized : List Action}
    {stack : List Pending} (closes : Closes point (piece :: rest) sized stack)
    (flat : piece.action.Flat) :
    ∃ later, sized = piece.action :: later ∧ Closes (point.after piece) rest later stack := by
  cases closes with
  | flat _ later => exact ⟨_, rfl, later⟩
  | opening opens _ _ _ => exact absurd flat (Action.not_flat_of_block opens)
  | closing closes _ => exact absurd flat (Action.not_flat_of_closes closes)

theorem Closes.cons_block {point : Point} {piece : Piece} {rest : List Piece} {sized : List Action}
    {stack : List Pending} {old : Block} (closes : Closes point (piece :: rest) sized stack)
    (opens : piece.action = .plain (.block old)) :
    ∃ new later own, sized = .plain (.block new) :: later ∧ old.unsized = new.unsized ∧
      Spanned new (point.after piece) own ∧ Closes (point.after piece) rest later (own ++ stack) := by
  cases closes with
  | flat flat _ => exact absurd flat (Action.not_flat_of_block opens)
  | opening opens' same spanned later =>
    rw [opens'] at opens
    cases opens
    exact ⟨_, _, _, rfl, same, spanned, later⟩
  | closing _ _ => cases opens

theorem Closes.cons_closing {point : Point} {marker : Marker} {rest : List Piece}
    {sized : List Action} {stack : List Pending}
    (closes : Closes point (.ofMarker marker :: rest) sized stack)
    (isClosing : marker.closes = true) :
    ∃ later stack', sized = .marker marker :: later ∧ stack = ⟨marker, point⟩ :: stack' ∧
      Closes point rest later stack' := by
  cases closes with
  | flat flat _ => exact absurd flat (Action.not_flat_of_closes isClosing)
  | opening opens _ _ _ => cases opens
  | closing _ later => exact ⟨_, _, rfl, rfl, later⟩

/-! #### The order of closings -/

/-- Closings are due in the order of a stack, and none before a point. -/
def Due (point : Point) : List Pending → Prop
  | [] => True
  | next :: stack => Point.Le point next.point ∧ Due next.point stack

theorem Due.earlier {first second : Point} (le : Point.Le first second) {stack : List Pending}
    (due : Due second stack) : Due first stack := by
  cases stack with
  | nil => trivial
  | cons next stack => exact ⟨le.trans due.1, due.2⟩

theorem Due.append_left {point : Point} {own stack : List Pending} (due : Due point (own ++ stack)) :
    Due point own := by
  induction own generalizing point with
  | nil => trivial
  | cons next own ih => exact ⟨due.1, ih due.2⟩

theorem Due.append_right {point : Point} {own stack : List Pending}
    (due : Due point (own ++ stack)) : Due point stack := by
  induction own generalizing point with
  | nil => exact due
  | cons next own ih => exact (ih due.2).earlier due.1

theorem Due.le_of_mem {point : Point} {stack : List Pending} (due : Due point stack)
    {pending : Pending} (inside : pending ∈ stack) : Point.Le point pending.point := by
  induction stack generalizing point with
  | nil => cases inside
  | cons next stack ih =>
    rcases List.mem_cons.mp inside with rfl | inside
    · exact due.1
    · exact due.1.trans (ih due.2 inside)

theorem Due.le_of_append {point : Point} {own stack : List Pending} (due : Due point (own ++ stack))
    {first second : Pending} (inside : first ∈ own) (inside' : second ∈ stack) :
    Point.Le first.point second.point := by
  induction own generalizing point with
  | nil => cases inside
  | cons next own ih =>
    rcases List.mem_cons.mp inside with rfl | inside
    · exact due.2.append_right.le_of_mem inside'
    · exact ih due.2 inside

/-- **Closings come in the order of their points.** -/
theorem Closes.sorted {point : Point} {pieces : List Piece} {sized : List Action}
    {stack : List Pending} (closes : Closes point pieces sized stack) : Due point stack := by
  induction closes with
  | nil point => trivial
  | flat _ _ ih => exact ih.earlier (Point.le_after _ _)
  | opening _ _ _ _ ih => exact ih.append_right.earlier (Point.le_after _ _)
  | closing _ _ ih => exact ⟨.refl _, ih⟩

end ActionCode
