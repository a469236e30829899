/-
**Where branches go, counted in actions.**

* `placeOf`: how many real actions stand before a label. `destinations`: where the branches of a
  sequence go.
* `countBefore`: how many real actions begin before a byte.
* **`destinations_eq`**: if branches are aimed, they go to the actions that begin at their targets.
-/

import ActionCode.Proofs.Merging.Keeping

namespace ActionCode

/-! ### Branches and actions -/

/-- How many real actions stand before a label, if it is placed. -/
def placeOf (label : Label) : List Action → Option Nat
  | [] => none
  | .marker found :: rest => if found = .label label then some 0 else placeOf label rest
  | _ :: rest => (placeOf label rest).map (· + 1)

/-- Where the branches of a sequence go, in order: how many real actions stand before their labels. A
branch without a label, or with one that is not placed, goes nowhere. -/
def destinations (actions : List Action) : List (Option Nat) :=
  (actions.filterMap Action.branch?).map fun branch =>
    branch.label.bind fun label => placeOf label actions

theorem placeOf_real {action : Action} (real : action.isMarker = false) (label : Label)
    (rest : List Action) :
    placeOf label (action :: rest) = (placeOf label rest).map (· + 1) := by
  cases action with
  | marker found => cases real
  | _ => rfl

theorem placeOf_reals {front : List Action} (real : ∀ action ∈ front, action.isMarker = false)
    (label : Label) (rest : List Action) :
    placeOf label (front ++ rest) = (placeOf label rest).map (· + front.length) := by
  induction front with
  | nil => exact Option.map_id'.symm
  | cons action front ih =>
    rw [List.cons_append, placeOf_real (real action List.mem_cons_self),
      ih fun other inside => real other (List.mem_cons_of_mem _ inside), Option.map_map]
    rfl

theorem placeOf_marker {found : Marker} {label : Label} (other : found ≠ .label label)
    (rest : List Action) : placeOf label (.marker found :: rest) = placeOf label rest :=
  if_neg other

/-- A change that keeps markers keeps the places of labels. -/
theorem placeOf_map {change : Action → Action}
    (marker : ∀ found, change (.marker found) = .marker found)
    (real : ∀ action, (change action).isMarker = action.isMarker) (label : Label)
    (actions : List Action) : placeOf label (actions.map change) = placeOf label actions := by
  induction actions with
  | nil => rfl
  | cons action rest ih =>
    have onReal : action.isMarker = false →
        placeOf label ((action :: rest).map change) = placeOf label (action :: rest) := by
      intro isReal
      rw [List.map_cons, placeOf_real ((real action).trans isReal), placeOf_real isReal, ih]
    cases action with
    | marker found =>
      rw [List.map_cons, marker, placeOf, placeOf, ih]
    | plain instruction => exact onReal rfl
    | define signature body => exact onReal rfl

/-- Changes that keep markers and the labels of branches keep where branches go. -/
theorem destinations_map {change : Action → Action}
    (marker : ∀ found, change (.marker found) = .marker found)
    (real : ∀ action, (change action).isMarker = action.isMarker)
    (branch : ∀ action, (change action).branch?.map Branch.label = action.branch?.map Branch.label)
    (actions : List Action) : destinations (actions.map change) = destinations actions := by
  have labels : ((actions.map change).filterMap Action.branch?).map Branch.label =
      (actions.filterMap Action.branch?).map Branch.label := by
    rw [List.filterMap_map, List.map_filterMap, List.map_filterMap]
    exact List.filterMap_congr fun action _ => branch action
  have same : ∀ code : List Action, destinations code =
      ((code.filterMap Action.branch?).map Branch.label).map
        fun label => label.bind fun label => placeOf label code := by
    intro code
    rw [List.map_map]
    rfl
  rw [same, same, labels]
  refine List.map_congr_left fun label _ => ?_
  cases label with
  | none => rfl
  | some label => exact placeOf_map marker real label actions

/-! ### Actions that begin before a byte -/

/-- How many single real actions of pieces from a byte on begin before another byte. -/
def countBefore (place position : Nat) : List Piece → Nat
  | [] => 0
  | piece :: rest => (if position < place then piece.action.splitPush.length else 0) +
    countBefore place (position + piece.bytes) rest

theorem countBefore_of_le {place position : Nat} (le : place ≤ position) (pieces : List Piece) :
    countBefore place position pieces = 0 := by
  induction pieces generalizing position with
  | nil => rfl
  | cons piece rest ih =>
    rw [countBefore, if_neg (Nat.not_lt.mpr le), ih (le.trans (Nat.le_add_right ..))]

theorem countBefore_cons {place position : Nat} {piece : Piece}
    (late : position + piece.bytes ≤ place) (real : piece.Real) (rest : List Piece) :
    countBefore place position (piece :: rest) =
      piece.action.splitPush.length + countBefore place (position + piece.bytes) rest := by
  have positive := real.bytes
  rw [countBefore, if_pos (by omega)]

/-- What is seen of pieces from a byte on is not before that byte. -/
theorem le_of_marksOf {β : Type} {view : Action → Option β} {position : Nat} {pieces : List Piece}
    {mark : β × Nat} (inside : mark ∈ marksOf view position pieces) : position ≤ mark.2 := by
  obtain ⟨⟨last, reached, equal⟩, _⟩ := reached_of_marksOf ⟨position, 0⟩ inside
  exact equal ▸ reached.le.bytes

/-- **Before a label stand the actions that begin before its byte.** -/
theorem placeOf_eq {pieces : List Piece} (solid : AllSolid pieces) {position : Nat}
    (once : ((marksOf Action.label? position pieces).map Prod.fst).Nodup) {label : Label}
    {place : Nat} (inside : (label, place) ∈ marksOf Action.label? position pieces) :
    placeOf label (splitPushes (pieces.map Piece.action)) =
      some (countBefore place position (reals pieces)) := by
  induction pieces generalizing position with
  | nil => cases inside
  | cons piece rest ih =>
    rw [marksOf, List.map_append] at once
    have later := (List.nodup_append.mp once).2.1
    rw [List.map_cons, splitPushes_cons]
    obtain ⟨marker, rfl⟩ | isReal := solid.head
    · rw [reals_ofMarker]
      rcases marksOf_cons_iff.mp inside with ⟨isLabel, here⟩ | inside
      · rw [(Action.label?_eq_some_iff _).mp isLabel, countBefore_of_le (Nat.le_of_eq here)]
        exact if_pos rfl
      · refine (placeOf_marker (fun isLabel => ?_) _).trans (ih solid.tail later inside)
        refine (List.nodup_append.mp once).2.2 label ?_ label
          (List.mem_map.mpr ⟨_, inside, rfl⟩) rfl
        rw [isLabel]
        exact List.mem_cons_self
    · rcases marksOf_cons_iff.mp inside with ⟨isLabel, _⟩ | inside
      · rw [isReal.label?] at isLabel
        cases isLabel
      · rw [placeOf_reals (Action.isMarker_splitPush isReal.real), ih solid.tail later inside,
          reals_cons isReal.real, countBefore_cons (le_of_marksOf inside) isReal]
        exact congrArg some (Nat.add_comm ..)

/-- **Branches that are aimed go to the actions that begin at their targets.** -/
theorem destinations_eq {pieces : List Piece} (solid : AllSolid pieces) (aimed : Aimed pieces)
    (labelled : ∀ mark ∈ branchMarks pieces, mark.1.label ≠ none) :
    destinations (splitPushes (pieces.map Piece.action)) =
      (targetsFrom 0 (reals pieces)).map
        fun target => some (countBefore target.toNat 0 (reals pieces)) := by
  have branches : (splitPushes (pieces.map Piece.action)).filterMap Action.branch? =
      (branchMarks pieces).map Prod.fst := by
    rw [filterMap_splitPushes fun _ some => (Action.unseen_of_pushed some).2.1, branchMarks,
      map_fst_marksOf, List.filterMap_map]
    rfl
  rw [destinations, branches, targetsFrom_eq_marks, branchMarks_reals solid, List.map_map,
    List.map_map]
  refine List.map_congr_left fun mark inside => ?_
  obtain ⟨label, isLabel⟩ := Option.ne_none_iff_exists'.mp (labelled mark inside)
  obtain ⟨place, placed, goes⟩ := aimed.hits mark inside label isLabel
  show mark.1.label.bind _ = some (countBefore (mark.1.target mark.2).toNat 0 (reals pieces))
  rw [isLabel, goes, Int.toNat_natCast]
  exact placeOf_eq solid aimed.once placed

end ActionCode
