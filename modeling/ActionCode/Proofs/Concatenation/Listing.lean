/-
**The listing of concatenated pieces.**

* `placed_append`: the spans of a sequence end in it, so closings are placed in each part.
* `openLabels`: labels before actions, without that of the end. **The label of the end stands before
  the first action of what follows.**
* `relabelPieces`: pieces with other names for labels. Binding, closings and labels go along.
* `listing_append`: the listing of two parts. **`listing_two`**: from the listings of each.
-/

import ActionCode.Proofs.Concatenation.Names
import ActionCode.Proofs.RoundTrip.Crossing

namespace ActionCode

variable {front back : List Piece} {labels : Nat → Option Label} {position : Nat}

/-- The bytes of pieces. -/
def widthOf (pieces : List Piece) : Nat := (pieces.map Piece.bytes).sum

theorem widthOf_cons (piece : Piece) (rest : List Piece) :
    widthOf (piece :: rest) = piece.bytes + widthOf rest := by
  rw [widthOf, List.map_cons, List.sum_cons, widthOf]

/-! ### Closings of each part -/

theorem aligned_append {room : Piece → Nat} {amount : Nat} (aligned : Aligned room amount front)
    (back : List Piece) : Aligned room amount (front ++ back) := by
  induction front generalizing amount with
  | nil =>
    cases amount with
    | zero => exact aligned_zero _ _
    | succ amount => cases aligned
  | cons piece rest ih =>
    by_cases zero : amount = 0
    · subst zero
      exact aligned_zero _ _
    · have positive := Nat.pos_of_ne_zero zero
      obtain ⟨fits, later⟩ := (aligned_cons positive).mp aligned
      exact (aligned_cons positive).mpr ⟨fits, ih later⟩

theorem AllReal.append (real : AllReal front) (real' : AllReal back) : AllReal (front ++ back) :=
  fun piece inside => (List.mem_append.mp inside).elim (real piece) (real' piece)

theorem allFit_append (fit : AllFit front) (fit' : AllFit back) : AllFit (front ++ back) := by
  induction front with
  | nil => exact fit'
  | cons piece rest ih =>
    exact ⟨fun block opens stop inside => aligned_append (fit.1 block opens stop inside) back,
      ih fit.2⟩

/-- Pieces do not begin with a closing. -/
def Unbegun (pieces : List Piece) : Prop :=
  ∀ piece rest, pieces = piece :: rest → piece.action.closing? = none

theorem insertClosing_append {marker : Marker} {amount : Nat}
    (aligned : Aligned marker.room amount front) (unbegun : Unbegun back) :
    insertClosing marker amount (front ++ back) = insertClosing marker amount front ++ back := by
  induction front generalizing amount with
  | nil =>
    cases amount with
    | succ amount => cases aligned
    | zero =>
      rw [List.nil_append, insertClosing_nil]
      cases back with
      | nil => exact insertClosing_nil marker 0
      | cons piece rest => rw [insertClosing, if_pos ⟨rfl, unbegun piece rest rfl⟩]; rfl
  | cons piece rest ih =>
    rw [List.cons_append, insertClosing, insertClosing]
    by_cases here : amount = 0 ∧ piece.action.closing? = none
    · rw [if_pos here, if_pos here]
      rfl
    · have later : Aligned marker.room (amount - marker.room piece) rest := by
        by_cases zero : amount = 0
        · subst zero
          rw [Nat.zero_sub]
          exact aligned_zero _ _
        · exact ((aligned_cons (Nat.pos_of_ne_zero zero)).mp aligned).2
      rw [if_neg here, if_neg here, ih later]
      rfl

theorem unbegun_placed (real : AllReal back) : Unbegun (placed back) := by
  intro piece rest equal
  cases back with
  | nil => cases equal
  | cons first later =>
    cases equal
    exact real.head.closing

/-- **Spans that end in their part are closed there.** -/
theorem placed_append (real : AllReal front) (fit : AllFit front) (real' : AllReal back) :
    placed (front ++ back) = placed front ++ placed back := by
  induction front with
  | nil => rfl
  | cons piece rest ih =>
    rw [List.cons_append, placed, placed, ih real.tail fit.2, List.cons_append]
    have enters : piece.enter (placed rest ++ placed back) = piece.enter (placed rest) ++ placed back :=
      enter_comm (fun _ aligned => insertClosing_append aligned (unbegun_placed real')) real.tail fit
    exact congrArg (piece :: ·) enters

/-! ### Labels of each part -/

theorem bindFrom_append (labels : Nat → Option Label) (position : Nat) (front back : List Piece) :
    bindFrom labels position (front ++ back) =
      bindFrom labels position front ++ bindFrom labels (position + widthOf front) back := by
  induction front generalizing position with
  | nil => rfl
  | cons piece rest ih =>
    rw [List.cons_append, bindFrom, bindFrom, ih, widthOf_cons, Nat.add_assoc]
    rfl

theorem targetsFrom_append (position : Nat) (front back : List Piece) :
    targetsFrom position (front ++ back) =
      targetsFrom position front ++ targetsFrom (position + widthOf front) back := by
  rw [targetsFrom_eq_marks, marksOf_append, List.map_append, ← targetsFrom_eq_marks,
    ← targetsFrom_eq_marks]
  rfl

/-- Pieces from a byte on, with a label before each real piece that begins at its byte, but without
that of the end. -/
def openLabels (labels : Nat → Option Label) (position : Nat) : List Piece → List Piece
  | [] => []
  | piece :: rest =>
    if piece.action.isMarker then piece :: openLabels labels position rest
    else labelPieces labels position ++ piece :: openLabels labels (position + piece.bytes) rest

/-- Pieces from a byte on with their labels, but without that of the first byte. -/
def laterLabels (labels : Nat → Option Label) (position : Nat) : List Piece → List Piece
  | [] => []
  | piece :: rest => piece :: insertLabels labels (position + piece.bytes) rest

theorem openLabels_real {piece : Piece} (real : piece.Real) (labels : Nat → Option Label)
    (position : Nat) (rest : List Piece) :
    openLabels labels position (piece :: rest) = labelPieces labels position ++
      piece :: openLabels labels (position + piece.bytes) rest := by
  rw [openLabels, if_neg (by rw [real.real]; exact Bool.false_ne_true)]

theorem openLabels_marker {piece : Piece} (marker : piece.action.isMarker = true)
    (labels : Nat → Option Label) (position : Nat) (rest : List Piece) :
    openLabels labels position (piece :: rest) = piece :: openLabels labels position rest := by
  rw [openLabels, if_pos marker]

/-- **What follows has the label of the end before its first action.** -/
theorem insertLabels_append (solid : AllSolid front) (labels : Nat → Option Label) (position : Nat)
    (back : List Piece) :
    insertLabels labels position (front ++ back) =
      openLabels labels position front ++
        insertLabels labels (position + widthOf front) back := by
  induction front generalizing position with
  | nil => rfl
  | cons piece rest ih =>
    have later := ih solid.tail
    obtain ⟨marker, rfl⟩ | real := solid.head
    · have width : widthOf (.ofMarker marker :: rest) = widthOf rest := by
        rw [widthOf_cons]
        exact Nat.zero_add _
      rw [List.cons_append, insertLabels_ofMarker, later, width]
      rfl
    · rw [List.cons_append, insertLabels_real real, openLabels_real real, later, widthOf_cons,
        Nat.add_assoc, List.append_assoc, List.cons_append]

theorem insertLabels_stop (solid : AllSolid front) (labels : Nat → Option Label) (position : Nat) :
    insertLabels labels position front =
      openLabels labels position front ++ labelPieces labels (position + widthOf front) := by
  have whole := insertLabels_append solid labels position []
  rw [List.append_nil] at whole
  exact whole

theorem insertLabels_placed (real : AllReal back) (labels : Nat → Option Label) (position : Nat) :
    insertLabels labels position (placed back) =
      labelPieces labels position ++ laterLabels labels position (placed back) := by
  cases back with
  | nil => exact (List.append_nil _).symm
  | cons piece rest => exact insertLabels_real real.head labels position _

theorem widthOf_placed (real : AllReal front) : widthOf (placed front) = widthOf front := by
  rw [widthOf, ← sum_bytes_reals (bare_placed real).solid, reals_placed real, widthOf]

/-- **The listing of two parts**: what follows has the label between them before its first action. -/
theorem listing_append (real : AllReal front) (fit : AllFit front) (real' : AllReal back)
    (fit' : AllFit back) (labels : Nat → Option Label) :
    placed (insertLabels labels 0 (front ++ back)) =
      openLabels labels 0 (placed front) ++ labelPieces labels (widthOf front) ++
        laterLabels labels (widthOf front) (placed back) := by
  rw [placed_insertLabels (real.append real') (allFit_append fit fit'), placed_append real fit real',
    insertLabels_append (bare_placed real).solid, insertLabels_placed real', widthOf_placed real,
    Nat.zero_add, List.append_assoc]

theorem widthOf_bindFrom (labels : Nat → Option Label) (position : Nat) (pieces : List Piece) :
    widthOf (bindFrom labels position pieces) = widthOf pieces :=
  congrArg List.sum (map_room_bindFrom labels position .endWith pieces)

/-! ### Other names -/

/-- Pieces with other names for labels, those in their code included. -/
def relabelPieces (names : Label → Label) (pieces : List Piece) : List Piece :=
  pieces.map (Piece.withAction (Action.relabelled names))

section

variable {names other : Label → Label} {labels' : Nat → Option Label} {distance : Nat}
  {pieces : List Piece}

theorem relabelPieces_cons (names : Label → Label) (piece : Piece) (rest : List Piece) :
    relabelPieces names (piece :: rest) =
      piece.withAction (Action.relabelled names) :: relabelPieces names rest := List.map_cons

theorem Piece.block?_relabelled (names : Label → Label) (piece : Piece) :
    (piece.withAction (Action.relabelled names)).action.block? = piece.action.block? :=
  piece.action.block?_relabelled

/-- Other names take no more room. -/
theorem Piece.add_bytes_relabelled (names : Label → Label) (distance position : Nat) (piece : Piece) :
    distance + position + (piece.withAction (Action.relabelled names)).bytes =
      distance + (position + piece.bytes) := Nat.add_assoc ..

theorem Piece.Real.relabelled {piece : Piece} (real : piece.Real) (names : Label → Label) :
    (piece.withAction (Action.relabelled names)).Real :=
  ⟨piece.action.isMarker_relabelled.trans real.real, real.bytes, real.records⟩

theorem relabelPieces_append (names : Label → Label) (front back : List Piece) :
    relabelPieces names (front ++ back) = relabelPieces names front ++ relabelPieces names back :=
  List.map_append

theorem map_action_relabelPieces (names : Label → Label) (pieces : List Piece) :
    (relabelPieces names pieces).map Piece.action =
      (pieces.map Piece.action).map (Action.relabelled names) := by
  rw [relabelPieces, List.map_map, List.map_map]
  rfl

theorem Action.closing?_relabelled (action : Action) :
    (action.relabelled names).closing? = action.closing? := by
  rw [relabelled_shell closing? fun _ _ _ => rfl]
  unfold renamed
  split <;> rfl

/-- Other names keep where spans end. -/
theorem allFit_relabelPieces (names : Label → Label) (pieces : List Piece) :
    AllFit (relabelPieces names pieces) ↔ AllFit pieces := by
  refine allFit_congr ?_
  rw [relabelPieces, List.map_map]
  refine List.map_congr_left fun piece _ => ?_
  exact congrArg (fun block => (block.map Block.ends, piece.bytes, piece.records))
    (piece.block?_relabelled names)

theorem AllReal.relabelPieces (real : AllReal pieces) (names : Label → Label) :
    AllReal (ActionCode.relabelPieces names pieces) := by
  intro piece inside
  obtain ⟨own, member, rfl⟩ := List.mem_map.mp inside
  exact (real own member).relabelled names

theorem widthOf_relabelPieces (names : Label → Label) (pieces : List Piece) :
    widthOf (relabelPieces names pieces) = widthOf pieces := by
  rw [widthOf, relabelPieces, List.map_map]
  rfl

/-- Closings are placed in the same way under other names. -/
theorem insertClosing_relabelPieces {marker : Marker} (closes : marker.closes = true)
    (amount : Nat) (pieces : List Piece) :
    insertClosing marker amount (relabelPieces names pieces) =
      relabelPieces names (insertClosing marker amount pieces) := by
  have own : Piece.withAction (Action.relabelled names) (.ofMarker marker) = .ofMarker marker := by
    show Piece.mk ((Action.marker marker).relabelled names) 0 0 = _
    rw [Action.relabelled_closing closes]
    rfl
  induction pieces generalizing amount with
  | nil =>
    rw [relabelPieces, List.map_nil, insertClosing, relabelPieces, List.map_cons, own, List.map_nil]
  | cons piece rest ih =>
    have closing : (Piece.withAction (Action.relabelled names) piece).action.closing? =
        piece.action.closing? := piece.action.closing?_relabelled
    have room : marker.room (Piece.withAction (Action.relabelled names) piece) =
        marker.room piece := by cases marker <;> rfl
    rw [relabelPieces_cons, insertClosing, closing, room, ih, insertClosing]
    split
    · rw [relabelPieces, relabelPieces, List.map_cons, List.map_cons, own]
    · rfl

theorem placed_relabelPieces (names : Label → Label) (pieces : List Piece) :
    placed (relabelPieces names pieces) = relabelPieces names (placed pieces) := by
  have all : ∀ (stops : List (Marker × Nat)) (pieces : List Piece),
      (∀ stop ∈ stops, stop.1.closes = true) →
        insertClosings stops (relabelPieces names pieces) =
          relabelPieces names (insertClosings stops pieces) := by
    intro stops
    induction stops with
    | nil => exact fun _ _ => rfl
    | cons stop stops ih =>
      intro pieces closes
      have later := ih (insertClosing stop.1 stop.2 pieces)
        fun stop inside => closes stop (List.mem_cons_of_mem _ inside)
      rw [← insertClosing_relabelPieces (closes stop List.mem_cons_self)] at later
      exact later
  induction pieces with
  | nil => rfl
  | cons piece rest ih =>
    rw [relabelPieces_cons, placed, placed, ih, Piece.enter, Piece.enter, piece.block?_relabelled]
    cases piece.action.block? with
    | none => rfl
    | some block =>
      dsimp only
      rw [all block.ends _ fun stop inside => Block.closes_of_mem_ends inside]
      rfl

/-- Labels with other names, elsewhere. -/
theorem labelPieces_relabelled {place place' : Nat}
    (same : labels' place' = (labels place).map names) :
    labelPieces labels' place' = relabelPieces names (labelPieces labels place) := by
  rw [labelPieces, labelPieces, same]
  cases labels place <;> rfl

theorem openLabels_relabelled (solid : AllSolid pieces)
    (same : ∀ place, position ≤ place → place < position + widthOf pieces →
      labels' (distance + place) = (labels place).map names) :
    openLabels labels' (distance + position) (relabelPieces names pieces) =
      relabelPieces names (openLabels labels position pieces) := by
  induction pieces generalizing position with
  | nil => rfl
  | cons piece rest ih =>
    obtain ⟨marker, rfl⟩ | real := solid.head
    · have later := ih solid.tail fun place after before =>
        same place after (by rw [widthOf_cons]; omega)
      have marked : (Piece.withAction (Action.relabelled names) (.ofMarker marker)).action.isMarker =
          true := (Action.marker marker).isMarker_relabelled
      rw [relabelPieces_cons, openLabels_marker marked, later, openLabels_marker rfl]
      rfl
    · have positive := real.bytes
      have here := same position (Nat.le_refl _) (by rw [widthOf_cons]; omega)
      have later : openLabels labels' (distance + (position + piece.bytes))
          (relabelPieces names rest) =
            relabelPieces names (openLabels labels (position + piece.bytes) rest) :=
        ih solid.tail fun place after before => same place (by omega) (by rw [widthOf_cons]; omega)
      rw [relabelPieces_cons, openLabels_real (real.relabelled names), piece.add_bytes_relabelled,
        later, openLabels_real real, relabelPieces_append, labelPieces_relabelled here]
      rfl

theorem insertLabels_relabelled (solid : AllSolid pieces)
    (same : ∀ place, position ≤ place → labels' (distance + place) = (labels place).map names) :
    insertLabels labels' (distance + position) (relabelPieces names pieces) =
      relabelPieces names (insertLabels labels position pieces) := by
  have solid' : AllSolid (relabelPieces names pieces) := by
    intro piece inside
    obtain ⟨own, member, rfl⟩ := List.mem_map.mp inside
    obtain ⟨marker, rfl⟩ | real := solid own member
    · refine .inl ?_
      cases marker with
      | label label => exact ⟨.label (names label), rfl⟩
      | _ => exact ⟨_, rfl⟩
    · exact .inr (real.relabelled names)
  rw [insertLabels_stop solid', insertLabels_stop solid, relabelPieces_append,
    openLabels_relabelled solid fun place after _ => same place after, widthOf_relabelPieces,
    Nat.add_assoc, labelPieces_relabelled (same _ (Nat.le_add_right _ _))]

theorem laterLabels_relabelled (real : AllReal pieces)
    (same : ∀ place, position < place → labels' (distance + place) = (labels place).map names) :
    laterLabels labels' (distance + position) (relabelPieces names (placed pieces)) =
      relabelPieces names (laterLabels labels position (placed pieces)) := by
  have solid := (bare_placed real).solid
  cases pieces with
  | nil => rfl
  | cons piece rest =>
    have positive := real.head.bytes
    rw [placed] at solid ⊢
    rw [relabelPieces_cons, laterLabels, laterLabels, piece.add_bytes_relabelled,
      insertLabels_relabelled solid.tail fun place after => same place (by omega)]
    rfl

theorem Branch.target_add (branch : Branch) (distance position : Nat) :
    branch.target (distance + position) = distance + branch.target position := by
  unfold target
  push_cast
  omega

theorem Action.bindTo_relabelled {action : Action} (real : action.isMarker = false)
    (agree : ∀ label ∈ action.labelsInside, other label = names label)
    (aims : ∀ target ∈ action.targets position,
      labels' (distance + target).toNat = (labels target.toNat).map names) :
    (action.relabelled other).bindTo labels' (distance + position) =
      (action.bindTo labels position).relabelled names := by
  cases action with
  | plain instruction =>
    cases instruction with
    | branch branch =>
      have aim := aims (branch.target position) List.mem_cons_self
      rw [← branch.target_add] at aim
      show Action.plain (.branch { branch.renamed other with
          label := labels' (branch.target (distance + position)).toNat }) =
        .plain (.branch { branch with
          label := (labels (branch.target position).toNat).map names })
      rw [aim]
      rfl
    | _ => rfl
  | define signature body =>
    show (Action.define signature body).relabelled other =
      (Action.define signature body).relabelled names
    rw [relabelled, relabelled, relabelAll_congr agree]
  | marker found => cases real

/-- **Branches are bound in the same way elsewhere**, to labels with other names. -/
theorem bindFrom_relabelled (real : AllReal pieces)
    (agree : ∀ piece ∈ pieces, ∀ label ∈ piece.action.labelsInside, other label = names label)
    (aims : ∀ target ∈ targetsFrom position pieces,
      labels' (distance + target).toNat = (labels target.toNat).map names) :
    bindFrom labels' (distance + position) (relabelPieces other pieces) =
      relabelPieces names (bindFrom labels position pieces) := by
  induction pieces generalizing position with
  | nil => rfl
  | cons piece rest ih =>
    have here := Action.bindTo_relabelled real.head.real (agree piece List.mem_cons_self)
      fun target inside => aims target (List.mem_append_left _ inside)
    have later := ih real.tail
      (fun other inside => agree other (List.mem_cons_of_mem _ inside))
      fun target inside => aims target (List.mem_append_right _ inside)
    rw [relabelPieces_cons, bindFrom, piece.add_bytes_relabelled, later, bindFrom]
    show Piece.mk ((piece.action.relabelled other).bindTo labels' (distance + position)) _ _ :: _ = _
    rw [here]
    rfl

/-- **The listing of two parts**, if the labels of each are those of the whole under other names. The
label of the byte between the parts belongs to both. -/
theorem listing_two (real : AllReal front) (fit : AllFit front) (real' : AllReal back)
    (fit' : AllFit back) {whole first second : Nat → Option Label} {names names' : Label → Label}
    (own : ∀ piece ∈ front, ∀ label ∈ piece.action.labelsInside, id label = names label)
    (own' : ∀ piece ∈ back, ∀ label ∈ piece.action.labelsInside, other label = names' label)
    (aims : ∀ target ∈ targetsFrom 0 front,
      whole target.toNat = (first target.toNat).map names)
    (aims' : ∀ target ∈ targetsFrom 0 back,
      whole (widthOf front + target).toNat = (second target.toNat).map names')
    (before : ∀ place < widthOf front, whole place = (first place).map names)
    (behind : ∀ place, 0 < place → whole (widthOf front + place) = (second place).map names') :
    placed (insertLabels whole 0 (bindFrom whole 0 (front ++ relabelPieces other back))) =
      relabelPieces names (openLabels first 0 (placed (bindFrom first 0 front))) ++
        labelPieces whole (widthOf front) ++
        relabelPieces names' (laterLabels second 0 (placed (bindFrom second 0 back))) := by
  have same : relabelPieces id front = front := by
    rw [relabelPieces]
    exact List.map_id'' (fun piece => congrArg (Piece.mk · _ _) piece.action.relabelled_id) _
  have bound : bindFrom whole (0 + 0) (relabelPieces id front) =
      relabelPieces names (bindFrom first 0 front) :=
    bindFrom_relabelled real own fun target inside => by
      rw [Int.natCast_zero, Int.zero_add, aims target inside]
  have bound' : bindFrom whole (widthOf front + 0) (relabelPieces other back) =
      relabelPieces names' (bindFrom second 0 back) := bindFrom_relabelled real' own' aims'
  have isReal := real.bindFrom first 0
  have isReal' := real'.bindFrom second 0
  have isFit : AllFit (relabelPieces names (bindFrom first 0 front)) :=
    (allFit_relabelPieces _ _).mpr ((allFit_bindFrom _ _ _).mpr fit)
  have isFit' : AllFit (relabelPieces names' (bindFrom second 0 back)) :=
    (allFit_relabelPieces _ _).mpr ((allFit_bindFrom _ _ _).mpr fit')
  have opened : openLabels whole (0 + 0) (relabelPieces names (placed (bindFrom first 0 front))) =
      relabelPieces names (openLabels first 0 (placed (bindFrom first 0 front))) := by
    refine openLabels_relabelled (bare_placed isReal).solid fun place _ inside => ?_
    rw [widthOf_placed isReal, widthOf_bindFrom, Nat.zero_add] at inside
    rw [Nat.zero_add]
    exact before place inside
  have later : laterLabels whole (widthOf front + 0)
      (relabelPieces names' (placed (bindFrom second 0 back))) =
        relabelPieces names' (laterLabels second 0 (placed (bindFrom second 0 back))) :=
    laterLabels_relabelled isReal' behind
  rw [same, Nat.zero_add] at bound
  rw [Nat.add_zero] at bound' opened later
  rw [bindFrom_append, bound, Nat.zero_add, bound',
    listing_append (isReal.relabelPieces names) isFit (isReal'.relabelPieces names') isFit',
    placed_relabelPieces, opened, widthOf_relabelPieces, widthOf_bindFrom, placed_relabelPieces, later]

end

end ActionCode
