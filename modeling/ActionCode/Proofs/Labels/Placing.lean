/-
**Labels among pieces.**

* `insertLabels`: a label before each real piece that begins at its byte, behind the closings there.
* **`placed_insertLabels`**: closings are placed as if there were no labels.
* `Labelled`: pieces whose labels are where they would be inserted.
* **`Tidy.relisted`**: matching closings and such labels are where they would be placed again.
-/

import ActionCode.Proofs.Blocks.Nesting

namespace ActionCode

/-! ### Inserting labels -/

/-- The marker of the label of a byte, if the byte has one. -/
def labelPieces (labels : Nat → Option Label) (position : Nat) : List Piece :=
  match labels position with
  | some label => [.ofMarker (.label label)]
  | none => []

/-- Pieces from a byte on, with a label before each real piece that begins at its byte. -/
def insertLabels (labels : Nat → Option Label) (position : Nat) : List Piece → List Piece
  | [] => labelPieces labels position
  | piece :: rest =>
    if piece.action.isMarker then piece :: insertLabels labels position rest
    else labelPieces labels position ++
      piece :: insertLabels labels (position + piece.bytes) rest

theorem insertLabels_ofMarker (labels : Nat → Option Label) (position : Nat) (marker : Marker)
    (rest : List Piece) :
    insertLabels labels position (.ofMarker marker :: rest) =
      .ofMarker marker :: insertLabels labels position rest := rfl

theorem insertLabels_real {piece : Piece} (real : piece.Real) (labels : Nat → Option Label)
    (position : Nat) (rest : List Piece) :
    insertLabels labels position (piece :: rest) = labelPieces labels position ++
      piece :: insertLabels labels (position + piece.bytes) rest := by
  rw [insertLabels, if_neg (by rw [real.real]; exact Bool.false_ne_true)]

/-- There is a label at a byte, or there is none. -/
theorem labelPieces_cases (labels : Nat → Option Label) (position : Nat) :
    (labels position = none ∧ labelPieces labels position = []) ∨
      ∃ label, labels position = some label ∧
        labelPieces labels position = [.ofMarker (.label label)] := by
  unfold labelPieces
  cases labels position with
  | none => exact .inl ⟨rfl, rfl⟩
  | some label => exact .inr ⟨label, rfl, rfl⟩

theorem reals_labelPieces (labels : Nat → Option Label) (position : Nat) (rest : List Piece) :
    reals (labelPieces labels position ++ rest) = reals rest := by
  obtain ⟨_, none⟩ | ⟨label, _, one⟩ := labelPieces_cases labels position
  · rw [none, List.nil_append]
  · rw [one]
    exact reals_ofMarker _ _

theorem reals_insertLabels {pieces : List Piece} (solid : AllSolid pieces)
    (labels : Nat → Option Label) (position : Nat) :
    reals (insertLabels labels position pieces) = reals pieces := by
  induction pieces generalizing position with
  | nil =>
    have none := reals_labelPieces labels position []
    rw [List.append_nil] at none
    exact none
  | cons piece rest ih =>
    obtain ⟨marker, rfl⟩ | real := solid.head
    · rw [insertLabels_ofMarker, reals_ofMarker, reals_ofMarker, ih solid.tail]
    · rw [insertLabels_real real, reals_labelPieces, reals_cons real.real, reals_cons real.real,
        ih solid.tail]

theorem solid_labelPieces (labels : Nat → Option Label) (position : Nat) :
    AllSolid (labelPieces labels position) := by
  intro piece inside
  obtain ⟨_, none⟩ | ⟨label, _, one⟩ := labelPieces_cases labels position
  · rw [none] at inside
    cases inside
  · rw [one] at inside
    exact .inl ⟨_, List.mem_singleton.mp inside⟩

theorem AllSolid.append {front back : List Piece} (solid : AllSolid front) (solid' : AllSolid back) :
    AllSolid (front ++ back) := by
  intro piece inside
  rcases List.mem_append.mp inside with inside | inside
  · exact solid piece inside
  · exact solid' piece inside

theorem AllSolid.cons {piece : Piece} {rest : List Piece} (solid : piece.Solid)
    (solid' : AllSolid rest) : AllSolid (piece :: rest) := by
  intro other inside
  rcases List.mem_cons.mp inside with rfl | inside
  · exact solid
  · exact solid' other inside

theorem AllSolid.insertLabels {pieces : List Piece} (solid : AllSolid pieces)
    (labels : Nat → Option Label) (position : Nat) :
    AllSolid (ActionCode.insertLabels labels position pieces) := by
  induction pieces generalizing position with
  | nil => exact solid_labelPieces labels position
  | cons piece rest ih =>
    obtain ⟨marker, rfl⟩ | real := solid.head
    · exact .cons solid.head (ih solid.tail position)
    · rw [insertLabels_real real]
      exact (solid_labelPieces labels position).append (.cons solid.head (ih solid.tail _))

/-! ### Closings around labels -/

/-- Markers do not change where a span ends. -/
theorem aligned_reals_iff {marker : Marker} {amount : Nat} {pieces : List Piece}
    (solid : AllSolid pieces) :
    Aligned marker.room amount (reals pieces) ↔ Aligned marker.room amount pieces := by
  induction pieces generalizing amount with
  | nil => rfl
  | cons piece rest ih =>
    by_cases zero : amount = 0
    · subst zero
      exact iff_of_true (aligned_zero _ _) (aligned_zero _ _)
    · have positive := Nat.pos_of_ne_zero zero
      obtain ⟨other, rfl⟩ | real := solid.head
      · rw [reals_ofMarker, ih solid.tail, aligned_cons positive, Marker.room_ofMarker]
        exact (and_iff_right (Nat.zero_le _)).symm
      · rw [reals_cons real.real, aligned_cons positive, aligned_cons positive, ih solid.tail]

theorem Block.fits_reals_iff {block : Block} {pieces : List Piece} (solid : AllSolid pieces) :
    block.Fits (reals pieces) ↔ block.Fits pieces :=
  forall_congr' fun _ => forall_congr' fun _ => aligned_reals_iff solid

/-- Markers do not change whether spans end where pieces end. -/
theorem allFit_reals_iff {pieces : List Piece} (solid : AllSolid pieces) :
    AllFit (reals pieces) ↔ AllFit pieces := by
  induction pieces with
  | nil => rfl
  | cons piece rest ih =>
    obtain ⟨marker, rfl⟩ | real := solid.head
    · rw [reals_ofMarker, ih solid.tail, AllFit]
      exact (and_iff_right (by rintro block ⟨⟩)).symm
    · rw [reals_cons real.real, AllFit, AllFit, ih solid.tail]
      exact and_congr_left' (forall_congr' fun block => forall_congr' fun _ =>
        Block.fits_reals_iff solid.tail)

theorem closing?_label (label : Label) : (Action.marker (.label label)).closing? = none := rfl

/-- A closing goes before the label of its point, and behind that of an earlier one. -/
theorem insertClosing_insertLabels {marker : Marker} {amount : Nat} {pieces : List Piece}
    (bare : AllBare pieces) (aligned : Aligned marker.room amount pieces)
    (labels : Nat → Option Label) (position : Nat) :
    insertClosing marker amount (insertLabels labels position pieces) =
      insertLabels labels position (insertClosing marker amount pieces) := by
  induction pieces generalizing amount position with
  | nil =>
    cases amount with
    | succ amount => cases aligned
    | zero =>
      rw [insertClosing_nil, insertLabels_ofMarker, insertLabels]
      obtain ⟨_, none⟩ | ⟨label, _, one⟩ := labelPieces_cases labels position
      · rw [none, insertClosing_nil]
      · rw [one, insertClosing, if_pos ⟨rfl, closing?_label label⟩]
  | cons piece rest ih =>
    obtain ⟨other, closes, rfl⟩ | real := bare.head
    · have aligned' : Aligned marker.room amount rest := by
        rw [← aligned_reals_iff bare.solid, reals_ofMarker, aligned_reals_iff bare.tail.solid]
          at aligned
        exact aligned
      rw [insertLabels_ofMarker, insertClosing_behind closes, insertClosing_behind closes,
        insertLabels_ofMarker, ih bare.tail aligned']
    · by_cases zero : amount = 0
      · subst zero
        rw [insertClosing, if_pos ⟨rfl, real.closing⟩, insertLabels_ofMarker,
          insertLabels_real real]
        obtain ⟨_, none⟩ | ⟨label, _, one⟩ := labelPieces_cases labels position
        · rw [none, List.nil_append, insertClosing, if_pos ⟨rfl, real.closing⟩]
        · rw [one, List.singleton_append, insertClosing, if_pos ⟨rfl, closing?_label label⟩]
      · have later := ((aligned_cons (Nat.pos_of_ne_zero zero)).mp aligned).2
        have skip : ∀ action : Action, ¬ (amount = 0 ∧ action.closing? = none) :=
          fun _ both => zero both.1
        have whole : insertClosing marker amount
            (piece :: insertLabels labels (position + piece.bytes) rest) =
              piece :: insertLabels labels (position + piece.bytes)
                (insertClosing marker (amount - marker.room piece) rest) := by
          rw [insertClosing, if_neg (skip _), ih bare.tail later]
        rw [insertLabels_real real]
        rw [insertClosing, if_neg (skip _), insertLabels_real real]
        obtain ⟨_, none⟩ | ⟨label, _, one⟩ := labelPieces_cases labels position
        · rw [none, List.nil_append, List.nil_append, whole]
        · rw [one, List.singleton_append, List.singleton_append, insertClosing, if_neg (skip _),
            Marker.room_ofMarker, Nat.sub_zero, whole]

/-- The closings of one block go where they would go before a change, if each closing does. -/
theorem insertClosings_comm {change : List Piece → List Piece}
    (one : ∀ {marker : Marker} {amount : Nat} {pieces : List Piece}, AllBare pieces →
      Aligned marker.room amount pieces →
        insertClosing marker amount (change pieces) = change (insertClosing marker amount pieces))
    {stops : List (Marker × Nat)} {pieces : List Piece} (bare : AllBare pieces)
    (closes : ∀ stop ∈ stops, stop.1.closes = true)
    (aligned : ∀ stop ∈ stops, Aligned stop.1.room stop.2 pieces) :
    insertClosings stops (change pieces) = change (insertClosings stops pieces) := by
  induction stops generalizing pieces with
  | nil => rfl
  | cons stop stops ih =>
    have bare' := bare.insertClosing (closes stop List.mem_cons_self) stop.2
    have later := ih bare' (fun stop inside => closes stop (List.mem_cons_of_mem _ inside))
      fun other inside => by
        rw [← aligned_reals_iff bare'.solid, reals_insertClosing, aligned_reals_iff bare.solid]
        exact aligned other (List.mem_cons_of_mem _ inside)
    rw [← one bare (aligned stop List.mem_cons_self)] at later
    exact later

/-- So do the closings of a piece, where closings have been placed behind it. -/
theorem enter_comm {change : List Piece → List Piece}
    (one : ∀ {marker : Marker} {amount : Nat} {pieces : List Piece}, AllBare pieces →
      Aligned marker.room amount pieces →
        insertClosing marker amount (change pieces) = change (insertClosing marker amount pieces))
    {piece : Piece} {rest : List Piece} (real : AllReal rest) (fit : AllFit (piece :: rest)) :
    piece.enter (change (placed rest)) = change (piece.enter (placed rest)) := by
  have bare := bare_placed real
  unfold Piece.enter
  cases opens : piece.action.block? with
  | none => rfl
  | some block =>
    refine insertClosings_comm one bare (fun stop inside => Block.closes_of_mem_ends inside)
      fun stop inside => ?_
    rw [← aligned_reals_iff bare.solid, reals_placed real]
    exact fit.1 block opens stop inside

/-- A label asks for no closings. -/
theorem placed_labelPieces (labels : Nat → Option Label) (position : Nat) (rest : List Piece) :
    placed (labelPieces labels position ++ rest) = labelPieces labels position ++ placed rest := by
  obtain ⟨_, none⟩ | ⟨label, _, one⟩ := labelPieces_cases labels position
  · rw [none]
    rfl
  · rw [one]
    rfl

/-- **Closings are placed as if there were no labels.** -/
theorem placed_insertLabels {pieces : List Piece} (real : AllReal pieces) (fit : AllFit pieces)
    (labels : Nat → Option Label) (position : Nat) :
    placed (insertLabels labels position pieces) =
      insertLabels labels position (placed pieces) := by
  induction pieces generalizing position with
  | nil =>
    have none := placed_labelPieces labels position []
    rw [List.append_nil] at none
    exact none.trans (List.append_nil _)
  | cons piece rest ih =>
    have enters : piece.enter (insertLabels labels (position + piece.bytes) (placed rest)) =
        insertLabels labels (position + piece.bytes) (piece.enter (placed rest)) :=
      enter_comm (fun bare aligned => insertClosing_insertLabels bare aligned labels _) real.tail fit
    rw [insertLabels_real real.head, placed_labelPieces, placed, ih real.tail fit.2, enters,
      placed, insertLabels_real real.head]

theorem Action.flat_label (label : Label) : (Action.marker (.label label)).Flat := ⟨rfl, rfl⟩

theorem Tidy.labelPieces {point : Point} {rest : List Piece} {stack : List Pending}
    (tidy : Tidy point rest stack) (labels : Nat → Option Label) (position : Nat) :
    Tidy point (ActionCode.labelPieces labels position ++ rest) stack := by
  obtain ⟨_, none⟩ | ⟨label, _, one⟩ := labelPieces_cases labels position
  · rw [none]
    exact tidy
  · rw [one]
    exact .flat (Action.flat_label label) tidy

/-- Labels keep closings matched. -/
theorem Tidy.insertLabels {point : Point} {pieces : List Piece} {stack : List Pending}
    (tidy : Tidy point pieces stack) (bare : AllBare pieces) (labels : Nat → Option Label) :
    Tidy point (ActionCode.insertLabels labels point.bytes pieces) stack := by
  induction tidy with
  | nil point =>
    have one := (Tidy.nil point).labelPieces labels point.bytes
    rw [List.append_nil] at one
    exact one
  | flat flat later ih =>
    obtain ⟨marker, closes, rfl⟩ | real := bare.head
    · exact absurd flat (Action.not_flat_of_closes closes)
    · rw [insertLabels_real real]
      exact (Tidy.flat flat (ih bare.tail)).labelPieces labels _
  | opening opens matched later ih =>
    obtain ⟨marker, closes, rfl⟩ | real := bare.head
    · cases opens
    · rw [insertLabels_real real]
      exact (Tidy.opening opens matched (ih bare.tail)).labelPieces labels _
  | closing closes later ih => exact .closing closes (ih bare.tail)

/-! ### Dropping labels -/

/-- Pieces without labels. -/
def dropLabels (pieces : List Piece) : List Piece :=
  pieces.filter fun piece => piece.action.label?.isNone

theorem dropLabels_cons {piece : Piece} (bare : piece.Bare) (rest : List Piece) :
    dropLabels (piece :: rest) = piece :: dropLabels rest := by
  refine List.filter_cons_of_pos ?_
  obtain ⟨marker, closes, rfl⟩ | real := bare
  · cases marker with
    | label label => cases closes
    | _ => rfl
  · obtain ⟨action, bytes, records⟩ := piece
    cases action with
    | marker marker => cases real.real
    | _ => rfl

/-- A solid piece is bare, or a label. -/
theorem Piece.Solid.bare_or_label {piece : Piece} (solid : piece.Solid) :
    piece.Bare ∨ ∃ label, piece = .ofMarker (.label label) := by
  obtain ⟨marker, rfl⟩ | real := solid
  · cases marker with
    | label label => exact .inr ⟨label, rfl⟩
    | _ => exact .inl (.inl ⟨_, rfl, rfl⟩)
  · exact .inl (.inr real)

theorem bare_dropLabels {pieces : List Piece} (solid : AllSolid pieces) :
    AllBare (dropLabels pieces) := by
  intro piece inside
  obtain ⟨inside, unlabeled⟩ := List.mem_filter.mp inside
  obtain bare | ⟨label, rfl⟩ := (solid piece inside).bare_or_label
  · exact bare
  · cases unlabeled

theorem reals_dropLabels (pieces : List Piece) : reals (dropLabels pieces) = reals pieces := by
  rw [reals, dropLabels, List.filter_filter]
  refine List.filter_congr fun piece _ => ?_
  obtain ⟨action, bytes, records⟩ := piece
  cases action with
  | marker marker => rfl
  | _ => rfl

/-- Without its labels, a sequence has the same closings. -/
theorem Tidy.dropLabels {point : Point} {pieces : List Piece} {stack : List Pending}
    (tidy : Tidy point pieces stack) (solid : AllSolid pieces) :
    Tidy point (ActionCode.dropLabels pieces) stack := by
  induction tidy with
  | nil point => exact .nil point
  | flat flat later ih =>
    obtain bare | ⟨label, rfl⟩ := solid.head.bare_or_label
    · rw [dropLabels_cons bare]
      exact .flat flat (ih solid.tail)
    · exact ih solid.tail
  | opening opens matched later ih =>
    obtain bare | ⟨label, rfl⟩ := solid.head.bare_or_label
    · rw [dropLabels_cons bare]
      exact .opening opens matched (ih solid.tail)
    · cases opens
  | closing closes later ih =>
    rw [dropLabels_cons (.inl ⟨_, closes, rfl⟩)]
    exact .closing closes (ih solid.tail)

/-! ### Labels in their places -/

/-- Pieces from a byte on whose labels are those of their bytes, each right before a real piece or
at the end. -/
inductive Labelled (labels : Nat → Option Label) : Nat → List Piece → Prop
  | stop {position : Nat} : Labelled labels position (labelPieces labels position)
  | closing {position : Nat} {marker : Marker} {rest : List Piece} (closes : marker.closes = true)
      (later : Labelled labels position rest) : Labelled labels position (.ofMarker marker :: rest)
  | real {position : Nat} {piece : Piece} {rest : List Piece} (real : piece.Real)
      (later : Labelled labels (position + piece.bytes) rest) :
      Labelled labels position (labelPieces labels position ++ piece :: rest)

theorem labelled_insertLabels {pieces : List Piece} (bare : AllBare pieces)
    (labels : Nat → Option Label) (position : Nat) :
    Labelled labels position (insertLabels labels position pieces) := by
  induction pieces generalizing position with
  | nil => exact .stop
  | cons piece rest ih =>
    obtain ⟨marker, closes, rfl⟩ | real := bare.head
    · exact .closing closes (ih bare.tail position)
    · rw [insertLabels_real real]
      exact .real real (ih bare.tail _)

theorem dropLabels_labelPieces (labels : Nat → Option Label) (position : Nat) (rest : List Piece) :
    dropLabels (labelPieces labels position ++ rest) = dropLabels rest := by
  obtain ⟨_, none⟩ | ⟨label, _, one⟩ := labelPieces_cases labels position
  · rw [none, List.nil_append]
  · rw [one]
    rfl

/-- Labels in their places are inserted there again. -/
theorem Labelled.insertLabels_dropLabels {labels : Nat → Option Label} {position : Nat}
    {pieces : List Piece} (labelled : Labelled labels position pieces) :
    insertLabels labels position (dropLabels pieces) = pieces := by
  induction labelled with
  | @stop position =>
    have none := dropLabels_labelPieces labels position []
    rw [List.append_nil] at none
    rw [none]
    rfl
  | closing closes later ih =>
    rw [dropLabels_cons (.inl ⟨_, closes, rfl⟩), insertLabels_ofMarker, ih]
  | real real later ih =>
    rw [dropLabels_labelPieces, dropLabels_cons (.inr real), insertLabels_real real, ih]

theorem Labelled.solid {labels : Nat → Option Label} {position : Nat} {pieces : List Piece}
    (labelled : Labelled labels position pieces) : AllSolid pieces := by
  induction labelled with
  | stop => exact solid_labelPieces _ _
  | closing closes later ih => exact .cons (.inl ⟨_, rfl⟩) ih
  | real real later ih => exact (solid_labelPieces _ _).append (.cons (.inr real) ih)

/-- **Closings that match and labels in their places are where they would be placed again.** -/
theorem Tidy.relisted {point : Point} {pieces : List Piece} {labels : Nat → Option Label}
    (tidy : Tidy point pieces []) (labelled : Labelled labels point.bytes pieces) :
    placed (ActionCode.insertLabels labels point.bytes (reals pieces)) = pieces := by
  have solid := labelled.solid
  have dropped := tidy.dropLabels solid
  have fit := (dropped.closes.nested (bare_dropLabels solid).solid rfl).1
  have again := dropped.placed_eq (bare_dropLabels solid)
  rw [reals_dropLabels] at fit again
  rw [placed_insertLabels (real_reals solid) fit]
  change placed (reals pieces) = ActionCode.dropLabels pieces at again
  rw [again, labelled.insertLabels_dropLabels]

end ActionCode
