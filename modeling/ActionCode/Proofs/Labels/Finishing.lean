/-
**What becomes of the rows of a sequence.**

* `finished`: the actions of a sequence whose pieces are known: branches bound, labels and closings
  in their places, pushes single.
* `Finishable`: all branches land and all spans end where actions end.
* `Piece.bounds`, **`allFit_congr`**: what of a piece decides where spans end.
* **`finishSequence_ok`**, `Finishable.finishSequence`: a sequence is finished exactly if it is
  finishable.
-/

import ActionCode.Disassembly.Sequence
import ActionCode.Proofs.Labels.Binding

namespace ActionCode

/-! ### Sequences of pieces -/

/-- The bytes that the branches of a sequence go to, each once, in the order of first use. -/
def usesOf (pieces : List Piece) : List Nat := usesFrom [] ((targetsFrom 0 pieces).map Int.toNat)

/-- The labels of a sequence, numbered from one on. -/
def labelsOf (nextLabel : Nat) (pieces : List Piece) : Nat → Option Label :=
  labelOf nextLabel (usesOf pieces)

/-- Pieces bound to their labels, with labels and closings in their places. -/
def listed (nextLabel : Nat) (pieces : List Piece) : List Piece :=
  placed (insertLabels (labelsOf nextLabel pieces) 0
    (bindFrom (labelsOf nextLabel pieces) 0 pieces))

/-- The actions of a sequence whose pieces are known. -/
def finished (nextLabel : Nat) (pieces : List Piece) : List Action :=
  splitPushes ((listed nextLabel pieces).map Piece.action)

/-- All branches go to where an action begins or the sequence ends, and all spans end where actions
end. -/
structure Finishable (pieces : List Piece) : Prop where
  lands : ∀ target ∈ targetsFrom 0 pieces,
    ∃ last, Reached ⟨0, 0⟩ pieces last ∧ target = last.bytes
  fit : AllFit pieces

/-! ### Binding changes neither rooms nor blocks -/

theorem Action.block?_bindTo (labels : Nat → Option Label) (position : Nat) (action : Action) :
    (action.bindTo labels position).block? = action.block? := by
  unfold bindTo
  cases isBranch : action.branch? with
  | none => rfl
  | some branch =>
    cases action with
    | plain instruction =>
      cases instruction with
      | branch branch => rfl
      | _ => cases isBranch
    | _ => cases isBranch

/-- Where spans end depends on the room of pieces only. -/
theorem aligned_congr {room : Piece → Nat} {amount : Nat} {pieces others : List Piece}
    (same : pieces.map room = others.map room) :
    Aligned room amount pieces ↔ Aligned room amount others := by
  induction pieces generalizing others amount with
  | nil => rw [List.map_eq_nil_iff.mp same.symm]
  | cons piece rest ih =>
    rcases others with _ | ⟨other, others⟩
    · cases same
    · obtain ⟨first, later⟩ := List.cons.inj same
      by_cases zero : amount = 0
      · subst zero
        exact iff_of_true (aligned_zero _ _) (aligned_zero _ _)
      · have positive := Nat.pos_of_ne_zero zero
        rw [aligned_cons positive, aligned_cons positive, first, ih later]

/-- Where the spans of the block of a piece end, and the room of the piece. -/
def Piece.bounds (piece : Piece) : Option (List (Marker × Nat)) × Nat × Nat :=
  (piece.action.block?.map Block.ends, piece.bytes, piece.records)

theorem map_room_of_bounds {pieces others : List Piece}
    (same : pieces.map Piece.bounds = others.map Piece.bounds) (marker : Marker) :
    pieces.map marker.room = others.map marker.room := by
  have bytes := congrArg (List.map fun bounds => bounds.2.1) same
  have records := congrArg (List.map fun bounds => bounds.2.2) same
  rw [List.map_map, List.map_map] at bytes records
  cases marker with
  | endWait => exact records
  | _ => exact bytes

/-- **Only the bounds of pieces decide whether their spans fit.** -/
theorem allFit_congr {pieces others : List Piece}
    (same : pieces.map Piece.bounds = others.map Piece.bounds) : AllFit pieces ↔ AllFit others := by
  -- Fitting says of each stop of a block what `aligned_congr` carries over.
  have fits : ∀ piece : Piece, ∀ rest : List Piece,
      (∀ block, piece.action.block? = some block → block.Fits rest) ↔
        ∀ ends, piece.bounds.1 = some ends → ∀ stop ∈ ends, Aligned stop.1.room stop.2 rest := by
    intro piece rest
    simp only [Piece.bounds, Option.map_eq_some_iff]
    exact ⟨fun fit ends ⟨block, opens, equal⟩ => equal ▸ fit block opens,
      fun fit block opens => fit block.ends ⟨block, opens, rfl⟩⟩
  induction pieces generalizing others with
  | nil => rw [List.map_eq_nil_iff.mp same.symm]
  | cons piece rest ih =>
    obtain ⟨other, others, rfl, first, later⟩ := List.map_eq_cons_iff.mp same.symm
    rw [AllFit, AllFit, fits, fits, first]
    refine and_congr (forall_congr' fun ends => forall_congr' fun _ =>
      forall_congr' fun stop => forall_congr' fun _ => ?_) (ih later.symm)
    exact aligned_congr (map_room_of_bounds later.symm stop.1)

theorem map_bounds_bindFrom (labels : Nat → Option Label) (position : Nat) (pieces : List Piece) :
    (bindFrom labels position pieces).map Piece.bounds = pieces.map Piece.bounds := by
  induction pieces generalizing position with
  | nil => rfl
  | cons piece rest ih =>
    rw [bindFrom, List.map_cons, List.map_cons, ih, Piece.bounds, Piece.bounds, Action.block?_bindTo]

theorem map_room_bindFrom (labels : Nat → Option Label) (position : Nat) (marker : Marker)
    (pieces : List Piece) :
    (bindFrom labels position pieces).map marker.room = pieces.map marker.room :=
  map_room_of_bounds (map_bounds_bindFrom labels position pieces) marker

theorem allFit_bindFrom (labels : Nat → Option Label) (position : Nat) (pieces : List Piece) :
    AllFit (bindFrom labels position pieces) ↔ AllFit pieces :=
  allFit_congr (map_bounds_bindFrom labels position pieces)

theorem Piece.Real.bindTo {piece : Piece} (real : piece.Real) (labels : Nat → Option Label)
    (position : Nat) : Piece.Real { piece with action := piece.action.bindTo labels position } where
  real := (Action.isMarker_bindTo labels position piece.action).trans real.real
  bytes := real.bytes
  records := real.records

theorem AllReal.bindFrom {pieces : List Piece} (real : AllReal pieces)
    (labels : Nat → Option Label) (position : Nat) :
    AllReal (ActionCode.bindFrom labels position pieces) := by
  induction pieces generalizing position with
  | nil => exact real
  | cons piece rest ih =>
    intro other inside
    rcases List.mem_cons.mp inside with rfl | inside
    · exact real.head.bindTo labels position
    · exact ih real.tail _ other inside

theorem unclosed_insertLabels {pieces : List Piece} (real : AllReal pieces)
    (labels : Nat → Option Label) (position : Nat) :
    Unclosed (insertLabels labels position pieces) := by
  have label : ∀ position, Unclosed (labelPieces labels position) := by
    intro position piece inside
    obtain ⟨_, none⟩ | ⟨label, _, one⟩ := labelPieces_cases labels position
    · rw [none] at inside
      cases inside
    · rw [one] at inside
      rw [List.mem_singleton.mp inside]
      rfl
  induction pieces generalizing position with
  | nil => exact label position
  | cons piece rest ih =>
    rw [insertLabels_real real.head]
    intro other inside
    rcases List.mem_append.mp inside with inside | inside
    · exact label position other inside
    · rcases List.mem_cons.mp inside with rfl | inside
      · exact real.head.closing
      · exact ih real.tail _ other inside

/-! ### Finishing -/

/-- **A sequence whose branches land has labels, closings where its spans end, and single
pushes.** -/
theorem finishSequence_of_lands {region : Region} {rows : List Located}
    (laid : Laid region.base rows region.stop) (real : AllReal (rows.map Located.piece))
    (lands : ∀ target ∈ targetsFrom 0 (rows.map Located.piece),
      ∃ last, Reached ⟨0, 0⟩ (rows.map Located.piece) last ∧ target = last.bytes)
    (progress : Progress) :
    ∃ after : Progress,
      after.nextLabel = progress.nextLabel + (usesOf (rows.map Located.piece)).length ∧
      (AllFit (rows.map Located.piece) → finishSequence region rows progress =
        .ok (finished progress.nextLabel (rows.map Located.piece)) after) ∧
      (¬ AllFit (rows.map Located.piece) →
        ∃ fault, finishSequence region rows progress = .error fault after) := by
  have targets := targetsOf_eq 0 laid (Nat.add_zero _).symm
  have lands' : ∀ target ∈ targetsOf region rows, Lands region (startsOf region rows) target := by
    rw [targets]
    exact fun target inside => (lands_iff laid).mpr (lands target inside)
  obtain ⟨binding, bound, knows⟩ :=
    bindRows_of_lands laid.bounded (Binding.knows_empty progress.nextLabel) lands'
  rw [targets] at bound knows
  change (rows.mapM (bindRow region (startsOf region rows))).run ⟨∅, progress.nextLabel⟩ =
    .ok (rows.map (Located.bindTo region
      (labelsOf progress.nextLabel (rows.map Located.piece))), binding) at bound
  have labels : (fun position => binding.labels[position]?) =
      labelsOf progress.nextLabel (rows.map Located.piece) := funext knows.labels
  have pieces := map_piece_bindTo 0 laid (Nat.add_zero _).symm
    (labelsOf progress.nextLabel (rows.map Located.piece))
  have real' := real.bindFrom (labelsOf progress.nextLabel (rows.map Located.piece)) 0
  have placing := placeLabels_of_laid (laid.bindTo _) (by rw [pieces]; exact real') binding.labels
  rw [pieces, labels] at placing
  have solid := real'.solid.insertLabels (labelsOf progress.nextLabel (rows.map Located.piece)) 0
  have fit : AllFit ((placeLabels region binding.labels (rows.map (Located.bindTo region
      (labelsOf progress.nextLabel (rows.map Located.piece))))).map Located.piece) ↔
        AllFit (rows.map Located.piece) := by
    rw [placing, ← allFit_reals_iff solid, reals_insertLabels real'.solid, reals_of_real real',
      allFit_bindFrom]
  have unclosed : Unclosed ((placeLabels region binding.labels (rows.map (Located.bindTo region
      (labelsOf progress.nextLabel (rows.map Located.piece))))).map Located.piece) := by
    rw [placing]
    exact unclosed_insertLabels real' _ 0
  refine ⟨progress.labeled binding rows.length, knows.next, fun fits => ?_, fun unfit => ?_⟩
  · have closings := (placeClosings_ok_iff unclosed).mpr ⟨fit.mpr fits, rfl⟩
    unfold finishSequence bindLabels
    rw [bound]
    dsimp only
    rw [closings, placing]
    rfl
  · unfold finishSequence bindLabels
    rw [bound]
    dsimp only
    cases closings : placeClosings (placeLabels region binding.labels (rows.map (Located.bindTo
        region (labelsOf progress.nextLabel (rows.map Located.piece))))) with
    | error fault => exact ⟨fault, rfl⟩
    | ok actions => exact absurd (fit.mp ((placeClosings_ok_iff unclosed).mp closings).1) unfit

/-- **A sequence that is finished has branches that land and spans that end where actions end.** -/
theorem finishSequence_ok {region : Region} {rows : List Located} {progress after : Progress}
    {actions : List Action} (laid : Laid region.base rows region.stop)
    (real : AllReal (rows.map Located.piece))
    (success : finishSequence region rows progress = .ok actions after) :
    Finishable (rows.map Located.piece) ∧
      actions = finished progress.nextLabel (rows.map Located.piece) ∧
      after.nextLabel = progress.nextLabel + (usesOf (rows.map Located.piece)).length := by
  have lands : ∀ target ∈ targetsFrom 0 (rows.map Located.piece),
      ∃ last, Reached ⟨0, 0⟩ (rows.map Located.piece) last ∧ target = last.bytes := by
    rw [← targetsOf_eq 0 laid (Nat.add_zero _).symm]
    intro target inside
    rw [← lands_iff laid]
    unfold finishSequence at success
    split at success
    · cases success
    · rename_i bound
      exact lands_of_bindRows laid.bounded bound target inside
  obtain ⟨after', next, finishes, fails⟩ := finishSequence_of_lands laid real lands progress
  by_cases fits : AllFit (rows.map Located.piece)
  · rw [finishes fits] at success
    cases success
    exact ⟨⟨lands, fits⟩, rfl, next⟩
  · obtain ⟨fault, failed⟩ := fails fits
    rw [failed] at success
    cases success

/-- A sequence is finished if it is finishable. -/
theorem Finishable.finishSequence {region : Region} {rows : List Located}
    (finishable : Finishable (rows.map Located.piece))
    (laid : Laid region.base rows region.stop) (real : AllReal (rows.map Located.piece))
    (progress : Progress) :
    ∃ after : Progress, ActionCode.finishSequence region rows progress =
        .ok (finished progress.nextLabel (rows.map Located.piece)) after ∧
      after.nextLabel = progress.nextLabel + (usesOf (rows.map Located.piece)).length := by
  obtain ⟨after, next, finishes, _⟩ := finishSequence_of_lands laid real finishable.lands progress
  exact ⟨after, finishes finishable.fit, next⟩

end ActionCode
