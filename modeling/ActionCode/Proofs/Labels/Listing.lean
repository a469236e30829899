/-
**What the listing of a sequence is like.**

* `Labelled.mem_labelMarks`: where the labels of a sequence are.
* **`tidy_listed`**: if spans nest, the closings of a listing match their blocks.
* **`aimed_listed`**: the branches of a listing go where their labels are.
* `LabelsBefore`, `Labelled.labelsBefore`: a label comes right before a real action or last.
-/

import ActionCode.Proofs.Blocks.Nesting
import ActionCode.Proofs.Labels.Finishing
import ActionCode.Proofs.Labels.Resolving

namespace ActionCode

/-! ### Labels of bytes -/

/-- Two bytes have no label in common. -/
theorem labelOf_injective {nextLabel first second : Nat} {uses : List Nat} {label : Label}
    (isFirst : labelOf nextLabel uses first = some label)
    (isSecond : labelOf nextLabel uses second = some label) : first = second := by
  unfold labelOf at isFirst isSecond
  split at isFirst
  · rename_i inside
    split at isSecond
    · have equal := Label.mk.inj ((Option.some.inj isFirst).trans (Option.some.inj isSecond).symm)
      exact (List.idxOf_inj inside).mp (by omega)
    · cases isSecond
  · cases isFirst

theorem labelOf_eq_some_iff {nextLabel target : Nat} {uses : List Nat} :
    (∃ label, labelOf nextLabel uses target = some label) ↔ target ∈ uses := by
  unfold labelOf
  constructor
  · rintro ⟨label, isLabel⟩
    split at isLabel
    · assumption
    · cases isLabel
  · intro inside
    rw [if_pos inside]
    exact ⟨_, rfl⟩

theorem label?_ofMarker {marker : Marker} (closes : marker.closes = true) :
    (Piece.ofMarker marker).action.label? = none := by
  cases marker with
  | label id => cases closes
  | _ => rfl

theorem Piece.Real.label? {piece : Piece} (real : piece.Real) : piece.action.label? = none := by
  cases isAction : piece.action with
  | marker found =>
    have none := real.real
    rw [isAction] at none
    cases none
  | _ => rfl

theorem marksOf_append {β : Type} (view : Action → Option β) (position : Nat)
    (front back : List Piece) :
    marksOf view position (front ++ back) =
      marksOf view position front ++
        marksOf view (position + (front.map Piece.bytes).sum) back := by
  induction front generalizing position with
  | nil => rfl
  | cons piece front ih =>
    rw [List.cons_append, marksOf, marksOf, ih, List.append_assoc, List.map_cons, List.sum_cons,
      Nat.add_assoc]

/-- A label that goes before some pieces is there. -/
theorem mem_marksOf_labelPieces {labels : Nat → Option Label} {position : Nat} {rest : List Piece}
    {label : Label} {place : Nat} :
    (label, place) ∈ marksOf Action.label? position (labelPieces labels position ++ rest) ↔
      (labels position = some label ∧ place = position) ∨
        (label, place) ∈ marksOf Action.label? position rest := by
  obtain ⟨unlabelled, none⟩ | ⟨found, isFound, one⟩ := labelPieces_cases labels position
  · rw [none, List.nil_append, unlabelled]
    simp
  · rw [one, List.singleton_append, marksOf_cons_iff, isFound]
    exact Iff.rfl

/-- A label reaches no further point. -/
theorem reached_labelPieces {labels : Nat → Option Label} {position : Nat} {rest : List Piece}
    {point stop : Point} :
    Reached point (labelPieces labels position ++ rest) stop ↔ Reached point rest stop := by
  obtain ⟨_, none⟩ | ⟨label, _, one⟩ := labelPieces_cases labels position
  · rw [none, List.nil_append]
  · rw [one, List.singleton_append, reached_cons_iff, Point.after_ofMarker]
    constructor
    · rintro (rfl | reached)
      · exact .here _ _
      · exact reached
    · exact .inr

/-- **A label is at a byte if it is that of the byte, and an action begins or the sequence ends
there.** -/
theorem Labelled.mem_labelMarks {labels : Nat → Option Label} {position : Nat}
    {pieces : List Piece} (labelled : Labelled labels position pieces) {point : Point}
    (here : point.bytes = position) {label : Label} {place : Nat} :
    (label, place) ∈ marksOf Action.label? position pieces ↔
      labels place = some label ∧ ∃ last, Reached point pieces last ∧ last.bytes = place := by
  induction labelled generalizing point with
  | @stop position =>
    rw [← List.append_nil (labelPieces labels position), mem_marksOf_labelPieces]
    simp only [reached_labelPieces, reached_nil_iff]
    constructor
    · rintro (⟨isLabel, rfl⟩ | inside)
      · exact ⟨isLabel, point, rfl, here⟩
      · cases inside
    · rintro ⟨isLabel, last, rfl, rfl⟩
      exact .inl ⟨here ▸ isLabel, here⟩
  | @closing position marker rest closes later ih =>
    rw [marksOf_cons_iff, label?_ofMarker closes]
    simp only [reached_cons_iff, Point.after_ofMarker]
    change _ ∨ (label, place) ∈ marksOf Action.label? position rest ↔ _
    rw [ih here]
    constructor
    · rintro (both | ⟨isLabel, last, reached, equal⟩)
      · cases both.1
      · exact ⟨isLabel, last, .inr reached, equal⟩
    · rintro ⟨isLabel, last, rfl | reached, equal⟩
      · exact .inr ⟨isLabel, last, .here _ _, equal⟩
      · exact .inr ⟨isLabel, last, reached, equal⟩
  | @real position piece rest real later ih =>
    have after : (point.after piece).bytes = position + piece.bytes := congrArg (· + _) here
    rw [mem_marksOf_labelPieces, marksOf_cons_iff, real.label?, ih after]
    simp only [reached_labelPieces, reached_cons_iff]
    constructor
    · rintro (⟨isLabel, rfl⟩ | both | ⟨isLabel, last, reached, equal⟩)
      · exact ⟨isLabel, point, .inl rfl, here⟩
      · cases both.1
      · exact ⟨isLabel, last, .inr reached, equal⟩
    · rintro ⟨isLabel, last, rfl | reached, rfl⟩
      · exact .inl ⟨here ▸ isLabel, here⟩
      · exact .inr (.inr ⟨isLabel, last, reached, rfl⟩)

/-- No label is placed twice if no two bytes have one in common. -/
theorem Labelled.nodup {labels : Nat → Option Label} {position : Nat} {pieces : List Piece}
    (labelled : Labelled labels position pieces)
    (injective : ∀ {first second label}, labels first = some label → labels second = some label →
      first = second) :
    ((marksOf Action.label? position pieces).map Prod.fst).Nodup := by
  induction labelled with
  | @stop position =>
    obtain ⟨_, none⟩ | ⟨label, _, one⟩ := labelPieces_cases labels position
    · rw [none]
      exact .nil
    · rw [one]
      exact List.nodup_cons.mpr ⟨List.not_mem_nil, .nil⟩
  | @closing position marker rest closes later ih =>
    rw [marksOf, label?_ofMarker closes]
    exact ih
  | @real position piece rest real later ih =>
    have tail : marksOf Action.label? position (piece :: rest) =
        marksOf Action.label? (position + piece.bytes) rest := by
      rw [marksOf, real.label?]
      rfl
    obtain ⟨_, none⟩ | ⟨label, isLabel, one⟩ := labelPieces_cases labels position
    · rw [none, List.nil_append, tail]
      exact ih
    · rw [one, List.singleton_append]
      show (label :: (marksOf Action.label? position (piece :: rest)).map Prod.fst).Nodup
      rw [tail]
      refine List.nodup_cons.mpr ⟨fun inside => ?_, ih⟩
      obtain ⟨⟨other, place⟩, member, rfl⟩ := List.mem_map.mp inside
      have here : (Point.mk (position + piece.bytes) 0).bytes = position + piece.bytes := rfl
      obtain ⟨isOther, last, reached, equal⟩ := (later.mem_labelMarks here).mp member
      have after := reached.le.bytes
      have positive := real.bytes
      have same := injective isLabel isOther
      change position + piece.bytes ≤ _ at after
      omega

/-- Only the room of pieces decides which points they reach. -/
theorem Reached.of_rooms {pieces others : List Piece} {point stop : Point}
    (reached : Reached point pieces stop) (bytes : pieces.map Piece.bytes = others.map Piece.bytes)
    (records : pieces.map Piece.records = others.map Piece.records) : Reached point others stop := by
  induction pieces generalizing others point with
  | nil => rwa [List.map_eq_nil_iff.mp bytes.symm]
  | cons piece rest ih =>
    rcases others with _ | ⟨other, others⟩
    · cases bytes
    · obtain ⟨here, bytes⟩ := List.cons.inj bytes
      obtain ⟨here', records⟩ := List.cons.inj records
      rcases reached_cons_iff.mp reached with rfl | reached
      · exact .here _ _
      · rw [Point.after, here, here'] at reached
        exact (ih reached bytes records).later

/-! ### Labels before actions -/

/-- A label comes right before a real action, or last. -/
def LabelsBefore (actions : List Action) : Prop :=
  actions.IsChain fun first second => first.label? ≠ none → second.isMarker = false

theorem Labelled.labelsBefore {labels : Nat → Option Label} {position : Nat} {pieces : List Piece}
    (labelled : Labelled labels position pieces) : LabelsBefore (pieces.map Piece.action) := by
  induction labelled with
  | @stop position =>
    obtain ⟨_, none⟩ | ⟨label, _, one⟩ := labelPieces_cases labels position
    · rw [none]
      exact .nil
    · rw [one]
      exact .singleton _
  | @closing position marker rest closes later ih =>
    exact List.IsChain.cons ih fun next _ labelled => absurd (label?_ofMarker closes) labelled
  | @real position piece rest real later ih =>
    have own : LabelsBefore ((piece :: rest).map Piece.action) := by
      exact List.IsChain.cons ih fun next _ labelled => absurd real.label? labelled
    obtain ⟨_, none⟩ | ⟨label, _, one⟩ := labelPieces_cases labels position
    · rw [none, List.nil_append]
      exact own
    · rw [one, List.singleton_append, List.map_cons]
      refine List.IsChain.cons own fun next isNext _ => ?_
      cases isNext
      exact real.real

/-! ### Branches -/

theorem targetsFrom_eq_marks (position : Nat) (pieces : List Piece) :
    targetsFrom position pieces =
      (marksOf Action.branch? position pieces).map fun mark => mark.1.target mark.2 := by
  induction pieces generalizing position with
  | nil => rfl
  | cons piece rest ih =>
    rw [targetsFrom, marksOf, List.map_append, ih, Action.targets]
    cases piece.action.branch? <;> rfl

/-- Markers are no branches. -/
theorem branchMarks_reals {pieces : List Piece} (solid : AllSolid pieces) (position : Nat) :
    marksOf Action.branch? position (reals pieces) = marksOf Action.branch? position pieces := by
  induction pieces generalizing position with
  | nil => rfl
  | cons piece rest ih =>
    obtain ⟨marker, rfl⟩ | real := solid.head
    · rw [reals_ofMarker, ih solid.tail]
      rfl
    · rw [reals_cons real.real, marksOf, marksOf, ih solid.tail]

/-- A branch is bound where it is. -/
theorem branchMarks_bindFrom (labels : Nat → Option Label) (position : Nat) (pieces : List Piece) :
    marksOf Action.branch? position (bindFrom labels position pieces) =
      (marksOf Action.branch? position pieces).map fun mark =>
        ({ mark.1 with label := labels (mark.1.target mark.2).toNat }, mark.2) := by
  induction pieces generalizing position with
  | nil => rfl
  | cons piece rest ih =>
    rw [bindFrom, marksOf, marksOf, ih, List.map_append]
    refine congrArg (· ++ _) ?_
    rw [Action.bindTo]
    cases isBranch : piece.action.branch? with
    | none =>
      dsimp only
      rw [isBranch]
      rfl
    | some branch => rfl

/-! ### Listings -/

variable {pieces : List Piece}

theorem layout_bindFrom (labels : Nat → Option Label) (position : Nat) (pieces : List Piece) :
    layout (bindFrom labels position pieces) = layout pieces := by
  induction pieces generalizing position with
  | nil => rfl
  | cons piece rest ih =>
    have later := ih (position + piece.bytes)
    unfold layout at later ⊢
    rw [bindFrom, List.map_cons, List.map_cons, later, Action.block?_bindTo]

/-- A listing has its labels where they would be without closings. -/
theorem listed_eq (real : AllReal pieces) (fit : AllFit pieces) (nextLabel : Nat) :
    listed nextLabel pieces = insertLabels (labelsOf nextLabel pieces) 0
      (placed (bindFrom (labelsOf nextLabel pieces) 0 pieces)) :=
  placed_insertLabels (real.bindFrom _ 0) ((allFit_bindFrom _ 0 pieces).mpr fit) _ 0

theorem labelled_listed (real : AllReal pieces) (fit : AllFit pieces) (nextLabel : Nat) :
    Labelled (labelsOf nextLabel pieces) 0 (listed nextLabel pieces) := by
  rw [listed_eq real fit]
  exact labelled_insertLabels (bare_placed (real.bindFrom _ 0)) _ 0

/-- The real actions of a listing are those of the sequence, with bound branches. -/
theorem reals_listed (real : AllReal pieces) (fit : AllFit pieces) (nextLabel : Nat) :
    reals (listed nextLabel pieces) = bindFrom (labelsOf nextLabel pieces) 0 pieces := by
  rw [listed_eq real fit, reals_insertLabels (bare_placed (real.bindFrom _ 0)).solid,
    reals_placed (real.bindFrom _ 0)]

/-- **If spans nest, the closings of a listing match their blocks.** -/
theorem tidy_listed (real : AllReal pieces) (fit : AllFit pieces)
    (nested : Nested 0 (layout pieces)) (nextLabel : Nat) :
    Tidy ⟨0, 0⟩ (listed nextLabel pieces) [] := by
  rw [listed_eq real fit]
  have tidy : Tidy ⟨0, 0⟩ (placed (bindFrom (labelsOf nextLabel pieces) 0 pieces)) [] :=
    tidy_placed (real.bindFrom _ 0) ((allFit_bindFrom _ 0 pieces).mpr fit)
      (by rwa [layout_bindFrom])
  exact tidy.insertLabels (bare_placed (real.bindFrom _ 0)) _

/-- The branches of a listing. -/
theorem branchMarks_listed (real : AllReal pieces) (fit : AllFit pieces) (nextLabel : Nat) :
    branchMarks (listed nextLabel pieces) = (branchMarks pieces).map fun mark =>
      ({ mark.1 with label := labelsOf nextLabel pieces (mark.1.target mark.2).toNat }, mark.2) := by
  rw [branchMarks, ← branchMarks_reals (labelled_listed real fit nextLabel).solid,
    reals_listed real fit, branchMarks_bindFrom]
  rfl

/-- The bytes that branches go to are those that are used. -/
theorem mem_usesOf {target : Nat} :
    target ∈ usesOf pieces ↔ ∃ mark ∈ branchMarks pieces, (mark.1.target mark.2).toNat = target := by
  rw [usesOf, mem_usesFrom, targetsFrom_eq_marks, List.map_map, List.mem_map]
  exact or_iff_right List.not_mem_nil

/-- Every byte that is reached before labels and closings are placed is reached in a listing. -/
theorem reached_listed (real : AllReal pieces) (fit : AllFit pieces) (nextLabel : Nat)
    {point stop : Point} (reached : Reached point pieces stop) :
    Reached point (listed nextLabel pieces) stop := by
  rw [← reached_reals_iff (labelled_listed real fit nextLabel).solid, reals_listed real fit]
  exact reached.of_rooms (map_room_bindFrom _ 0 .endTry pieces).symm
    (map_room_bindFrom _ 0 .endWait pieces).symm

/-- **The branches of a listing go where their labels are.** -/
theorem aimed_listed (real : AllReal pieces) (finishable : Finishable pieces) (nextLabel : Nat) :
    Aimed (listed nextLabel pieces) where
  once := (labelled_listed real finishable.fit nextLabel).nodup labelOf_injective
  hits := by
    intro mark inside label labelled
    rw [branchMarks_listed real finishable.fit] at inside
    obtain ⟨⟨branch, place⟩, isBranch, rfl⟩ := List.mem_map.mp inside
    have isTarget : branch.target place ∈ targetsFrom 0 pieces := by
      rw [targetsFrom_eq_marks]
      exact List.mem_map.mpr ⟨_, isBranch, rfl⟩
    obtain ⟨last, reached, goes⟩ := finishable.lands _ isTarget
    have target : (branch.target place).toNat = last.bytes := by rw [goes, Int.toNat_natCast]
    change labelsOf nextLabel pieces (branch.target place).toNat = some label at labelled
    rw [target] at labelled
    have here : (Point.mk 0 0).bytes = 0 := rfl
    exact ⟨last.bytes, ((labelled_listed real finishable.fit nextLabel).mem_labelMarks here).mpr
      ⟨labelled, last, reached_listed real finishable.fit nextLabel reached, rfl⟩, goes⟩

/-- Every branch of a listing has a label. -/
theorem labelled_of_mem_listed (real : AllReal pieces) (fit : AllFit pieces) {nextLabel : Nat}
    {mark : Branch × Nat} (inside : mark ∈ branchMarks (listed nextLabel pieces)) :
    mark.1.label ≠ none := by
  rw [branchMarks_listed real fit] at inside
  obtain ⟨other, isBranch, rfl⟩ := List.mem_map.mp inside
  have used : (other.1.target other.2).toNat ∈ usesOf pieces := mem_usesOf.mpr ⟨other, isBranch, rfl⟩
  obtain ⟨label, isLabel⟩ := labelOf_eq_some_iff.mpr used
  exact fun none => by
    change labelOf nextLabel (usesOf pieces) _ = Option.none at none
    rw [isLabel] at none
    cases none

/-- Every label of a listing is that of a branch. -/
theorem used_of_mem_listed (real : AllReal pieces) (fit : AllFit pieces) {nextLabel : Nat}
    {mark : Label × Nat} (inside : mark ∈ labelMarks (listed nextLabel pieces)) :
    ∃ branch ∈ branchMarks (listed nextLabel pieces), branch.1.label = some mark.1 := by
  have here : (Point.mk 0 0).bytes = 0 := rfl
  obtain ⟨isLabel, _⟩ := ((labelled_listed real fit nextLabel).mem_labelMarks here).mp inside
  obtain ⟨other, isBranch, goes⟩ := mem_usesOf.mp (labelOf_eq_some_iff.mp ⟨mark.1, isLabel⟩)
  rw [branchMarks_listed real fit]
  refine ⟨_, List.mem_map_of_mem isBranch, ?_⟩
  rw [goes]
  exact isLabel

end ActionCode
