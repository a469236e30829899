/-
**Labels are numbered in the order in which branches need them.**

* `branchIds`, `NumberedFrom`: the labels of the branches of a sequence, and that they are numbered
  from one on in the order of first use. **`numberedFrom_listed`**: those of a listing are.
* `InnerNumbered`: the labels of all code inside are numbered before those around it.
* **`labelsOf_eq_some_iff`**: if labels are numbered so, they are numbered so again when offsets are
  read back.
-/

import Mathlib.Data.List.Nodup
import ActionCode.Proofs.Labels.Listing

namespace ActionCode

/-! ### The order of first use -/

theorem nodup_usesFrom {uses : List Nat} (nodup : uses.Nodup) (targets : List Nat) :
    (usesFrom uses targets).Nodup := by
  induction targets generalizing uses with
  | nil => exact nodup
  | cons target targets ih =>
    refine ih ?_
    unfold use
    by_cases known : target ∈ uses
    · rw [if_pos known]
      exact nodup
    · rw [if_neg known]
      refine List.nodup_append.mpr ⟨nodup, List.nodup_cons.mpr ⟨List.not_mem_nil, .nil⟩, ?_⟩
      rintro other inside last isLast rfl
      exact known (List.mem_singleton.mp isLast ▸ inside)

/-- **Other names do not change the order of first use**, if they are different for different
bytes. -/
theorem usesFrom_map {rename : Nat → Nat} {uses targets : List Nat}
    (injective : ∀ first ∈ uses ++ targets, ∀ second ∈ uses ++ targets,
      rename first = rename second → first = second) :
    usesFrom (uses.map rename) (targets.map rename) = (usesFrom uses targets).map rename := by
  induction targets generalizing uses with
  | nil => rfl
  | cons target targets ih =>
    have isTarget : target ∈ uses ++ target :: targets :=
      List.mem_append_right _ List.mem_cons_self
    have known : rename target ∈ uses.map rename ↔ target ∈ uses := by
      constructor
      · intro inside
        obtain ⟨other, inside, same⟩ := List.mem_map.mp inside
        exact injective other (List.mem_append_left _ inside) target isTarget same ▸ inside
      · exact List.mem_map_of_mem
    have once : use (uses.map rename) (rename target) = (use uses target).map rename := by
      unfold use
      by_cases inside : target ∈ uses
      · rw [if_pos inside, if_pos (known.mpr inside)]
      · rw [if_neg inside, if_neg (mt known.mp inside), List.map_append, List.map_singleton]
    have inside : ∀ {other}, other ∈ use uses target ++ targets → other ∈ uses ++ target :: targets := by
      intro other inside
      rcases List.mem_append.mp inside with inside | inside
      · unfold use at inside
        split at inside
        · exact List.mem_append_left _ inside
        · rcases List.mem_append.mp inside with inside | inside
          · exact List.mem_append_left _ inside
          · exact List.mem_singleton.mp inside ▸ isTarget
      · exact List.mem_append_right _ (List.mem_cons_of_mem _ inside)
    show usesFrom (use (uses.map rename) (rename target)) (targets.map rename) =
      (usesFrom (use uses target) targets).map rename
    rw [once]
    exact ih fun first isFirst second isSecond =>
      injective first (inside isFirst) second (inside isSecond)

/-- Numbers in the order of a list are a range. -/
theorem map_idxOf {uses : List Nat} (nodup : uses.Nodup) (first : Nat) :
    uses.map (fun target => first + uses.idxOf target) = List.range' first uses.length := by
  refine List.ext_getElem (by rw [List.length_map, List.length_range']) fun index inside _ => ?_
  rw [List.getElem_map, List.getElem_range', nodup.idxOf_getElem, Nat.one_mul]

/-! ### Numbers -/

/-- The labels of the branches of a sequence. -/
def branchIds (actions : List Action) : List Nat :=
  (actions.filterMap fun action => action.branch?.bind Branch.label).map Label.id

/-- The labels of the branches of a sequence are so many, numbered from one on in the order of first
use. -/
def NumberedFrom (first : Nat) (actions : List Action) (count : Nat) : Prop :=
  usesFrom [] (branchIds actions) = List.range' first count

mutual

/-- The labels of the code inside an action are numbered from one on up to another. -/
def Action.Numbered : Nat → Action → Nat → Prop
  | first, .define _ body, next => ∃ own count, InnerNumbered first body own ∧
    NumberedFrom own body count ∧ next = own + count
  | first, .plain _, next => next = first
  | first, .marker _, next => next = first

/-- The labels of all code inside a sequence are numbered from one on up to another. -/
def InnerNumbered : Nat → List Action → Nat → Prop
  | first, [], next => next = first
  | first, action :: rest, next =>
    ∃ middle, action.Numbered first middle ∧ InnerNumbered middle rest next

end

theorem branchIds_eq (pieces : List Piece) :
    branchIds (pieces.map Piece.action) =
      (branchMarks pieces).filterMap fun mark => mark.1.label.map Label.id := by
  have marks : (branchMarks pieces).filterMap (fun mark => mark.1.label.map Label.id) =
      ((branchMarks pieces).map Prod.fst).filterMap fun branch => branch.label.map Label.id := by
    rw [List.filterMap_map]
    rfl
  rw [marks, branchMarks, map_fst_marksOf, List.filterMap_filterMap, branchIds, List.map_filterMap,
    List.filterMap_map]
  refine List.filterMap_congr fun piece _ => ?_
  show (piece.action.branch?.bind Branch.label).map Label.id =
    piece.action.branch?.bind fun branch => branch.label.map Label.id
  cases piece.action.branch? <;> rfl

/-- **The labels of a listing are numbered in the order of first use.** -/
theorem numberedFrom_listed {pieces : List Piece} (real : AllReal pieces) (fit : AllFit pieces)
    (nextLabel : Nat) :
    NumberedFrom nextLabel ((listed nextLabel pieces).map Piece.action) (usesOf pieces).length := by
  have nodup : (usesOf pieces).Nodup := nodup_usesFrom .nil _
  have ids : branchIds ((listed nextLabel pieces).map Piece.action) =
      ((targetsFrom 0 pieces).map Int.toNat).map
        fun target => nextLabel + (usesOf pieces).idxOf target := by
    rw [branchIds_eq, branchMarks_listed real fit, targetsFrom_eq_marks, List.filterMap_map,
      List.map_map, List.map_map, ← List.filterMap_eq_map]
    refine List.filterMap_congr fun mark inside => ?_
    have used : (mark.1.target mark.2).toNat ∈ usesOf pieces := mem_usesOf.mpr ⟨mark, inside, rfl⟩
    show (labelOf nextLabel (usesOf pieces) (mark.1.target mark.2).toNat).map Label.id = _
    rw [labelOf, if_pos used]
    rfl
  unfold NumberedFrom
  rw [ids, ← map_idxOf nodup nextLabel]
  show usesFrom ([].map fun target => nextLabel + (usesOf pieces).idxOf target) _ = _
  refine usesFrom_map fun first isFirst second isSecond same => ?_
  have used : first ∈ usesOf pieces := mem_usesFrom.mpr (.inr isFirst)
  exact (List.idxOf_inj used).mp (by omega)

/-! ### Numbering again -/

/-- Labels that come right before real actions come one after another. -/
theorem sorted_labelMarks {pieces : List Piece} (solid : AllSolid pieces)
    (before : LabelsBefore (pieces.map Piece.action)) (position : Nat) :
    (marksOf Action.label? position pieces).Pairwise fun first second => first.2 < second.2 := by
  induction pieces generalizing position with
  | nil => exact .nil
  | cons piece rest ih =>
    have later := ih solid.tail before.tail (position + piece.bytes)
    cases isLabel : piece.action.label? with
    | none =>
      rw [marksOf, isLabel]
      exact later
    | some label =>
      obtain ⟨marker, rfl⟩ | real := solid.head
      · rw [marksOf, isLabel]
        refine List.Pairwise.cons (fun mark inside => ?_) later
        rcases rest with _ | ⟨next, rest⟩
        · cases inside
        · have isReal := (List.isChain_cons_cons.mp before).1 (by
            rw [show (Piece.ofMarker marker).action.label? = some label from isLabel]
            exact Option.some_ne_none label)
          obtain ⟨other, rfl⟩ | real := solid.tail.head
          · cases isReal
          · rcases marksOf_cons_iff.mp inside with ⟨seen, _⟩ | inside
            · rw [real.label?] at seen
              cases seen
            · have here : (Point.mk (position + 0 + next.bytes) 0).bytes =
                  position + 0 + next.bytes := rfl
              obtain ⟨⟨last, reached, equal⟩, _⟩ := reached_of_marksOf _ (here ▸ inside)
              have after := reached.le.bytes
              have positive := real.bytes
              change position + 0 + next.bytes ≤ _ at after
              show position < mark.2
              omega
      · rw [real.label?] at isLabel
        cases isLabel

/-- Labels come right before real actions or last, every branch has one and goes there, and every
label is that of a branch. -/
structure Orderly (pieces : List Piece) : Prop where
  solid : AllSolid pieces
  before : LabelsBefore (pieces.map Piece.action)
  aimed : Aimed pieces
  labelled : ∀ mark ∈ branchMarks pieces, mark.1.label ≠ none
  used : ∀ mark ∈ labelMarks pieces, ∃ branch ∈ branchMarks pieces, branch.1.label = some mark.1

/-- At one byte there is one label. -/
theorem Orderly.label_unique {pieces : List Piece} (orderly : Orderly pieces)
    {first second : Label} {place : Nat} (isFirst : (first, place) ∈ labelMarks pieces)
    (isSecond : (second, place) ∈ labelMarks pieces) : first = second := by
  have apart : ((labelMarks pieces).map Prod.snd).Nodup :=
    List.pairwise_map.mpr ((sorted_labelMarks orderly.solid orderly.before 0).imp Nat.ne_of_lt)
  exact congrArg Prod.fst (List.inj_on_of_nodup_map apart isFirst isSecond rfl)

/-- A label is at one byte. -/
theorem Orderly.place_unique {pieces : List Piece} (orderly : Orderly pieces) {label : Label}
    {first second : Nat} (isFirst : (label, first) ∈ labelMarks pieces)
    (isSecond : (label, second) ∈ labelMarks pieces) : first = second :=
  congrArg Prod.snd (List.inj_on_of_nodup_map orderly.aimed.once isFirst isSecond rfl)

/-- A number is that of a branch if it is that of a label. -/
theorem Orderly.mem_branchIds {pieces : List Piece} (orderly : Orderly pieces) {id : Nat} :
    id ∈ branchIds (pieces.map Piece.action) ↔ ∃ place, (⟨id⟩, place) ∈ labelMarks pieces := by
  rw [branchIds_eq, List.mem_filterMap]
  constructor
  · rintro ⟨mark, inside, isLabel⟩
    obtain ⟨label, labelled, rfl⟩ := Option.map_eq_some_iff.mp isLabel
    obtain ⟨place, placed, _⟩ := orderly.aimed.hits mark inside label labelled
    exact ⟨place, placed⟩
  · rintro ⟨place, inside⟩
    obtain ⟨mark, isBranch, labelled⟩ := orderly.used _ inside
    exact ⟨mark, isBranch, by rw [labelled]; rfl⟩

/-- Where the labels of numbers are, so do branches go. -/
theorem Orderly.targets_eq {pieces : List Piece} (orderly : Orderly pieces) {placeOf : Nat → Nat}
    (isPlace : ∀ id ∈ branchIds (pieces.map Piece.action),
      (⟨id⟩, placeOf id) ∈ labelMarks pieces) :
    (targetsFrom 0 pieces).map Int.toNat =
      (branchIds (pieces.map Piece.action)).map placeOf := by
  rw [targetsFrom_eq_marks, List.map_map, ← List.filterMap_eq_map]
  rw [branchIds_eq] at isPlace ⊢
  rw [List.map_filterMap]
  refine List.filterMap_congr fun mark inside => ?_
  obtain ⟨label, labelled⟩ := Option.ne_none_iff_exists'.mp (orderly.labelled mark inside)
  obtain ⟨place, placed, goes⟩ := orderly.aimed.hits mark inside label labelled
  have isId : label.id ∈ (branchMarks pieces).filterMap fun mark => mark.1.label.map Label.id :=
    List.mem_filterMap.mpr ⟨mark, inside, by rw [labelled]; rfl⟩
  show some (mark.1.target mark.2).toNat = (mark.1.label.map Label.id).map placeOf
  rw [goes, labelled, Int.toNat_natCast]
  exact congrArg some (orderly.place_unique placed (isPlace label.id isId))

/-- The bytes that are gone to, in the order of first use, are those of the numbers. -/
theorem Orderly.usesOf_eq {pieces others : List Piece} (orderly : Orderly pieces)
    {first count : Nat} (numbered : NumberedFrom first (pieces.map Piece.action) count)
    (same : targetsFrom 0 others = targetsFrom 0 pieces) {placeOf : Nat → Nat}
    (isPlace : ∀ id ∈ branchIds (pieces.map Piece.action),
      (⟨id⟩, placeOf id) ∈ labelMarks pieces) :
    usesOf others = (List.range' first count).map placeOf := by
  have injective : ∀ one ∈ branchIds (pieces.map Piece.action),
      ∀ two ∈ branchIds (pieces.map Piece.action), placeOf one = placeOf two → one = two := by
    intro one isOne two isTwo equal
    have isFirst := isPlace one isOne
    rw [equal] at isFirst
    exact congrArg Label.id (orderly.label_unique isFirst (isPlace two isTwo))
  rw [← numbered, usesOf, same, orderly.targets_eq isPlace]
  show usesFrom ([].map placeOf) _ = _
  exact usesFrom_map injective

/-- Bytes that stand in the order of numbers have these numbers. -/
theorem labelOf_range'_eq_some_iff {placeOf : Nat → Nat} {first count : Nat}
    (nodup : ((List.range' first count).map placeOf).Nodup) {label : Label} {place : Nat} :
    labelOf first ((List.range' first count).map placeOf) place = some label ↔
      label.id ∈ List.range' first count ∧ placeOf label.id = place := by
  have index : ∀ id ∈ List.range' first count,
      first + ((List.range' first count).map placeOf).idxOf (placeOf id) = id := by
    intro id inside
    obtain ⟨offset, short, rfl⟩ := List.mem_range'.mp inside
    have long : offset < ((List.range' first count).map placeOf).length := by
      rw [List.length_map, List.length_range']
      exact short
    have isUse : ((List.range' first count).map placeOf)[offset] = placeOf (first + 1 * offset) := by
      simp only [List.getElem_map, List.getElem_range']
    rw [← isUse, nodup.idxOf_getElem, Nat.one_mul]
  unfold labelOf
  constructor
  · intro isLabel
    split at isLabel
    · rename_i inside
      obtain ⟨id, member, rfl⟩ := List.mem_map.mp inside
      rw [index id member] at isLabel
      cases isLabel
      exact ⟨member, rfl⟩
    · cases isLabel
  · rintro ⟨inside, rfl⟩
    rw [if_pos (List.mem_map_of_mem inside), index label.id inside]

/-- **Labels that are numbered in the order of first use are numbered so again**, if the same bytes
are gone to. -/
theorem Orderly.labelsOf_eq_some_iff {pieces others : List Piece} (orderly : Orderly pieces)
    {first count : Nat} (numbered : NumberedFrom first (pieces.map Piece.action) count)
    (same : targetsFrom 0 others = targetsFrom 0 pieces) :
    (usesOf others).length = count ∧ ∀ label place,
      labelsOf first others place = some label ↔ (label, place) ∈ labelMarks pieces := by
  -- where the label of a number is
  have known : ∀ id ∈ branchIds (pieces.map Piece.action),
      ∃ place, (⟨id⟩, place) ∈ labelMarks pieces := fun _ => orderly.mem_branchIds.mp
  choose! placeOf isPlace using known
  have uses := orderly.usesOf_eq numbered same isPlace
  have nodup : (usesOf others).Nodup := nodup_usesFrom .nil _
  have ids : ∀ {id}, id ∈ List.range' first count ↔ id ∈ branchIds (pieces.map Piece.action) := by
    intro id
    rw [← numbered, mem_usesFrom]
    exact or_iff_right List.not_mem_nil
  rw [labelsOf, uses]
  rw [uses] at nodup
  refine ⟨by rw [List.length_map, List.length_range'], fun label place => ?_⟩
  rw [labelOf_range'_eq_some_iff nodup, ids]
  constructor
  · rintro ⟨isId, rfl⟩
    exact isPlace label.id isId
  · intro placed
    have isId := orderly.mem_branchIds.mpr ⟨place, placed⟩
    exact ⟨isId, orderly.place_unique (isPlace label.id isId) placed⟩

end ActionCode
