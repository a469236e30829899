/-
**How many records of pushes are joined.**

* `Divided`: a branch goes to a byte, or a span of a block ends there.
* `joinsFrom`, `ownJoins`: the neighbouring records of pushes of a sequence with nothing between
  them that divides them.
* **`joins_listed`**: these are the pushes that are neighbours in the listing, and the records that
  are saved when pushes are joined.
-/

import ActionCode.Proofs.Labels.Listing
import ActionCode.Proofs.Merging.Records

namespace ActionCode

/-! ### Neighbours -/

/-- A branch goes to a byte of a sequence, or a span of a block ends there. -/
def Divided (pieces : List Piece) (place : Nat) : Prop :=
  (∃ target ∈ targetsFrom 0 pieces, target = place) ∨
    ∃ entry ∈ spansFrom 0 (layout pieces), ∃ span ∈ entry.2, span.2 = place

instance (pieces : List Piece) : DecidablePred (Divided pieces) := fun place =>
  inferInstanceAs (Decidable ((∃ target ∈ targetsFrom 0 pieces, target = place) ∨
    ∃ entry ∈ spansFrom 0 (layout pieces), ∃ span ∈ entry.2, span.2 = place))

/-- The neighbouring records of pushes, from a byte on, with no dividing byte between them. -/
def joinsFrom (divides : Nat → Prop) [DecidablePred divides] (position : Nat) : List Piece → Nat
  | first :: second :: rest =>
    (if first.action.pushed ≠ [] ∧ second.action.pushed ≠ [] ∧ ¬ divides (position + first.bytes)
      then 1 else 0) + joinsFrom divides (position + first.bytes) (second :: rest)
  | _ => 0

/-- The neighbouring records of pushes of a sequence that nothing divides. -/
def ownJoins (pieces : List Piece) : Nat := joinsFrom (Divided pieces) 0 pieces

/-- The pushes of a sequence that follow a push. -/
def neighbours : List Action → Nat
  | first :: second :: rest =>
    (if first.pushed ≠ [] ∧ second.pushed ≠ [] then 1 else 0) + neighbours (second :: rest)
  | _ => 0

theorem neighbours_unpushed {action : Action} (none : action.pushed = []) (rest : List Action) :
    neighbours (action :: rest) = neighbours rest := by
  cases rest with
  | nil => rfl
  | cons next rest =>
    rw [neighbours, if_neg fun both => both.1 none, Nat.zero_add]

/-- A sequence begins with a push. -/
def Pushing : List Action → Prop
  | [] => False
  | action :: _ => action.pushed ≠ []

instance : DecidablePred Pushing
  | [] => inferInstanceAs (Decidable False)
  | action :: _ => inferInstanceAs (Decidable (action.pushed ≠ []))

theorem neighbours_apart {rest : List Action} (none : ¬ Pushing rest) (action : Action) :
    neighbours (action :: rest) = neighbours rest := by
  cases rest with
  | nil => rfl
  | cons next rest =>
    rw [neighbours, if_neg fun both => none both.2, Nat.zero_add]

theorem neighbours_pushing {action : Action} (some : action.pushed ≠ []) {rest : List Action}
    (pushing : Pushing rest) : neighbours (action :: rest) = 1 + neighbours rest := by
  cases rest with
  | nil => exact absurd pushing id
  | cons next rest => rw [neighbours, if_pos ⟨some, pushing⟩]

theorem pushing_joinRun {values : List PushValue} (some : values ≠ []) {later : List Action}
    (merged : Merged later) : Pushing (joinRun values later) := by
  rcases later with _ | ⟨next, rest⟩
  · rw [joinRun_end some]
    show (pushOf values).pushed ≠ []
    rwa [pushed_pushOf]
  · by_cases apart : next.pushed = []
    · rw [joinRun_apart some apart]
      show (pushOf values).pushed ≠ []
      rwa [pushed_pushOf]
    · rw [joinRun_pushed values apart (merged.head apart)]
      show (pushOf (values ++ next.pushed)).pushed ≠ []
      rw [pushed_pushOf]
      exact fun equal => some (List.append_eq_nil_iff.mp equal).1

/-- A sequence begins with a push after joining if it did before. -/
theorem pushing_fuse {actions : List Action} : Pushing (fuse actions) ↔ Pushing actions := by
  cases actions with
  | nil => rfl
  | cons action rest =>
    by_cases none : action.pushed = []
    · rw [fuse_unpushed none]
      rfl
    · rw [fuse_pushed none]
      exact iff_of_true (pushing_joinRun none (merged_fuse rest)) none

/-- Literals take a record of their own, or join the one that a sequence begins with. -/
theorem sum_width_joinRun {values : List PushValue} (some : values ≠ []) {later : List Action}
    (merged : Merged later) :
    (¬ Pushing later → ((joinRun values later).map Action.width).sum =
      (pushOf values).width + (later.map Action.width).sum) ∧
    (Pushing later → ((joinRun values later).map Action.width).sum + headWidth =
      (pushOf values).width + (later.map Action.width).sum) := by
  rcases later with _ | ⟨next, rest⟩
  · rw [joinRun_end some]
    exact ⟨fun _ => rfl, fun pushing => absurd pushing id⟩
  · by_cases apart : next.pushed = []
    · rw [joinRun_apart some apart]
      exact ⟨fun _ => rfl, fun pushing => absurd apart pushing⟩
    · rw [joinRun_pushed values apart (merged.head apart)]
      refine ⟨fun none => absurd apart none, fun _ => ?_⟩
      have saved := width_pushOf_append some apart
      rw [← merged.head apart] at saved
      rw [List.map_cons, List.map_cons, List.sum_cons, List.sum_cons]
      omega

/-- **Joining saves a head for each pair of neighbours.** -/
theorem sum_width_fuse (actions : List Action) :
    ((fuse actions).map Action.width).sum + headWidth * neighbours actions =
      (actions.map Action.width).sum := by
  induction actions with
  | nil => rfl
  | cons action rest ih =>
    rw [List.map_cons, List.sum_cons]
    by_cases none : action.pushed = []
    · rw [fuse_unpushed none, neighbours_unpushed none, List.map_cons, List.sum_cons]
      omega
    · have width : action.width = (pushOf action.pushed).width := by
        rw [width_of_pushed none, width_pushOf none]
      have joined := sum_width_joinRun none (merged_fuse rest)
      rw [pushing_fuse] at joined
      rw [fuse_pushed none]
      by_cases pushing : Pushing rest
      · have saved := joined.2 pushing
        rw [neighbours_pushing none pushing, Nat.mul_add]
        omega
      · have kept := joined.1 pushing
        rw [neighbours_apart pushing]
        omega

/-! ### Neighbours of a listing -/

/-- A marker is at a byte. -/
def MarkedAt (position : Nat) (pieces : List Piece) (place : Nat) : Prop :=
  ∃ action, (action, place) ∈ marksOf some position pieces ∧ action.isMarker = true

theorem markedAt_cons_iff {position place : Nat} {piece : Piece} {rest : List Piece} :
    MarkedAt position (piece :: rest) place ↔
      (piece.action.isMarker = true ∧ place = position) ∨
        MarkedAt (position + piece.bytes) rest place := by
  constructor
  · rintro ⟨action, inside, isMarker⟩
    rcases marksOf_cons_iff.mp inside with ⟨found, here⟩ | inside
    · cases found
      exact .inl ⟨isMarker, here⟩
    · exact .inr ⟨action, inside, isMarker⟩
  · rintro (⟨isMarker, here⟩ | ⟨action, inside, isMarker⟩)
    · exact ⟨piece.action, marksOf_cons_iff.mpr (.inl ⟨rfl, here⟩), isMarker⟩
    · exact ⟨action, marksOf_cons_iff.mpr (.inr inside), isMarker⟩

theorem MarkedAt.le {position place : Nat} {pieces : List Piece}
    (marked : MarkedAt position pieces place) : position ≤ place := by
  obtain ⟨action, inside, _⟩ := marked
  obtain ⟨last, reached, here⟩ := (reached_of_marksOf ⟨position, 0⟩ inside).1
  have le := reached.le.bytes
  rwa [here] at le

/-- A sequence begins with a push if its first real action is one, and no marker comes before. -/
theorem pushing_iff {pieces : List Piece} (solid : AllSolid pieces) (position : Nat) :
    Pushing (pieces.map Piece.action) ↔
      Pushing ((reals pieces).map Piece.action) ∧ ¬ MarkedAt position pieces position := by
  cases pieces with
  | nil => exact iff_of_false id fun both => both.1
  | cons piece rest =>
    rcases solid.head with ⟨marker, rfl⟩ | real
    · exact iff_of_false (fun pushing => pushing rfl) fun both =>
        both.2 (markedAt_cons_iff.mpr (.inl ⟨rfl, rfl⟩))
    · rw [reals_cons real.real]
      refine ⟨fun pushing => ⟨pushing, fun marked => ?_⟩, fun both => both.1⟩
      rcases markedAt_cons_iff.mp marked with ⟨isMarker, _⟩ | later
      · rw [real.real] at isMarker
        cases isMarker
      · have le := later.le
        have positive := real.bytes
        omega

theorem neighbours_cons (action : Action) (rest : List Action) :
    neighbours (action :: rest) =
      (if action.pushed ≠ [] ∧ Pushing rest then 1 else 0) + neighbours rest := by
  by_cases both : action.pushed ≠ [] ∧ Pushing rest
  · rw [if_pos both, neighbours_pushing both.1 both.2]
  · rw [if_neg both, Nat.zero_add]
    by_cases none : action.pushed = []
    · exact neighbours_unpushed none rest
    · exact neighbours_apart (fun pushing => both ⟨none, pushing⟩) action

/-- Only what is pushed decides what the neighbours are. -/
theorem neighbours_map {change : Action → Action}
    (pushed : ∀ action, (change action).pushed = action.pushed) (actions : List Action) :
    neighbours (actions.map change) = neighbours actions := by
  induction actions with
  | nil => rfl
  | cons action rest ih =>
    have same : Pushing (rest.map change) ↔ Pushing rest := by
      cases rest with
      | nil => exact Iff.rfl
      | cons next rest => exact not_congr (by rw [pushed])
    rw [List.map_cons, neighbours_cons, neighbours_cons, ih, pushed, if_congr (by rw [same]) rfl rfl]

theorem joinsFrom_cons (divides : Nat → Prop) [DecidablePred divides] (position : Nat)
    (piece : Piece) (rest : List Piece) :
    joinsFrom divides position (piece :: rest) =
      (if piece.action.pushed ≠ [] ∧ Pushing (rest.map Piece.action) ∧
        ¬ divides (position + piece.bytes) then 1 else 0) +
      joinsFrom divides (position + piece.bytes) rest := by
  cases rest with
  | nil =>
    rw [if_neg fun all => all.2.1]
    rfl
  | cons next rest => rfl

/-- **Neighbours are the pushes between which no marker is**, if markers are at the bytes that
divide. -/
theorem neighbours_eq_joinsFrom {divides : Nat → Prop} [DecidablePred divides] {position : Nat}
    {pieces : List Piece} (solid : AllSolid pieces)
    (marked : ∀ place, position < place → (divides place ↔ MarkedAt position pieces place)) :
    neighbours (pieces.map Piece.action) = joinsFrom divides position (reals pieces) := by
  induction pieces generalizing position with
  | nil => rfl
  | cons piece rest ih =>
    rcases solid.head with ⟨marker, rfl⟩ | real
    · rw [List.map_cons, neighbours_unpushed rfl, reals_ofMarker]
      refine ih solid.tail fun place later => ?_
      rw [marked place later, markedAt_cons_iff]
      exact or_iff_right fun here => absurd here.2 (Nat.ne_of_gt later)
    · have positive := real.bytes
      have later : ∀ place, position < place →
          (divides place ↔ MarkedAt (position + piece.bytes) rest place) := fun place after => by
        rw [marked place after, markedAt_cons_iff]
        exact or_iff_right fun here => absurd here.2 (Nat.ne_of_gt after)
      have next : Pushing (rest.map Piece.action) ↔
          Pushing ((reals rest).map Piece.action) ∧ ¬ divides (position + piece.bytes) := by
        rw [pushing_iff solid.tail (position + piece.bytes), later _ (by omega)]
      rw [reals_cons real.real, List.map_cons, neighbours_cons, joinsFrom_cons,
        ih solid.tail fun place after => later place (by omega)]
      simp only [next]

theorem exists_closing_other_iff {position place : Nat} {piece : Piece}
    (other : piece.action.closing? = none) (rest : List Piece) :
    (∃ marker, (marker, place) ∈ marksOf Action.closing? position (piece :: rest)) ↔
      ∃ marker, (marker, place) ∈ marksOf Action.closing? (position + piece.bytes) rest := by
  simp only [marksOf_cons_iff, other, reduceCtorEq, false_and, false_or]

theorem exists_closing_marker_iff {position place : Nat} {marker : Marker}
    (closes : marker.closes = true) (rest : List Piece) :
    (∃ found, (found, place) ∈ marksOf Action.closing? position (.ofMarker marker :: rest)) ↔
      position = place ∨ ∃ found, (found, place) ∈ marksOf Action.closing? position rest := by
  simp only [marksOf_cons_iff]
  constructor
  · rintro ⟨found, ⟨_, here⟩ | inside⟩
    · exact .inl here.symm
    · exact .inr ⟨found, inside⟩
  · rintro (here | ⟨found, inside⟩)
    · exact ⟨marker, .inl ⟨Action.closing?_marker closes, here.symm⟩⟩
    · exact ⟨found, .inr inside⟩

/-- **Where spans end, closings are**, behind the start of a sequence and where they are due. -/
theorem Tidy.closing_iff {point : Point} {pieces : List Piece} {stack : List Pending}
    (tidy : Tidy point pieces stack) (solid : AllSolid pieces) (place : Nat) :
    (∃ marker, (marker, place) ∈ marksOf Action.closing? point.bytes pieces) ↔
      (∃ pending ∈ stack, pending.point.bytes = place) ∨
        ∃ entry ∈ spansFrom point.bytes (layout (reals pieces)),
          ∃ span ∈ entry.2, span.2 = place := by
  induction tidy with
  | nil point =>
    refine iff_of_false (fun found => ?_) (fun found => ?_)
    · obtain ⟨_, inside⟩ := found
      cases inside
    · rcases found with ⟨_, inside, _⟩ | ⟨_, inside, _⟩ <;> cases inside
  | @flat point piece rest stack flat later ih =>
    rw [exists_closing_other_iff flat.closing]
    refine (ih solid.tail).trans ?_
    rcases solid.head with ⟨marker, rfl⟩ | real
    · rfl
    · rw [reals_cons real.real, spansFrom_flat flat.block]
      simp only [List.mem_cons, exists_eq_or_imp, List.not_mem_nil, false_and, exists_false,
        false_or]
      rfl
  | @opening point piece block rest own stack opens matched later ih =>
    have real : piece.Real := by
      refine (solid.head).resolve_left ?_
      rintro ⟨marker, rfl⟩
      cases opens
    have reached : ∀ pending ∈ own, Reached (point.after piece) rest pending.point :=
      fun pending inside => later.closes.reached pending (List.mem_append_left _ inside)
    have ends := matched.spanned.exists_span_iff solid.tail reached place
    have spans : spansFrom point.bytes (layout (piece :: reals rest)) =
        (point.bytes, block.spans (point.after piece).bytes ((layout (reals rest)).map Prod.snd)) ::
          spansFrom (point.after piece).bytes (layout (reals rest)) :=
      spansFrom_opening (by rw [opens]; rfl) point.bytes (reals rest)
    rw [exists_closing_other_iff (by rw [opens]; rfl)]
    refine (ih solid.tail).trans ?_
    rw [reals_cons real.real, spans, List.exists_mem_cons_iff, ends]
    simp only [List.mem_append, or_and_right, exists_or]
    rw [or_assoc, or_left_comm]
  | @closing point marker rest stack closes later ih =>
    rw [exists_closing_marker_iff closes, ih solid.tail, reals_ofMarker]
    simp only [List.mem_cons, exists_eq_or_imp, or_assoc]

/-- A marker is a label, or closes a span. -/
theorem markedAt_iff {position place : Nat} {pieces : List Piece} :
    MarkedAt position pieces place ↔
      (∃ label, (label, place) ∈ marksOf Action.label? position pieces) ∨
        ∃ marker, (marker, place) ∈ marksOf Action.closing? position pieces := by
  constructor
  · rintro ⟨action, inside, isMarker⟩
    obtain ⟨marker, rfl⟩ : ∃ marker, action = .marker marker := by
      cases action with
      | marker found => exact ⟨found, rfl⟩
      | plain _ => cases isMarker
      | define _ _ => cases isMarker
    cases marker with
    | label label => exact .inl ⟨label, mem_marksOf.mpr ⟨_, inside, rfl⟩⟩
    | endWith => exact .inr ⟨_, mem_marksOf.mpr ⟨_, inside, rfl⟩⟩
    | endWait => exact .inr ⟨_, mem_marksOf.mpr ⟨_, inside, rfl⟩⟩
    | catchStart => exact .inr ⟨_, mem_marksOf.mpr ⟨_, inside, rfl⟩⟩
    | finallyStart => exact .inr ⟨_, mem_marksOf.mpr ⟨_, inside, rfl⟩⟩
    | endTry => exact .inr ⟨_, mem_marksOf.mpr ⟨_, inside, rfl⟩⟩
  · rintro (⟨label, inside⟩ | ⟨marker, inside⟩)
    · obtain ⟨action, inside, found⟩ := mem_marksOf.mp inside
      refine ⟨action, inside, ?_⟩
      cases action with
      | marker _ => rfl
      | plain _ => cases found
      | define _ _ => cases found
    · obtain ⟨action, inside, found⟩ := mem_marksOf.mp inside
      exact ⟨action, inside, by rw [Action.eq_marker_of_closing? found]; rfl⟩

variable {pieces : List Piece}

/-- The markers of a listing, behind its start, are at the bytes that divide the sequence. -/
theorem divided_iff (real : AllReal pieces) (finishable : Finishable pieces)
    (nested : Nested 0 (layout pieces)) (nextLabel place : Nat) :
    Divided pieces place ↔ MarkedAt 0 (listed nextLabel pieces) place := by
  have labelled := labelled_listed real finishable.fit nextLabel
  have start : (Point.mk 0 0).bytes = 0 := rfl
  have labels : (∃ target ∈ targetsFrom 0 pieces, target = place) ↔
      ∃ label, (label, place) ∈ marksOf Action.label? 0 (listed nextLabel pieces) := by
    constructor
    · rintro ⟨target, inside, rfl⟩
      obtain ⟨last, reached, same⟩ := finishable.lands _ inside
      have used : place ∈ usesOf pieces := by
        rw [usesOf, mem_usesFrom]
        exact .inr (List.mem_map.mpr ⟨_, inside, Int.toNat_natCast place⟩)
      obtain ⟨label, found⟩ := labelOf_eq_some_iff.mpr used
      exact ⟨label, (labelled.mem_labelMarks start).mpr
        ⟨found, last, reached_listed real finishable.fit nextLabel reached, by omega⟩⟩
    · rintro ⟨label, inside⟩
      have used := labelOf_eq_some_iff.mp
        ⟨label, ((labelled.mem_labelMarks start).mp inside).1⟩
      rw [usesOf, mem_usesFrom] at used
      obtain ⟨target, member, rfl⟩ := List.mem_map.mp (used.resolve_left List.not_mem_nil)
      obtain ⟨last, _, rfl⟩ := finishable.lands _ member
      exact ⟨_, member, rfl⟩
  have closings := (tidy_listed real finishable.fit nested nextLabel).closing_iff labelled.solid place
  rw [reals_listed real finishable.fit, layout_bindFrom] at closings
  rw [markedAt_iff, ← labels, closings]
  exact or_congr_right (or_iff_right fun found => by cases found.choose_spec.1).symm

theorem Action.pushed_bindTo (labels : Nat → Option Label) (position : Nat) (action : Action) :
    (action.bindTo labels position).pushed = action.pushed := by
  rw [Action.bindTo]
  cases found : action.branch? with
  | none => rfl
  | some branch => rw [Action.eq_branch_of_branch? found]; rfl

/-- Only what is pushed, the bytes it takes and the bytes that divide decide what is joined. -/
theorem joinsFrom_congr {divides others : Nat → Prop} [DecidablePred divides]
    [DecidablePred others] (divided : ∀ place, divides place ↔ others place)
    {pieces pieces' : List Piece}
    (same : List.Forall₂ (fun piece other => piece.action.pushed = other.action.pushed ∧
      piece.bytes = other.bytes) pieces pieces') (position : Nat) :
    joinsFrom divides position pieces = joinsFrom others position pieces' := by
  induction same generalizing position with
  | nil => rfl
  | @cons piece other pieces pieces' first later ih =>
    have next : Pushing (pieces.map Piece.action) ↔ Pushing (pieces'.map Piece.action) := by
      cases later with
      | nil => rfl
      | cons both _ => exact not_congr (by rw [both.1])
    rw [joinsFrom_cons, joinsFrom_cons, first.1, first.2, ih]
    simp only [next, divided]

theorem forall₂_bindFrom (labels : Nat → Option Label) (position : Nat) (pieces : List Piece) :
    List.Forall₂ (fun piece other => piece.action.pushed = other.action.pushed ∧
      piece.bytes = other.bytes) (bindFrom labels position pieces) pieces := by
  induction pieces generalizing position with
  | nil => exact .nil
  | cons piece rest ih => exact .cons ⟨Action.pushed_bindTo _ _ _, rfl⟩ (ih _)

/-- **The records that are joined are the pushes that are neighbours in a listing.** -/
theorem joins_listed (real : AllReal pieces) (finishable : Finishable pieces)
    (nested : Nested 0 (layout pieces)) (nextLabel : Nat) :
    neighbours ((listed nextLabel pieces).map Piece.action) = ownJoins pieces := by
  rw [neighbours_eq_joinsFrom (labelled_listed real finishable.fit nextLabel).solid
    fun place _ => divided_iff real finishable nested nextLabel place,
    reals_listed real finishable.fit]
  exact joinsFrom_congr (fun _ => Iff.rfl) (forall₂_bindFrom _ 0 pieces) 0

end ActionCode
