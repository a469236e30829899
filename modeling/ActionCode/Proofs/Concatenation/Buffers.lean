/-
**Buffers one behind the other.**

* `targetsFrom_elsewhere`, `countBefore_elsewhere`: pieces further on go further on, past as many
  actions.
* `Finishable.append`: sequences that can be finished can be finished one behind the other.
* **`finished_append`**: then the second is spliced to the first one.
* **`destinations_append`**: branches go where they went.
* **`disassemble_append`**: so it is with buffers.
-/

import ActionCode.Proofs.Concatenation.Decoding
import ActionCode.Proofs.Concatenation.Seam
import ActionCode.Proofs.Concatenation.Splicing
import ActionCode.Proofs.RoundTrip.Preservation

namespace ActionCode

variable {front back pieces : List Piece} {names : Label → Label}

/-! ### Pieces further on -/

theorem targetsFrom_elsewhere (names : Label → Label) (distance position : Nat)
    (pieces : List Piece) :
    targetsFrom (distance + position) (relabelPieces names pieces) =
      (targetsFrom position pieces).map ((distance : Int) + ·) := by
  induction pieces generalizing position with
  | nil => rfl
  | cons piece rest ih =>
    have own : (piece.action.relabelled names).targets (distance + position) =
        (piece.action.targets position).map ((distance : Int) + ·) := by
      rw [Action.targets, Action.targets, piece.action.branch?_relabelled]
      cases piece.action.branch? with
      | none => rfl
      | some branch => exact congrArg ([·]) (branch.target_add distance position)
    rw [relabelPieces_cons, targetsFrom, targetsFrom, piece.add_bytes_relabelled, ih,
      List.map_append]
    exact congrArg (· ++ _) own

theorem countBefore_append (place position : Nat) (front back : List Piece) :
    countBefore place position (front ++ back) = countBefore place position front +
      countBefore place (position + widthOf front) back := by
  induction front generalizing position with
  | nil => exact (Nat.zero_add _).symm
  | cons piece rest ih =>
    rw [List.cons_append, countBefore, countBefore, ih, widthOf_cons, Nat.add_assoc, Nat.add_assoc]

theorem countBefore_elsewhere (names : Label → Label) (distance place position : Nat)
    (pieces : List Piece) :
    countBefore (distance + place) (distance + position) (relabelPieces names pieces) =
      countBefore place position pieces := by
  induction pieces generalizing position with
  | nil => rfl
  | cons piece rest ih =>
    have length : (piece.action.relabelled names).splitPush.length =
        piece.action.splitPush.length := by
      have split := (spares_relabelled names).map_splitPushes [piece.action]
      rw [List.map_singleton, splitPushes_singleton, splitPushes_singleton] at split
      rw [← split, List.length_map]
    rw [relabelPieces_cons, countBefore, countBefore, piece.add_bytes_relabelled, ih]
    refine congrArg (· + _) ?_
    show (if distance + position < distance + place then
      (piece.action.relabelled names).splitPush.length else 0) = _
    rw [length]
    simp only [Nat.add_lt_add_iff_left]

/-- All actions of pieces begin before their end. -/
theorem countBefore_all (real : AllReal pieces) {place position : Nat}
    (late : position + widthOf pieces ≤ place) :
    countBefore place position pieces = (pieces.flatMap Piece.sense).length := by
  induction pieces generalizing position with
  | nil => rfl
  | cons piece rest ih =>
    rw [widthOf_cons] at late
    rw [countBefore_cons (by omega) real.head, ih real.tail (by omega), List.flatMap_cons,
      List.length_append, Piece.sense, List.length_map]

theorem Reached.append {point stop : Point} (reached : Reached point front stop)
    (back : List Piece) : Reached point (front ++ back) stop := by
  obtain ⟨before, behind, rfl, rfl⟩ := reached
  exact ⟨before, behind ++ back, List.append_assoc .., rfl⟩

/-- What is reached in pieces alone is reached further on. -/
theorem Reached.behind {stop : Point} (reached : Reached ⟨0, 0⟩ back stop) (names : Label → Label)
    (front : List Piece) :
    ∃ last, Reached ⟨0, 0⟩ (front ++ relabelPieces names back) last ∧
      last.bytes = widthOf front + stop.bytes := by
  obtain ⟨before, behind, rfl, rfl⟩ := reached
  refine ⟨_, ⟨front ++ relabelPieces names before, relabelPieces names behind, ?_, rfl⟩, ?_⟩
  · rw [relabelPieces_append, List.append_assoc]
  · have width := widthOf_relabelPieces names before
    rw [widthOf] at width
    rw [Point.bytes_through, Point.bytes_through, List.map_append, List.sum_append, width]
    show 0 + (widthOf front + widthOf before) = widthOf front + (0 + widthOf before)
    omega

/-! ### Sequences further on -/

/-- **Sequences that can be finished can be finished one behind the other.** -/
theorem Finishable.append (first : Finishable front) (second : Finishable back)
    (names : Label → Label) : Finishable (front ++ relabelPieces names back) where
  lands := by
    intro target inside
    have shifted := targetsFrom_elsewhere names (widthOf front) 0 back
    rw [targetsFrom_append, Nat.zero_add, ← Nat.add_zero (widthOf front), shifted] at inside
    rcases List.mem_append.mp inside with inside | inside
    · obtain ⟨last, reached, goes⟩ := first.lands target inside
      exact ⟨last, reached.append _, goes⟩
    · obtain ⟨own, isOwn, rfl⟩ := List.mem_map.mp inside
      obtain ⟨last, reached, rfl⟩ := second.lands own isOwn
      obtain ⟨stop, further, bytes⟩ := reached.behind names front
      exact ⟨stop, further, by rw [bytes, Int.natCast_add]⟩
  fit := allFit_append first.fit ((allFit_relabelPieces names back).mpr second.fit)

/-- The bytes that branches go to belong to the sequence, or lie right behind it. -/
theorem Finishable.within (finishable : Finishable pieces) :
    ∀ place ∈ usesOf pieces, place ≤ widthOf pieces := by
  intro place inside
  rw [usesOf, mem_usesFrom] at inside
  obtain ⟨target, isTarget, rfl⟩ := List.mem_map.mp (inside.resolve_left List.not_mem_nil)
  obtain ⟨last, ⟨before, behind, rfl, rfl⟩, rfl⟩ := finishable.lands target isTarget
  rw [Int.toNat_natCast, Point.bytes_through, widthOf, List.map_append, List.sum_append]
  show 0 + _ ≤ _
  omega

theorem toNat_mem_usesOf {target : Int} (isTarget : target ∈ targetsFrom 0 pieces) :
    target.toNat ∈ usesOf pieces := by
  rw [usesOf, mem_usesFrom]
  exact .inr (List.mem_map_of_mem isTarget)

theorem usesOf_append (second : Finishable back) (names : Label → Label) (front : List Piece) :
    usesOf (front ++ relabelPieces names back) =
      usedBoth (widthOf front) (usesOf front) ((targetsFrom 0 back).map Int.toNat) := by
  have shifted := targetsFrom_elsewhere names (widthOf front) 0 back
  have natural : ((targetsFrom 0 back).map ((widthOf front : Int) + ·)).map Int.toNat =
      ((targetsFrom 0 back).map Int.toNat).map (widthOf front + ·) := by
    rw [List.map_map, List.map_map]
    refine List.map_congr_left fun target inside => ?_
    obtain ⟨last, _, rfl⟩ := second.lands target inside
    rfl
  rw [usesOf, targetsFrom_append, Nat.zero_add, ← Nat.add_zero (widthOf front), shifted,
    List.map_append, Nat.add_zero, natural, usesFrom, List.foldl_append]
  rfl

/-- The names of the labels of a sequence behind another one. -/
def laterNames (inside inside' : Nat) (front back : List Piece) : Label → Label :=
  backNames inside inside' (widthOf front) (usesOf front) ((targetsFrom 0 back).map Int.toNat)

/-- The label of a byte of the first sequence. -/
theorem labelsOf_front (second : Finishable back) {place : Nat}
    (before : place ∈ usesOf front ∨ place < widthOf front) (inside inside' : Nat)
    (names : Label → Label) :
    labelsOf (inside + inside') (front ++ relabelPieces names back) place =
      (labelsOf inside front place).map (frontNames inside inside') := by
  rw [labelsOf, usesOf_append second]
  exact labelOf_front before inside inside' _

/-- The label of a byte of the second sequence. -/
theorem labelsOf_back (first : Finishable front) (second : Finishable back) {place : Nat}
    (behind : place ∈ usesOf back ∨ 0 < place) (inside inside' : Nat) (names : Label → Label) :
    labelsOf (inside + inside') (front ++ relabelPieces names back) (widthOf front + place) =
      (labelsOf inside' back place).map (laterNames inside inside' front back) := by
  rw [labelsOf, usesOf_append second]
  exact labelOf_back first.within behind inside inside'

theorem used_of_labelsOf {nextLabel place : Nat} (some : labelsOf nextLabel pieces place ≠ none) :
    place ∈ usesOf pieces :=
  labelOf_eq_some_iff.mp (Option.ne_none_iff_exists'.mp some)

/-! ### Finished sequences -/

theorem destinations_finished (real : AllReal pieces) (finishable : Finishable pieces)
    (nextLabel : Nat) :
    destinations (finished nextLabel pieces) =
      (targetsFrom 0 pieces).map fun target => some (countBefore target.toNat 0 pieces) := by
  have grounds : (bindFrom (labelsOf nextLabel pieces) 0 pieces).map Piece.ground =
      pieces.map Piece.ground := by
    have gists := congrArg (List.map Prod.fst) (map_gist_bindFrom (labelsOf nextLabel pieces) 0 pieces)
    rwa [List.map_map, List.map_map] at gists
  rw [finished, destinations_eq (labelled_listed real finishable.fit nextLabel).solid
      (aimed_listed real finishable nextLabel)
      fun mark inside => labelled_of_mem_listed real finishable.fit inside,
    reals_listed real finishable.fit, targetsFrom_bindFrom]
  simp only [countBefore_congr grounds]

theorem length_realActions_finished (real : AllReal pieces) (fit : AllFit pieces)
    (nextLabel : Nat) :
    (realActions (finished nextLabel pieces)).length = (pieces.flatMap Piece.sense).length := by
  have senses : (bindFrom (labelsOf nextLabel pieces) 0 pieces).map Piece.sense =
      pieces.map Piece.sense := by
    have gists := congrArg (List.map Prod.snd) (map_gist_bindFrom (labelsOf nextLabel pieces) 0 pieces)
    rwa [List.map_map, List.map_map] at gists
  rw [← List.length_map Action.essential, finished,
    realActions_splitPushes (labelled_listed real fit nextLabel).solid, reals_listed real fit,
    List.flatMap_def, senses, List.flatMap_def]

section

variable {inside inside' : Nat} (real : AllReal front) (real' : AllReal back)
  (first : Finishable front) (second : Finishable back)

include real real' first second

/-- **A sequence behind another one is spliced to it.** -/
theorem finished_append
    (own : ∀ piece ∈ front, ∀ label ∈ piece.action.labelsInside, label.id < inside)
    (own' : ∀ piece ∈ back, ∀ label ∈ piece.action.labelsInside, label.id < inside') :
    finished (inside + inside') (front ++ relabelPieces (Label.raised inside) back) =
      spliced (frontNames inside inside') (laterNames inside inside' front back)
        (finished inside front) (finished inside' back) := by
  obtain ⟨opened, isOpen, unended, ended⟩ := finished_front real first.fit inside
  obtain ⟨later, isLater, unstarted, started⟩ := finished_back real' second.fit inside'
  have names : ∀ piece ∈ front, ∀ label ∈ piece.action.labelsInside,
      id label = frontNames inside inside' label :=
    fun piece isPiece label isLabel => (if_pos (own piece isPiece label isLabel)).symm
  have names' : ∀ piece ∈ back, ∀ label ∈ piece.action.labelsInside,
      label.raised inside = laterNames inside inside' front back label :=
    fun piece isPiece label isLabel => (if_pos (own' piece isPiece label isLabel)).symm
  have listing : listed (inside + inside') (front ++ relabelPieces (Label.raised inside) back) =
      _ := listing_two real first.fit real' second.fit names names'
    (fun target isTarget => labelsOf_front second (.inl (toNat_mem_usesOf isTarget)) inside inside' _)
    (fun target isTarget => by
      obtain ⟨last, _, rfl⟩ := second.lands target isTarget
      exact labelsOf_back first second (.inl (toNat_mem_usesOf isTarget)) inside inside' _)
    (fun place before => labelsOf_front second (.inr before) inside inside' _)
    (fun place behind => labelsOf_back first second (.inr behind) inside inside' _)
  have split : ∀ (names : Label → Label) (pieces : List Piece),
      splitPushes ((relabelPieces names pieces).map Piece.action) =
        relabelAll names (splitPushes (pieces.map Piece.action)) := by
    intro names pieces
    rw [map_action_relabelPieces, ← (spares_relabelled names).map_splitPushes, relabelAll_eq_map]
  rw [finished, listing, List.map_append, List.map_append, splitPushes_append, splitPushes_append,
    split, split, splitPushes_labelPieces, ← isOpen, ← isLater, ended, started]
  refine (spliced_labelling unended unstarted (fun some => ?_) (fun some => ?_)
    (fun none none' => ?_)).symm
  · exact labelsOf_front second (.inl (used_of_labelsOf some)) inside inside' _
  · exact labelsOf_back first second (.inl (used_of_labelsOf some)) inside inside' _
  · rw [labelsOf, usesOf_append second]
    exact labelOf_between none none' _

/-- **Only labels that meet have one name.** -/
theorem names_eq_iff
    (own : ∀ piece ∈ front, ∀ label ∈ piece.action.labelsInside, label.id < inside)
    (own' : ∀ piece ∈ back, ∀ label ∈ piece.action.labelsInside, label.id < inside')
    {label label' : Label} (isNamed : label ∈ labelsNamed (finished inside front))
    (isNamed' : label' ∈ labelsNamed (finished inside' back)) :
    frontNames inside inside' label = laterNames inside inside' front back label' ↔
      meeting (finished inside front) (finished inside' back) = some (label, label') := by
  have named : NamedBy inside (usesOf front) label :=
    (labelsNamed_finished real first.fit isNamed).imp_left
      fun ⟨piece, isPiece, isLabel⟩ => own piece isPiece label isLabel
  have named' : NamedBy inside' (usesOf back) label' :=
    (labelsNamed_finished real' second.fit isNamed').imp_left
      fun ⟨piece, isPiece, isLabel⟩ => own' piece isPiece label' isLabel
  obtain ⟨_, _, unended, ended⟩ := finished_front real first.fit inside
  obtain ⟨_, _, unstarted, started⟩ := finished_back real' second.fit inside'
  have names := frontNames_eq_backNames_iff first.within named named'
  change _ ↔ labelsOf inside front (widthOf front) = some label ∧
    labelsOf inside' back 0 = some label' at names
  refine names.trans ?_
  rw [ended, started, meeting_labelling unended unstarted]
  cases labelsOf inside front (widthOf front) <;> cases labelsOf inside' back 0 <;> simp

/-- **The branches of a sequence behind another one go where they went**, past the actions of that
one. -/
theorem destinations_append (nextLabel : Nat) (names : Label → Label) :
    destinations (finished nextLabel (front ++ relabelPieces names back)) =
      destinations (finished inside front) ++ (destinations (finished inside' back)).map
        (Option.map ((realActions (finished inside front)).length + ·)) := by
  rw [destinations_finished (real.append (real'.relabelPieces names)) (first.append second names),
    destinations_finished real first,
    destinations_finished real' second, length_realActions_finished real first.fit,
    targetsFrom_append, Nat.zero_add, List.map_append]
  have shifted := targetsFrom_elsewhere names (widthOf front) 0 back
  rw [Nat.add_zero] at shifted
  refine congrArg₂ (· ++ ·) ?_ ?_
  · refine List.map_congr_left fun target isTarget => congrArg some ?_
    have le := first.within _ (toNat_mem_usesOf isTarget)
    rw [countBefore_append, Nat.zero_add, countBefore_of_le le (relabelPieces names back),
      Nat.add_zero]
  · rw [shifted, List.map_map, List.map_map]
    refine List.map_congr_left fun target isTarget => congrArg some ?_
    obtain ⟨last, _, rfl⟩ := second.lands target isTarget
    have elsewhere := countBefore_elsewhere names (widthOf front) last.bytes 0 back
    show countBefore (widthOf front + last.bytes) 0 (front ++ relabelPieces names back) =
      _ + countBefore last.bytes 0 back
    rw [countBefore_append, countBefore_all real (by omega), ← elsewhere, Nat.zero_add,
      Nat.add_zero]

end

/-! ### Buffers -/

theorem Located.piece_shifted (distance first : Nat) (row : Located) :
    (row.shifted distance first).piece =
      row.piece.withAction (Action.relabelled (Label.raised first)) :=
  congrArg (Piece.mk _ _) row.recordCount_shifted

/-- Decoded rows as a whole sequence. -/
theorem pieces_of_disassembleBlock {maxDepth : Nat} {bytes : List UInt8} {plain : List Action}
    {after : Progress}
    (success : disassembleBlock maxDepth 0 (Cursor.start 0 bytes) ⟨0, #[]⟩ = .ok plain after) :
    ∃ rows middle, Decodes maxDepth 0 (Cursor.start 0 bytes) ⟨0, #[]⟩ rows middle ∧
      AllReal (rows.map Located.piece) ∧ Finishable (rows.map Located.piece) ∧
      plain = finished middle.nextLabel (rows.map Located.piece) ∧
      ∀ piece ∈ rows.map Located.piece, ∀ label ∈ piece.action.labelsInside,
        label.id < middle.nextLabel := by
  obtain ⟨rows, middle, decodes, finishes⟩ := disassembleBlock_ok_iff.mp success
  obtain ⟨real, finishable, isPlain, _⟩ := decodes.finished rfl finishes
  refine ⟨_, middle, decodes, real, finishable, isPlain, fun piece inside => ?_⟩
  obtain ⟨row, isRow, rfl⟩ := List.mem_map.mp inside
  exact decodes.named.2 row isRow

/-- Rows that can be finished are the sequence of their buffer. -/
theorem disassembleBlock_of_finishable {maxDepth : Nat} {bytes : List UInt8} {rows : List Located}
    {middle : Progress}
    (decodes : Decodes maxDepth 0 (Cursor.start 0 bytes) ⟨0, #[]⟩ rows middle)
    (finishable : Finishable (rows.map Located.piece)) :
    ∃ after, disassembleBlock maxDepth 0 (Cursor.start 0 bytes) ⟨0, #[]⟩ =
      .ok (finished middle.nextLabel (rows.map Located.piece)) after := by
  obtain ⟨laid, real⟩ := decodes.region rfl
  obtain ⟨after, finishes, _⟩ := finishable.finishSequence laid real middle
  exact ⟨after, disassembleBlock_ok_iff.mpr ⟨rows, middle, decodes, finishes⟩⟩

/-- **Buffers are disassembled one behind the other.** Two buffers that are disassembled into some
sequences are so together, into the second sequence behind the first one, under other names for the
labels of either. A label at the end of the first sequence and one at the start of the second become
one label, and no others do. Real actions and closings come one after another, and all branches go to
the actions that they went to. -/
theorem disassemble_append {settings : DisassemblySettings} {first second : List UInt8}
    {front back : List Action} (raw : settings.examineStack = false)
    (success : (disassemble settings first).result = .ok front)
    (success' : (disassemble settings second).result = .ok back) :
    ∃ names names' : Label → Label, Function.Injective names ∧ Function.Injective names' ∧
      (∀ label ∈ labelsNamed front, ∀ label' ∈ labelsNamed back,
        names label = names' label' ↔ meeting front back = some (label, label')) ∧
      (disassemble settings (first ++ second)).result = .ok (spliced names names' front back) ∧
      realActions (spliced names names' front back) =
        relabelAll names (realActions front) ++ relabelAll names' (realActions back) ∧
      none ∉ destinations (spliced names names' front back) ∧
      destinations (spliced names names' front back) = destinations front ++
        (destinations back).map (Option.map ((realActions front).length + ·)) ∧
      closingPlaces 0 (spliced names names' front back) =
        closingPlaces 0 front ++ closingPlaces (realActions front).length back := by
  have plain : ∀ actions, settings.examined actions = actions := by
    intro actions
    rw [DisassemblySettings.examined, raw]
    rfl
  obtain ⟨_, _, block, rfl⟩ := disassemble_eq_ok_iff.mp success
  obtain ⟨_, _, block', rfl⟩ := disassemble_eq_ok_iff.mp success'
  obtain ⟨rows, middle, decoded, real, finishable, rfl, own⟩ := pieces_of_disassembleBlock block
  obtain ⟨rows', middle', decoded', real', finishable', rfl, own'⟩ :=
    pieces_of_disassembleBlock block'
  rw [plain, plain]
  have pieces : (rows ++ rows'.map (Located.shifted first.length middle.nextLabel)).map
      Located.piece = rows.map Located.piece ++
        relabelPieces (Label.raised middle.nextLabel) (rows'.map Located.piece) := by
    rw [List.map_append, List.map_map, relabelPieces, List.map_map]
    exact congrArg _ (List.map_congr_left fun row _ => row.piece_shifted _ _)
  have both := finishable.append finishable' (Label.raised middle.nextLabel)
  have next : (middle.before middle').nextLabel = middle.nextLabel + middle'.nextLabel := rfl
  obtain ⟨after, whole⟩ := disassembleBlock_of_finishable (decoded.append decoded')
    (pieces ▸ both)
  have lands := destinations_finished (real.append (real'.relabelPieces _)) both
    (middle.nextLabel + middle'.nextLabel)
  have goes := @destinations_append _ _ middle.nextLabel middle'.nextLabel real real' finishable
    finishable' (middle.nextLabel + middle'.nextLabel) (Label.raised middle.nextLabel)
  have result := finished_append real real' finishable finishable' own own'
  rw [pieces, next, result] at whole
  rw [result] at goes lands
  refine ⟨_, _, frontNames_injective _ _, backNames_injective _ _ _ _ _, ?_, ?_,
    realActions_spliced _ _ _ _, ?_, goes, closingPlaces_spliced _ _ _ _⟩
  · exact fun label isNamed label' isNamed' =>
      names_eq_iff real real' finishable finishable' own own' isNamed isNamed'
  · exact disassemble_eq_ok_iff.mpr ⟨_, after, whole, (plain _).symm⟩
  · intro inside
    obtain ⟨target, _, some⟩ := List.mem_map.mp (lands ▸ inside)
    cases some

/-- A scope around a branch, which goes to the end. -/
def scopeToEnd : List UInt8 := [0x94, 2, 0, 5, 0, 0x99, 2, 0, 0, 0]

/-- A branch that goes to its own start. -/
def branchToStart : List UInt8 := [0x99, 2, 0, 0xfb, 0xff]

/-- The label behind the scope becomes that in front of the second branch. -/
theorem disassemble_append_branches :
    ∃ names names' : Label → Label, names ⟨0⟩ = names' ⟨0⟩ ∧
      (disassemble .raw (scopeToEnd ++ branchToStart)).result = .ok
        [.plain (.block (.scope 5)), .plain (.branch ⟨false, 0, some (names ⟨0⟩)⟩),
          .marker .endWith, .marker (.label (names ⟨0⟩)),
          .plain (.branch ⟨false, -5, some (names' ⟨0⟩)⟩)] := by
  have success : (disassemble .raw scopeToEnd).result = .ok
      [.plain (.block (.scope 5)), .plain (.branch ⟨false, 0, some ⟨0⟩⟩), .marker .endWith,
        .marker (.label ⟨0⟩)] := by decide +kernel
  have success' : (disassemble .raw branchToStart).result = .ok
      [.marker (.label ⟨0⟩), .plain (.branch ⟨false, -5, some ⟨0⟩⟩)] := by decide +kernel
  obtain ⟨names, names', _, _, meets, result, _⟩ := disassemble_append rfl success success'
  exact ⟨names, names', (meets ⟨0⟩ (by decide +kernel) ⟨0⟩ (by decide +kernel)).mpr rfl, result⟩

end ActionCode
