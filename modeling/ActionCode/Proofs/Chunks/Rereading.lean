/-
**What has been written is read as it was.**

* `Canonical`: a level whose closings match its blocks, whose labels and branches are as in a
  listing, and whose instructions are as they are read.
* **`actionsOf_chunksOf`**: if every level is canonical and labels are numbered in the order of first
  use, the records of a sequence are listed as the sequence, with single pushes.
-/

import ActionCode.Proofs.Chunks.Writing
import ActionCode.Proofs.Labels.Numbering
import ActionCode.Proofs.Merging.Shrinking

namespace ActionCode

/-! ### Labels in their places -/

/-- The labels of bytes are those that are placed from a byte on. -/
def Marked (labels : Nat → Option Label) (position : Nat) (pieces : List Piece) : Prop :=
  ∀ place, position ≤ place → ∀ label, labels place = some label ↔
    (label, place) ∈ marksOf Action.label? position pieces

theorem Marked.after {labels : Nat → Option Label} {position : Nat} {piece : Piece}
    {rest : List Piece} (marked : Marked labels position (piece :: rest))
    (apart : piece.action.label? = none ∨ 0 < piece.bytes) :
    Marked labels (position + piece.bytes) rest := by
  intro place late label
  rw [marked place (by omega) label, marksOf_cons_iff]
  refine or_iff_right fun both => ?_
  rcases apart with none | positive
  · rw [none] at both
    cases both.1
  · have here : place = position := both.2
    omega

/-- The byte of a real piece without a label has none. -/
theorem Marked.eq_none {labels : Nat → Option Label} {position : Nat} {piece : Piece}
    {rest : List Piece} (marked : Marked labels position (piece :: rest)) (real : piece.Real) :
    labels position = none := by
  refine Option.eq_none_iff_forall_ne_some.mpr fun label isLabel => ?_
  have inside := (marked position (Nat.le_refl _) label).mp isLabel
  rcases marksOf_cons_iff.mp inside with both | inside
  · rw [real.label?] at both
    cases both.1
  · have here : (Point.mk (position + piece.bytes) 0).bytes = position + piece.bytes := rfl
    obtain ⟨⟨last, reached, equal⟩, _⟩ := reached_of_marksOf _ (here ▸ inside)
    have after := reached.le.bytes
    have positive := real.bytes
    change position + piece.bytes ≤ _ at after
    change last.bytes = position at equal
    omega

/-- The byte of a label has it. -/
theorem Marked.eq_some {labels : Nat → Option Label} {position : Nat} {label : Label}
    {rest : List Piece} (marked : Marked labels position (.ofMarker (.label label) :: rest)) :
    labels position = some label :=
  (marked position (Nat.le_refl _) label).mpr (marksOf_cons_iff.mpr (.inl ⟨rfl, rfl⟩))

theorem Marked.after_label {labels : Nat → Option Label} {position : Nat} {label : Label}
    {piece : Piece} {rest : List Piece}
    (marked : Marked labels position (.ofMarker (.label label) :: piece :: rest))
    (real : piece.Real) : Marked labels (position + piece.bytes) rest := by
  have positive := real.bytes
  intro place late other
  rw [marked place (by omega) other, marksOf_cons_iff, marksOf_cons_iff, real.label?]
  constructor
  · rintro (⟨_, here⟩ | both | inside)
    · change place = position at here
      omega
    · cases both.1
    · exact inside
  · exact fun inside => .inr (.inr inside)

theorem Labelled.of_real {labels : Nat → Option Label} {position : Nat} {piece : Piece}
    {rest : List Piece} (unlabelled : labels position = none) (real : piece.Real)
    (later : Labelled labels (position + piece.bytes) rest) :
    Labelled labels position (piece :: rest) := by
  have labelled := Labelled.real real later
  rw [labelPieces, unlabelled] at labelled
  exact labelled

theorem Labelled.of_label {labels : Nat → Option Label} {position : Nat} {label : Label}
    {piece : Piece} {rest : List Piece} (isLabel : labels position = some label) (real : piece.Real)
    (later : Labelled labels (position + piece.bytes) rest) :
    Labelled labels position (.ofMarker (.label label) :: piece :: rest) := by
  have labelled := Labelled.real real later
  rw [labelPieces, isLabel] at labelled
  exact labelled

/-- Labels that come right before real actions or last are in their places. -/
theorem labelled_of_marked {labels : Nat → Option Label} {position : Nat} {pieces : List Piece}
    (solid : AllSolid pieces) (before : LabelsBefore (pieces.map Piece.action))
    (marked : Marked labels position pieces) : Labelled labels position pieces := by
  have unlabelled : ∀ {position}, Marked labels position [] → Labelled labels position [] := by
    intro position marked
    have none : labels position = none := Option.eq_none_iff_forall_ne_some.mpr fun label isLabel =>
      List.not_mem_nil ((marked position (Nat.le_refl _) label).mp isLabel)
    have labelled : Labelled labels position (labelPieces labels position) := .stop
    rw [labelPieces, none] at labelled
    exact labelled
  induction pieces using List.twoStepInduction generalizing position with
  | nil => exact unlabelled marked
  | singleton piece =>
    obtain ⟨marker, rfl⟩ | real := solid.head
    · cases closes : marker.closes with
      | true => exact .closing closes (unlabelled (marked.after (.inl (label?_ofMarker closes))))
      | false =>
        cases marker with
        | label id =>
          have isLabel := marked.eq_some
          have labelled : Labelled labels position (labelPieces labels position) := .stop
          rw [labelPieces, isLabel] at labelled
          exact labelled
        | _ => cases closes
    · exact .of_real (marked.eq_none real) real (unlabelled (marked.after (.inr real.bytes)))
  | cons_cons piece next rest ih ih' =>
    obtain ⟨marker, rfl⟩ | real := solid.head
    · cases closes : marker.closes with
      | true =>
        exact .closing closes (ih' next solid.tail before.tail
          (marked.after (.inl (label?_ofMarker closes))))
      | false =>
        cases marker with
        | label id =>
          have isReal := (List.isChain_cons_cons.mp before).1 (Option.some_ne_none id)
          obtain ⟨other, rfl⟩ | real := solid.tail.head
          · cases isReal
          · exact .of_label marked.eq_some real
              (ih solid.tail.tail before.tail.tail (marked.after_label real))
        | _ => cases closes
    · exact .of_real (marked.eq_none real) real (ih' next solid.tail before.tail
        (marked.after (.inr real.bytes)))

/-! ### Canonical levels -/

/-- An instruction as a record: a single literal is a list of one. -/
def Instruction.record : Instruction → Instruction
  | .push value => .pushList [value]
  | instruction => instruction

/-- A record without its label. -/
def Instruction.bare (instruction : Instruction) : Instruction :=
  match instruction.record with
  | .branch jump => .branch { jump with label := none }
  | other => other

/-- A level as it is listed and merged: its closings match its blocks, its labels are as in a
listing, and its instructions are as they are read back. -/
structure Canonical (actions : List Action) : Prop where
  tidy : Tidy ⟨0, 0⟩ (actions.map Action.alone) []
  orderly : Orderly (actions.map Action.alone)
  merged : Merged actions
  plain : ∀ instruction, .plain instruction ∈ actions →
    instruction.Readable ∧ instruction.canon = instruction.bare

theorem Canonical.sealed {actions : List Action} (canonical : Canonical actions) :
    Sealed actions := by
  have pieces := Extent.pieces_start canonical.merged.spaced
  refine ⟨⟨?_, ?_⟩, canonical.merged.spaced, fun instruction inside =>
    ⟨(canonical.plain instruction inside).1, ?_⟩⟩
  · rw [pieces]
    exact canonical.orderly.aimed
  · have closes := canonical.tidy.closes
    rw [map_action_alone] at closes
    unfold Measured
    rwa [pieces]
  · rintro branch rfl
    have isBranch : branch ∈ (branchMarks (actions.map Action.alone)).map Prod.fst := by
      unfold branchMarks
      rw [map_fst_marksOf, List.filterMap_map]
      exact List.mem_filterMap.mpr ⟨_, inside, rfl⟩
    obtain ⟨mark, inside', rfl⟩ := List.mem_map.mp isBranch
    exact canonical.orderly.labelled mark inside'

/-! ### One level -/

/-- An action as it is read back, with code that has been listed. -/
def Action.reread : Action → Action
  | .plain instruction => .plain instruction.canon
  | .define signature body => .define signature (mapLevels splitPushes body)
  | .marker found => .marker found

/-- An action as a record, with code that has been listed. -/
def Action.relisted : Action → Action
  | .plain instruction => .plain instruction.record
  | .define signature body => .define signature (mapLevels splitPushes body)
  | .marker found => .marker found

/-- The real actions of a sequence as they are read back. -/
def rereadLevel (actions : List Action) : List Piece :=
  (reals (actions.map Action.alone)).map (Piece.withAction Action.reread)

/-- A sequence as it is listed again. -/
def relistedLevel (actions : List Action) : List Piece :=
  (actions.map Action.alone).map (Piece.withAction Action.relisted)

theorem targetsFrom_rereadLevel (actions : List Action) :
    targetsFrom 0 (rereadLevel actions) = targetsFrom 0 (actions.map Action.alone) := by
  rw [← targetsFrom_rereadPieces]
  refine targetsFrom_of_outline ?_ 0
  rw [rereadLevel, rereadPieces, List.map_map, List.map_map]
  refine List.map_congr_left fun piece _ => ?_
  obtain ⟨action, bytes, records⟩ := piece
  cases action <;> rfl

/-- The labels of branches are those of the bytes they go to. -/
theorem bindFrom_reread {labels : Nat → Option Label} {pieces : List Piece}
    (plain : ∀ piece ∈ pieces, ∀ instruction, piece.action = .plain instruction →
      instruction.canon = instruction.bare) {position : Nat} (solid : AllSolid pieces)
    (bound : ∀ mark ∈ marksOf Action.branch? position pieces,
      labels (mark.1.target mark.2).toNat = mark.1.label) :
    bindFrom labels position ((reals pieces).map (Piece.withAction Action.reread)) =
      reals (pieces.map (Piece.withAction Action.relisted)) := by
  induction pieces generalizing position with
  | nil => rfl
  | cons piece rest ih =>
    have bound' : ∀ mark ∈ marksOf Action.branch? (position + piece.bytes) rest,
        labels (mark.1.target mark.2).toNat = mark.1.label :=
      fun mark inside => bound mark (marksOf_cons_iff.mpr (.inr inside))
    have later := ih (fun other inside => plain other (List.mem_cons_of_mem _ inside)) solid.tail
      bound'
    obtain ⟨marker, rfl⟩ | real := solid.head
    · exact later
    · obtain ⟨action, bytes, records⟩ := piece
      have real' : (Piece.withAction Action.relisted ⟨action, bytes, records⟩).action.isMarker =
          false := by
        cases action with
        | marker found => exact real.real
        | _ => rfl
      rw [reals_cons real.real, List.map_cons, bindFrom, List.map_cons, reals_cons real']
      refine congrArg₂ List.cons ?_ later
      refine congrArg (Piece.mk · bytes records) ?_
      show (action.reread).bindTo labels position = action.relisted
      cases action with
      | plain instruction =>
        have canon := plain _ List.mem_cons_self instruction rfl
        rw [Action.reread, canon, Action.relisted]
        cases instruction with
        | branch jump =>
          have label := bound (jump, position) (marksOf_cons_iff.mpr (.inl ⟨rfl, rfl⟩))
          show Action.plain (.branch { jump with label := labels (jump.target position).toNat }) = _
          rw [label]
          rfl
        | _ => rfl
      | define signature body => rfl
      | marker found => rfl

theorem face_relisted (piece : Piece) :
    (piece.withAction Action.relisted).face = piece.face := by
  obtain ⟨action, bytes, records⟩ := piece
  cases action with
  | plain instruction => cases instruction <;> rfl
  | _ => rfl

theorem solid_relistedLevel (actions : List Action) : AllSolid (relistedLevel actions) := by
  intro piece inside
  obtain ⟨other, member, rfl⟩ := List.mem_map.mp inside
  obtain ⟨marker, rfl⟩ | real := solid_map_alone actions other member
  · exact .inl ⟨marker, rfl⟩
  · obtain ⟨action, bytes, records⟩ := other
    refine .inr ⟨?_, real.bytes, real.records⟩
    cases action with
    | marker found => exact real.real
    | _ => rfl

/-- **A canonical level is listed as it is.** -/
theorem Canonical.listed_eq {actions : List Action} (canonical : Canonical actions)
    {first count : Nat} (numbered : NumberedFrom first actions count) :
    listed first (rereadLevel actions) = relistedLevel actions ∧
      (usesOf (rereadLevel actions)).length = count := by
  have orderly := canonical.orderly
  rw [← map_action_alone actions] at numbered
  obtain ⟨length, isLabel⟩ :=
    orderly.labelsOf_eq_some_iff numbered (targetsFrom_rereadLevel actions)
  refine ⟨?_, length⟩
  have bound : bindFrom (labelsOf first (rereadLevel actions)) 0 (rereadLevel actions) =
      reals (relistedLevel actions) := by
    refine bindFrom_reread ?_ orderly.solid fun mark inside => ?_
    · intro piece inside instruction isPlain
      obtain ⟨action, member, rfl⟩ := List.mem_map.mp inside
      have isPlain' : action = .plain instruction := isPlain
      exact (canonical.plain instruction (isPlain' ▸ member)).2
    · obtain ⟨label, labelled⟩ := Option.ne_none_iff_exists'.mp (orderly.labelled mark inside)
      obtain ⟨place, placed, goes⟩ := orderly.aimed.hits mark inside label labelled
      rw [goes, Int.toNat_natCast, labelled]
      exact (isLabel label place).mpr placed
  have label? : ∀ action : Action, action.relisted.label? = action.label? := by
    intro action
    cases action <;> rfl
  have isMarker : ∀ action : Action, action.relisted.isMarker = action.isMarker := by
    intro action
    cases action <;> rfl
  have faces : (actions.map Action.alone).map Piece.face = (relistedLevel actions).map Piece.face := by
    rw [relistedLevel, List.map_map (f := Piece.withAction Action.relisted)]
    exact List.map_congr_left fun piece _ => (face_relisted piece).symm
  have before : LabelsBefore ((relistedLevel actions).map Piece.action) := by
    have own := orderly.before
    rw [relistedLevel, List.map_map]
    rw [map_action_alone] at own
    rw [List.map_map]
    refine List.isChain_map_of_isChain _ (fun first second apart labelled => ?_) own
    exact (isMarker second).trans (apart ((label? first).symm ▸ labelled))
  have marked : Marked (labelsOf first (rereadLevel actions)) 0 (relistedLevel actions) := by
    intro place _ label
    rw [isLabel, relistedLevel, marksOf_withAction label?]
    rfl
  have relisted := Tidy.relisted (canonical.tidy.of_face faces)
    (labelled_of_marked (solid_relistedLevel actions) before marked)
  rw [← bound] at relisted
  exact relisted

/-- Single pushes of a level that is listed again. -/
theorem splitPushes_relistedLevel (actions : List Action) :
    splitPushes ((relistedLevel actions).map Piece.action) = mapLevels splitPushes actions := by
  have same : ∀ action : Action,
      action.relisted.splitPush = (action.mapInside splitPushes).splitPush := by
    intro action
    cases action with
    | plain instruction =>
      rw [Action.mapInside]
      cases instruction <;> rfl
    | define signature body =>
      rw [Action.mapInside_define]
      rfl
    | marker found =>
      rw [Action.mapInside]
      rfl
  rw [mapLevels_eq, relistedLevel, List.map_map, List.map_map, splitPushes, splitPushes,
    List.flatMap_map, List.flatMap_map]
  exact List.flatMap_congr fun action _ => same action

/-! ### Every level -/

theorem piecesFrom_append (nextLabel : Nat) (front back : List Chunk) :
    piecesFrom nextLabel (front ++ back) =
      ((piecesFrom nextLabel front).1 ++ (piecesFrom (piecesFrom nextLabel front).2 back).1,
        (piecesFrom (piecesFrom nextLabel front).2 back).2) := by
  induction front generalizing nextLabel with
  | nil =>
    rw [List.nil_append, piecesFrom]
    rfl
  | cons chunk front ih =>
    rw [List.cons_append, piecesFrom, piecesFrom, ih]
    rfl

theorem rereadLevel_append (front back : List Action) :
    rereadLevel (front ++ back) = rereadLevel front ++ rereadLevel back := by
  rw [rereadLevel, List.map_append, reals, List.filter_append, List.map_append]
  rfl

mutual

theorem Action.piecesFrom_chunks : ∀ {action : Action} {bytes : List UInt8} {first next : Nat},
    action.image = some bytes → action.CodeHolds Canonical → action.Numbered first next →
      piecesFrom first action.chunks = (rereadLevel [action], next)
  | .plain instruction, bytes, first, next, written, _, numbered => by
    rw [Action.Numbered] at numbered
    have long := Action.length_of_image written
    rw [Action.image] at written
    rw [Action.chunks, written, piecesFrom, Chunk.piece, piecesFrom, Option.getD_some, long,
      numbered]
    rfl
  | .define signature body, bytes, first, next, written, every, numbered => by
    rw [Action.Numbered] at numbered
    obtain ⟨own, count, inner, ours, rfl⟩ := numbered
    rw [Action.CodeHolds] at every
    have long := Action.length_of_image written
    rw [Action.image] at written
    obtain ⟨head, code, isHead, isCode, rfl⟩ := joined_eq_some_iff.mp written
    have ready : EveryLevel Ready body :=
      (everyLevel_sealed_iff.mp ⟨every.1.sealed,
        allCodeHolds_of_imp (fun _ canonical => canonical.sealed) every.2⟩).2
    have same := bytesOf_chunksOf ready isCode
    rw [imageFrom_of_spaced every.1.merged.spaced] at isCode
    obtain ⟨listed, length⟩ := every.1.listed_eq ours
    rw [Action.chunks, isHead, Option.getD_some, same, piecesFrom, Chunk.piece, piecesFrom,
      piecesFrom_chunksOf isCode every.2 inner, length, finished, listed,
      splitPushes_relistedLevel, long]
    rfl
  | .marker found, bytes, first, next, _, _, numbered => by
    rw [Action.Numbered] at numbered
    rw [Action.chunks, piecesFrom, numbered]
    rfl

/-- **The records of a canonical sequence are read as its real actions.** -/
theorem piecesFrom_chunksOf : ∀ {actions : List Action} {bytes : List UInt8} {first next : Nat},
    imageAll actions = some bytes → AllCodeHolds Canonical actions →
      InnerNumbered first actions next →
        piecesFrom first (chunksOf actions) = (rereadLevel actions, next)
  | [], bytes, first, next, _, _, numbered => by
    rw [InnerNumbered] at numbered
    rw [chunksOf, piecesFrom, numbered]
    rfl
  | action :: rest, bytes, first, next, written, every, numbered => by
    rw [imageAll] at written
    obtain ⟨front, back, isFront, isBack, _⟩ := joined_eq_some_iff.mp written
    rw [AllCodeHolds] at every
    rw [InnerNumbered] at numbered
    obtain ⟨middle, here, later⟩ := numbered
    rw [chunksOf, piecesFrom_append, Action.piecesFrom_chunks isFront every.1 here,
      piecesFrom_chunksOf isBack every.2 later, ← rereadLevel_append]
    rfl

end

/-- **What has been written is listed as it was**, with single pushes, if every level is canonical
and labels are numbered in the order of first use. -/
theorem actionsOf_chunksOf {actions : List Action} {bytes : List UInt8} {own count : Nat}
    (every : EveryLevel Canonical actions) (written : imageFrom false actions = some bytes)
    (inner : InnerNumbered 0 actions own) (numbered : NumberedFrom own actions count) :
    actionsOf 0 (chunksOf actions) = mapLevels splitPushes actions := by
  rw [imageFrom_of_spaced every.1.merged.spaced] at written
  rw [actionsOf, piecesFrom_chunksOf written every.2 inner, finished,
    (every.1.listed_eq numbered).1, splitPushes_relistedLevel]

end ActionCode
