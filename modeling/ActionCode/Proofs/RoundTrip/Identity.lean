/-
**A buffer comes back from its listing.**

* `Action.ownForm`, `fuse_of_apart`: where no two pushes are neighbours, joining changes the form of
  a push at most.
* `Refits`: a piece has the room of its action, with the pushes inside merged.
* `WrittenBack`: a piece whose action, with the pushes inside merged, is written as some bytes.
* **`resolved_of_writtenBack`**: a level whose pieces are so is settled as it is, and written as the
  bytes of its records.
* **`assemble_disassembled`**: if pushes are divided, booleans are zero or one and spans nest, a
  listing is assembled to the bytes it was read from.
-/

import ActionCode.Proofs.Counts.Examining
import ActionCode.Proofs.Merging.Keeping
import ActionCode.Proofs.Merging.Shrinking
import ActionCode.Proofs.RoundTrip.Listings

namespace ActionCode

/-! ### Pushes without neighbours -/

/-- A push in the form it has in a merged sequence; other actions stay. -/
def Action.ownForm (action : Action) : Action :=
  if action.pushed = [] then action else pushOf action.pushed

theorem Action.ownForm_of_unpushed {action : Action} (none : action.pushed = []) :
    action.ownForm = action := if_pos none

theorem Action.ownForm_of_pushed {action : Action} (some : action.pushed ≠ []) :
    action.ownForm = pushOf action.pushed := if_neg some

/-- **Where no two pushes are neighbours, none are joined.** -/
theorem fuse_of_apart {actions : List Action} (apart : neighbours actions = 0) :
    fuse actions = actions.map Action.ownForm := by
  induction actions with
  | nil => rfl
  | cons action rest ih =>
    rw [neighbours_cons, Nat.add_eq_zero_iff] at apart
    have later := ih apart.2
    by_cases some : action.pushed = []
    · rw [fuse_unpushed some, later, List.map_cons, Action.ownForm_of_unpushed some]
    · have first : ¬ Pushing (fuse rest) := fun pushing => by
        rw [if_pos ⟨some, pushing_fuse.mp pushing⟩] at apart
        exact absurd apart.1 Nat.one_ne_zero
      rw [fuse_pushed some, List.map_cons, Action.ownForm_of_pushed some, ← later]
      cases fused : fuse rest with
      | nil => exact joinRun_end some
      | cons next others =>
        rw [fused] at first
        exact joinRun_apart some (not_not.mp first) others

/-- A push in another form is written alike. -/
theorem Action.image_ownForm (action : Action) : action.ownForm.image = action.image := by
  by_cases some : action.pushed = []
  · rw [ownForm_of_unpushed some]
  · rw [ownForm_of_pushed some]
    match action, some with
    | .plain (.push value), _ => rfl
    | .plain (.pushList [value]), _ =>
      have layout : (Instruction.pushList [value]).layout = (Instruction.push value).layout :=
        List.append_nil _
      change (Action.plain (.push value)).image = _
      rw [image, image, Instruction.image, Instruction.image, Instruction.head, Instruction.head,
        layout, Instruction.bodyLength_of_layout layout]
      rfl
    | .plain (.pushList (value :: next :: rest)), _ => rfl

theorem imageAll_ownForm (actions : List Action) :
    imageAll (actions.map Action.ownForm) = imageAll actions := by
  induction actions with
  | nil => rfl
  | cons action rest ih => rw [List.map_cons, imageAll, imageAll, Action.image_ownForm, ih]

theorem Action.width_ownForm (action : Action) : action.ownForm.width = action.width := by
  by_cases some : action.pushed = []
  · rw [ownForm_of_unpushed some]
  · rw [ownForm_of_pushed some, width_pushOf some, width_of_pushed some]

/-! ### Actions of a listing, written again -/

/-- An action of a listing as it is written: the pushes inside are merged. -/
def Action.rewritten (action : Action) : Action := (action.mapInside mergeRuns).ownForm

/-- A piece has the room of its action, with the pushes inside merged. -/
def Refits (piece : Piece) : Prop := (piece.action.mapInside mergeRuns).width = piece.bytes

theorem Refits.bindTo {piece : Piece} (refits : Refits piece) (labels : Nat → Option Label)
    (position : Nat) : Refits (piece.bindTo labels position) := by
  obtain same | ⟨branch, isBranch, same⟩ := Action.bindTo_cases labels position piece.action
  · rw [Refits, Piece.bindTo, same]
    exact refits
  · rw [Refits, isBranch, Action.mapInside_plain] at refits
    rw [Refits, Piece.bindTo, same, Action.mapInside_plain]
    exact refits

/-- A piece whose action, with the pushes inside merged, is written as some bytes, and is settled
inside. -/
structure WrittenBack (piece : Piece) (bytes : List UInt8) : Prop where
  image : (piece.action.mapInside mergeRuns).image = some bytes
  length : piece.bytes = bytes.length
  settled : (piece.action.mapInside mergeRuns).CodeHolds Settled

theorem WrittenBack.refits {piece : Piece} {bytes : List UInt8}
    (written : WrittenBack piece bytes) : Refits piece := by
  rw [Refits, ← Action.length_of_image written.image, written.length]

/-- The label of a branch is not written. -/
theorem WrittenBack.bindTo {piece : Piece} {bytes : List UInt8} (written : WrittenBack piece bytes)
    (labels : Nat → Option Label) (position : Nat) :
    WrittenBack (piece.bindTo labels position) bytes := by
  obtain same | ⟨branch, isBranch, same⟩ := Action.bindTo_cases labels position piece.action
  · exact ⟨by rw [Piece.bindTo, same]; exact written.image, written.length,
      by rw [Piece.bindTo, same]; exact written.settled⟩
  · have image := written.image
    rw [isBranch, Action.mapInside_plain] at image
    refine ⟨?_, written.length, ?_⟩
    · rw [Piece.bindTo, same, Action.mapInside_plain]
      exact image
    · rw [Piece.bindTo, same, Action.mapInside_plain, Action.CodeHolds]
      trivial

/-- What is seen of an action besides its code. -/
theorem Action.view_mapInside {β : Type} (view : Action → β)
    (blind : ∀ signature body other, view (.define signature body) = view (.define signature other))
    (pass : List Action → List Action) (action : Action) :
    view (action.mapInside pass) = view action := by
  cases action with
  | plain instruction => rw [mapInside_plain]
  | define signature body =>
    rw [mapInside]
    exact blind signature _ body
  | marker found => rw [mapInside_marker]

/-- What is seen of an action besides its code, if nothing is seen of pushes, is seen as it is
written. -/
theorem Action.view_rewritten {β : Type} {view : Action → Option β}
    (blind : ∀ signature body other, view (.define signature body) = view (.define signature other))
    (unseen : ∀ action, action.pushed ≠ [] → view action = none) (action : Action) :
    view action.rewritten = view action := by
  rw [rewritten, ← view_mapInside view blind mergeRuns action]
  by_cases some : (action.mapInside mergeRuns).pushed = []
  · rw [ownForm_of_unpushed some]
  · rw [ownForm_of_pushed some, unseen _ some, unseen _ (by rw [pushed_pushOf]; exact some)]

theorem Action.label?_rewritten (action : Action) : action.rewritten.label? = action.label? :=
  view_rewritten (fun _ _ _ => rfl) (fun _ some => (unseen_of_pushed some).1) action

theorem Action.branch?_rewritten (action : Action) : action.rewritten.branch? = action.branch? :=
  view_rewritten (fun _ _ _ => rfl) (fun _ some => (unseen_of_pushed some).2.1) action

theorem Action.block?_rewritten (action : Action) : action.rewritten.block? = action.block? :=
  view_rewritten (fun _ _ _ => rfl) (fun _ some => (Action.flat_of_pushed some).block) action

theorem Action.closing?_rewritten (action : Action) :
    action.rewritten.closing? = action.closing? :=
  view_rewritten (fun _ _ _ => rfl) (fun _ some => (Action.flat_of_pushed some).closing) action

theorem Action.isMarker_ownForm (action : Action) :
    action.ownForm.isMarker = action.isMarker := by
  by_cases some : action.pushed = []
  · rw [ownForm_of_unpushed some]
  · rw [ownForm_of_pushed some, (unseen_of_pushed some).2.2.2,
      (unseen_of_pushed (by rw [pushed_pushOf]; exact some)).2.2.2]

theorem Action.rewritten_marker (found : Marker) :
    (Action.marker found).rewritten = .marker found := by
  rw [rewritten, mapInside_marker]
  rfl

theorem Action.codeHolds_ownForm {holds : List Action → Prop} {action : Action}
    (inside : action.CodeHolds holds) : action.ownForm.CodeHolds holds := by
  by_cases some : action.pushed = []
  · rw [ownForm_of_unpushed some]
    exact inside
  · rw [ownForm_of_pushed some]
    unfold ActionCode.pushOf
    split <;> (rw [CodeHolds]; trivial)

/-- A real piece that fits its action is the record of the action as it is written. -/
theorem Refits.alone {piece : Piece} (refits : Refits piece) (real : piece.Real) :
    piece.action.rewritten.alone = piece.withAction Action.rewritten := by
  have isReal : piece.action.rewritten.isMarker = false := by
    rw [Action.rewritten, Action.isMarker_ownForm,
      Action.view_mapInside Action.isMarker fun _ _ _ => rfl, real.real]
  have bytes : piece.action.rewritten.width = piece.bytes := by
    rw [Action.rewritten, Action.width_ownForm, refits]
  have records : piece.action.rewritten.recordCount = piece.records := by
    rw [Action.recordCount, if_neg (by rw [isReal]; exact Bool.false_ne_true), real.records]
  rw [Action.alone, bytes, records]
  rfl

/-! ### One level -/

/-- A level of a listing as it is written, if no records are joined. -/
def rewrittenLevel (nextLabel : Nat) (pieces : List Piece) : List Action :=
  (listed nextLabel pieces).map fun piece => piece.action.rewritten

section

variable {pieces : List Piece} {chunks : List Chunk} {nextLabel : Nat}

/-- A listing without neighbouring pushes is merged as its pieces are. -/
theorem mergePushes_finished
    (apart : neighbours ((listed nextLabel pieces).map Piece.action) = 0) :
    mergePushes (finished nextLabel pieces) = rewrittenLevel nextLabel pieces := by
  have inside : neighbours (((listed nextLabel pieces).map Piece.action).map
      (Action.mapInside mergeRuns)) = 0 := by
    rw [neighbours_map (spares_mapInside mergeRuns).pushed, apart]
  rw [finished, mergePushes_of_splitPushes, fuse_of_apart inside, List.map_map, List.map_map]
  rfl

/-- A level is written in the rooms of its listing. -/
theorem alone_listed (real : AllReal pieces) (fit : AllFit pieces)
    (refits : ∀ piece ∈ pieces, Refits piece) (nextLabel : Nat) :
    (rewrittenLevel nextLabel pieces).map Action.alone =
      (listed nextLabel pieces).map (Piece.withAction Action.rewritten) := by
  rw [rewrittenLevel, List.map_map]
  refine List.map_congr_left (forall_listed _ real fit nextLabel (fun marker => ?_)
    fun piece inside labels position => ?_)
  · change (Action.marker marker).rewritten.alone = (Piece.ofMarker marker).withAction _
    rw [Piece.withAction, Piece.ofMarker, Action.rewritten_marker, Action.alone, Action.width]
    rfl
  · exact ((refits piece inside).bindTo labels position).alone
      ((real piece inside).bindTo labels position)

/-- Pieces that are written again close the blocks that they did. -/
theorem map_face_rewritten (others : List Piece) :
    others.map Piece.face = (others.map (Piece.withAction Action.rewritten)).map Piece.face := by
  rw [List.map_map]
  refine List.map_congr_left fun piece _ => ?_
  change Piece.face piece = Piece.face (piece.withAction Action.rewritten)
  rw [Piece.face, Piece.face, Piece.withAction, Action.block?_rewritten,
    Action.closing?_rewritten]

/-- Branches that go where their labels are do so when the pieces are written again. -/
theorem Aimed.rewritten {others : List Piece} (aimed : Aimed others) :
    Aimed (others.map (Piece.withAction Action.rewritten)) := by
  have labels : labelMarks (others.map (Piece.withAction Action.rewritten)) = labelMarks others :=
    marksOf_withAction Action.label?_rewritten 0 others
  have branches : branchMarks (others.map (Piece.withAction Action.rewritten)) =
      branchMarks others := marksOf_withAction Action.branch?_rewritten 0 others
  constructor
  · rw [labels]
    exact aimed.once
  · rw [labels, branches]
    exact aimed.hits

/-- **A level whose pieces fit their actions is settled as it is.** -/
theorem settled_rewrittenLevel (real : AllReal pieces) (finishable : Finishable pieces)
    (nested : Nested 0 (layout pieces)) (spaced : Spaced (rewrittenLevel nextLabel pieces))
    (refits : ∀ piece ∈ pieces, Refits piece) : Settled (rewrittenLevel nextLabel pieces) := by
  have rooms := (Extent.pieces_start spaced).trans (alone_listed real finishable.fit refits _)
  constructor
  · rw [rooms]
    exact (aimed_listed real finishable nextLabel).rewritten
  · have closes := ((tidy_listed real finishable.fit nested nextLabel).of_face
      (map_face_rewritten _)).closes
    rw [List.map_map] at closes
    rw [Measured, rooms]
    exact closes

/-- The bytes of a level are those of its real actions. -/
theorem imageAll_reals {others : List Piece} :
    imageAll ((reals others).map fun piece => piece.action.mapInside mergeRuns) =
      imageAll (others.map fun piece => piece.action.mapInside mergeRuns) := by
  induction others with
  | nil => rfl
  | cons piece rest ih =>
    cases isMarker : piece.action.isMarker with
    | false => rw [reals_cons isMarker, List.map_cons, List.map_cons, imageAll, imageAll, ih]
    | true =>
      obtain ⟨marker, same⟩ : ∃ marker, piece.action = .marker marker := by
        cases action : piece.action with
        | marker marker => exact ⟨marker, rfl⟩
        | _ => rw [action] at isMarker; cases isMarker
      rw [reals, List.filter_cons_of_neg (by rw [isMarker]; exact Bool.false_ne_true), ← reals, ih,
        List.map_cons, imageAll, same, Action.mapInside_marker, Action.image, joined_nil_some]

/-- Bound pieces are written as the records that they were read from. -/
theorem imageAll_bindFrom (labels : Nat → Option Label) (position : Nat)
    (written : List.Forall₂ (fun piece chunk => WrittenBack piece chunk.bytes) pieces chunks) :
    imageAll ((bindFrom labels position pieces).map fun piece =>
      piece.action.mapInside mergeRuns) = some (bytesOf chunks) := by
  induction written generalizing position with
  | nil => rfl
  | @cons piece chunk pieces chunks first _ ih =>
    rw [bindFrom, List.map_cons, imageAll, ih]
    have image := (first.bindTo labels position).image
    rw [Piece.bindTo] at image
    rw [image, bytesOf_cons]
    rfl

/-- **A level whose pieces are written back is written as the bytes of its records.** -/
theorem image_rewrittenLevel (real : AllReal pieces) (fit : AllFit pieces)
    (spaced : Spaced (rewrittenLevel nextLabel pieces))
    (written : List.Forall₂ (fun piece chunk => WrittenBack piece chunk.bytes) pieces chunks) :
    imageFrom false (rewrittenLevel nextLabel pieces) = some (bytesOf chunks) := by
  have forms : rewrittenLevel nextLabel pieces = ((listed nextLabel pieces).map fun piece =>
      piece.action.mapInside mergeRuns).map Action.ownForm := by
    rw [List.map_map]
    rfl
  rw [imageFrom_of_spaced spaced, forms, imageAll_ownForm, ← imageAll_reals,
    reals_listed real fit, imageAll_bindFrom _ _ written]

/-- All code inside a level is settled. -/
theorem codeHolds_rewrittenLevel (real : AllReal pieces) (fit : AllFit pieces)
    (written : ∀ piece ∈ pieces, ∃ bytes, WrittenBack piece bytes) :
    AllCodeHolds Settled (rewrittenLevel nextLabel pieces) := by
  have every := forall_listed (fun piece => piece.action.rewritten.CodeHolds Settled) real fit
    nextLabel ?_ ?_
  · refine allCodeHolds_iff.mpr fun signature body inside => ?_
    obtain ⟨piece, isPiece, same⟩ := List.mem_map.mp inside
    have holds := every piece isPiece
    rw [same, Action.CodeHolds] at holds
    exact holds
  · intro marker
    change (Action.marker marker).rewritten.CodeHolds Settled
    rw [Action.rewritten_marker, Action.CodeHolds]
    trivial
  · intro piece inside labels position
    obtain ⟨bytes, isBytes⟩ := written piece inside
    exact Action.codeHolds_ownForm (isBytes.bindTo labels position).settled

end

/-! ### Every level -/

/-- Records whose listing is written as they are: pushes are divided, booleans are zero or one, and
spans nest. -/
structure Verbatim (chunks : List Chunk) : Prop where
  divided : PushesDivided chunks
  booleans : BooleansTidy chunks
  nest : SpansNest chunks

/-- **A level whose pieces are written back is resolved as it is**, and written as the bytes of its
records. -/
theorem resolved_of_writtenBack {pieces : List Piece} {chunks : List Chunk} {nextLabel : Nat}
    (real : AllReal pieces) (finishable : Finishable pieces) (nested : Nested 0 (layout pieces))
    (apart : ownJoins pieces = 0)
    (written : List.Forall₂ (fun piece chunk => WrittenBack piece chunk.bytes) pieces chunks) :
    EveryLevel Settled (mergePushes (finished nextLabel pieces)) ∧
      imageFrom false (mergePushes (finished nextLabel pieces)) = some (bytesOf chunks) := by
  have every : ∀ piece ∈ pieces, ∃ bytes, WrittenBack piece bytes := fun piece inside => by
    obtain ⟨chunk, _, isBytes⟩ := exists_of_forall₂ written inside
    exact ⟨chunk.bytes, isBytes⟩
  have merged : mergePushes (finished nextLabel pieces) = rewrittenLevel nextLabel pieces :=
    mergePushes_finished ((joins_listed real finishable nested nextLabel).trans apart)
  have spaced : Spaced (rewrittenLevel nextLabel pieces) := by
    rw [← merged, finished, mergePushes_of_splitPushes]
    exact (merged_fuse _).spaced
  rw [merged]
  have refits : ∀ piece ∈ pieces, Refits piece := fun piece inside => by
    obtain ⟨bytes, isBytes⟩ := every piece inside
    exact isBytes.refits
  exact ⟨⟨settled_rewrittenLevel real finishable nested spaced refits,
    codeHolds_rewrittenLevel real finishable.fit every⟩,
    image_rewrittenLevel real finishable.fit spaced written⟩

/-- An instruction is written as it was spelled, if its booleans are zero or one. -/
theorem Instruction.SpelledBy.writtenBack {instruction : Instruction} {bytes : List UInt8}
    (spelled : instruction.SpelledBy bytes) (booleans : ∀ values,
      instruction = .pushList values → ∀ byte ∈ booleanOperands (bytes.drop ActionCode.headWidth),
        byte = 0 ∨ byte = 1) :
    WrittenBack ⟨.plain instruction, bytes.length, 1⟩ bytes := by
  obtain ⟨image, written, _, same⟩ := spelled.image
  refine ⟨?_, rfl, ?_⟩
  · rw [Action.mapInside_plain, Action.image, written, same booleans]
  · rw [Action.mapInside_plain, Action.CodeHolds]
    trivial

/-- **The pieces of records are written back as their bytes.** -/
theorem Level.writtenBack {room nextLabel : Nat} {chunks : List Chunk}
    (level : Level room nextLabel chunks) (every : AllCode Verbatim chunks)
    (booleans : BooleansTidy chunks) :
    List.Forall₂ (fun piece chunk => WrittenBack piece chunk.bytes)
      (piecesFrom nextLabel chunks).1 chunks := by
  have whole : ∀ {nextLabel : Nat} {chunks : List Chunk}, AllCode Verbatim chunks →
      BooleansTidy chunks → List.Forall₂ (fun piece chunk => chunk.CodeHolds Verbatim →
        (∀ byte ∈ chunk.booleans, byte = 0 ∨ byte = 1) → WrittenBack piece chunk.bytes)
          (piecesFrom nextLabel chunks).1 chunks →
        List.Forall₂ (fun piece chunk => WrittenBack piece chunk.bytes)
          (piecesFrom nextLabel chunks).1 chunks := fun every booleans inner =>
    forall₂_of_mem inner fun _ chunk inside written =>
      written (allCode_iff.mp every chunk inside) (booleans chunk inside)
  have inherited : Inherited fun _ piece chunk => chunk.CodeHolds Verbatim →
      (∀ byte ∈ chunk.booleans, byte = 0 ∨ byte = 1) → WrittenBack piece chunk.bytes :=
    { instruction := fun spelled _ booleans => spelled.writtenBack fun values isPush => by
        subst isPush
        exact booleans
      definition := @fun _ nextLabel signature front code _ declared level inner every _ => by
        rw [Chunk.CodeHolds] at every
        have apart : ownJoins (piecesFrom nextLabel code).1 = 0 := by
          rw [ownJoins_piecesFrom]
          exact pushesDivided_iff.mp every.1.divided
        obtain ⟨settled, written⟩ := resolved_of_writtenBack level.real level.finishable
          (every.1.nest.nested _) apart (whole every.2 every.1.booleans inner)
        refine ⟨?_, rfl, ?_⟩
        · rw [Action.mapInside_define, Action.image, ← mergePushes, actionsOf, written,
            length_of_sequence written, declared]
          rfl
        · rw [Action.mapInside_define, Action.CodeHolds]
          exact settled }
  exact whole every booleans (inherited.forall₂ level.formed level.sound)

mutual

theorem Chunk.codeHolds_verbatim : ∀ {chunk : Chunk}, chunk.CodeHolds PushesDivided →
    chunk.CodeHolds BooleansTidy → chunk.CodeHolds SpansNest → chunk.CodeHolds Verbatim
  | .instruction _ _, _, _, _ => by
    rw [Chunk.CodeHolds]
    trivial
  | .definition _ _ code, divided, booleans, nest => by
    rw [Chunk.CodeHolds] at divided booleans nest ⊢
    exact ⟨⟨divided.1, booleans.1, nest.1⟩, allCode_verbatim divided.2 booleans.2 nest.2⟩

theorem allCode_verbatim : ∀ {chunks : List Chunk}, AllCode PushesDivided chunks →
    AllCode BooleansTidy chunks → AllCode SpansNest chunks → AllCode Verbatim chunks
  | [], _, _, _ => by
    rw [AllCode]
    trivial
  | chunk :: rest, divided, booleans, nest => by
    rw [AllCode] at divided booleans nest ⊢
    exact ⟨Chunk.codeHolds_verbatim divided.1 booleans.1 nest.1,
      allCode_verbatim divided.2 booleans.2 nest.2⟩

end

/-- **A buffer comes back from its listing, byte for byte**, if neighbouring records of pushes are
divided, boolean operands are zero or one and spans nest, at every level. -/
theorem assemble_disassembled {disassembly : DisassemblySettings} {assembly : AssemblySettings}
    {bytes : List UInt8} {actions : List Action}
    (success : (disassemble disassembly bytes).result = .ok actions)
    (deep : disassembly.maxDepth ≤ assembly.maxDepth)
    (divided : EveryCode PushesDivided (chunks disassembly.maxDepth bytes))
    (booleans : EveryCode BooleansTidy (chunks disassembly.maxDepth bytes))
    (nest : EveryCode SpansNest (chunks disassembly.maxDepth bytes)) :
    (assemble assembly actions).result = .ok bytes := by
  obtain ⟨accepted, rfl⟩ := disassemble_ok success
  have real := real_piecesFrom (fun _ _ spelled => spelled.length_pos) accepted.formed 0
  have apart : ownJoins (piecesFrom 0 (chunks disassembly.maxDepth bytes)).1 = 0 := by
    rw [ownJoins_piecesFrom]
    exact pushesDivided_iff.mp divided.1
  obtain ⟨settled, written⟩ := resolved_of_writtenBack real accepted.finishable
    (nest.1.nested 0) apart (accepted.level.writtenBack
      (allCode_verbatim divided.2 booleans.2 nest.2) booleans.1)
  rw [accepted.whole] at written
  rw [assemble_examined]
  exact assemble_ok_iff.mpr ⟨_,
    resolve_ok_iff.mpr ⟨accepted.nesting_le.trans deep, rfl, settled⟩, written⟩

/-- A branch out of a scope, to a push. -/
theorem assemble_disassembled_branch_and_scope :
    (assemble {} [.plain (.branch ⟨false, 6, some ⟨0⟩⟩), .plain (.block (.scope 1)),
        .plain (.basic .play), .marker .endWith, .marker (.label ⟨0⟩),
        .plain (.push (.boolean true))]).result =
      .ok [0x99, 2, 0, 6, 0, 0x94, 2, 0, 1, 0, 0x06, 0x96, 2, 0, 5, 1] :=
  @assemble_disassembled .raw {} _ _ (by decide +kernel) (Nat.le_refl _) (by decide +kernel)
    (by decide +kernel) (by decide +kernel)

end ActionCode
