/-
**Blocks keep their spans exactly if these nest.**

* `PushesApart`: no two records of pushes are neighbours.
* **`measured_rewrittenLevel_iff`**: then the closings of a level are those of its sizes exactly if
  its spans nest.
* **`measureBlocks_disassembled_iff`**: so it is at every level. **Spans that cross are exchanged**,
  since a closing marker ends the innermost open block.
-/

import ActionCode.Proofs.RoundTrip.Coalescing

namespace ActionCode

/-! ### Records of pushes that are apart -/

/-- No two records of pushes are neighbours. -/
def PushesApart (chunks : List Chunk) : Prop :=
  (shells chunks).IsChain fun first second => first.action.pushed = [] ∨ second.action.pushed = []

instance : DecidablePred PushesApart := fun chunks =>
  inferInstanceAs (Decidable ((shells chunks).IsChain fun first second =>
    first.action.pushed = [] ∨ second.action.pushed = []))

/-- Markers and labels bring no pushes together. -/
theorem neighbours_eq_zero {pieces : List Piece}
    (apart : (reals pieces).IsChain fun first second =>
      first.action.pushed = [] ∨ second.action.pushed = []) :
    neighbours (pieces.map Piece.action) = 0 := by
  induction pieces with
  | nil => rfl
  | cons piece rest ih =>
    cases isMarker : piece.action.isMarker with
    | true =>
      have unpushed : piece.action.pushed = [] := by
        by_contra some
        rw [(Action.unseen_of_pushed some).2.2.2] at isMarker
        cases isMarker
      rw [reals, List.filter_cons_of_neg (by rw [isMarker]; exact Bool.false_ne_true),
        ← reals] at apart
      rw [List.map_cons, neighbours_unpushed unpushed, ih apart]
    | false =>
      rw [reals_cons isMarker] at apart
      have later := ih apart.tail
      rw [List.map_cons, neighbours_cons, later, Nat.add_zero, if_neg]
      rintro ⟨some, pushing⟩
      cases rest with
      | nil => exact pushing
      | cons next others =>
        have real : next.action.isMarker = false := (Action.unseen_of_pushed pushing).2.2.2
        rw [reals_cons real] at apart
        obtain none | none := (List.isChain_cons_cons.mp apart).1
        · exact some none
        · exact pushing none

/-! ### One level -/

section

variable {room nextLabel : Nat} {chunks : List Chunk} {pieces : List Piece}

theorem PushesApart.neighbours_listed (apart : PushesApart chunks)
    (level : Level room nextLabel chunks) (first : Nat) :
    neighbours ((listed first (piecesFrom nextLabel chunks).1).map Piece.action) = 0 := by
  have view : ∀ {pieces others : List Piece}, List.Forall₂ (fun piece other =>
      piece.action.pushed = other.action.pushed) pieces others →
        pieces.map (fun piece => piece.action.pushed) =
          others.map fun piece => piece.action.pushed := by
    intro pieces others alike
    induction alike with
    | nil => rfl
    | cons here _ ih => rw [List.map_cons, List.map_cons, here, ih]
  have bound := view ((forall₂_bindFrom (labelsOf first (piecesFrom nextLabel chunks).1) 0
    (piecesFrom nextLabel chunks).1).imp fun _ _ both => both.1)
  have shell := view ((shells_piecesFrom nextLabel chunks).imp fun _ _ alike => alike.pushed)
  have chain := (List.isChain_map (R := fun first second => first = [] ∨ second = [])
    fun piece : Piece => piece.action.pushed).mpr apart
  rw [← shell, ← bound, ← reals_listed level.real level.finishable.fit] at chain
  exact neighbours_eq_zero ((List.isChain_map fun piece : Piece => piece.action.pushed).mp chain)

theorem sum_bytes_reals {others : List Piece} (solid : AllSolid others) :
    ((reals others).map Piece.bytes).sum = (others.map Piece.bytes).sum := by
  induction others with
  | nil => rfl
  | cons piece rest ih =>
    obtain ⟨marker, rfl⟩ | real := solid.head
    · rw [reals_ofMarker, List.map_cons, List.sum_cons, ih solid.tail]
      exact (Nat.zero_add _).symm
    · rw [reals_cons real.real, List.map_cons, List.map_cons, List.sum_cons, List.sum_cons,
        ih solid.tail]

/-- The bytes of a listing are those of its pieces. -/
theorem sum_bytes_listed (real : AllReal pieces) (fit : AllFit pieces) (nextLabel : Nat) :
    ((listed nextLabel pieces).map Piece.bytes).sum = (pieces.map Piece.bytes).sum := by
  rw [← sum_bytes_reals (labelled_listed real fit nextLabel).solid, reals_listed real fit]
  exact congrArg List.sum (map_room_bindFrom _ 0 .endWith pieces)

theorem Action.isMarker_rewritten (action : Action) :
    action.rewritten.isMarker = action.isMarker := by
  rw [rewritten, isMarker_ownForm, view_mapInside isMarker fun _ _ _ => rfl]

/-- The blocks of a level are those of its pieces, and take the same room. -/
theorem layout_rewritten (real : AllReal pieces) (fit : AllFit pieces) (nextLabel : Nat) :
    layout (reals ((listed nextLabel pieces).map (Piece.withAction Action.rewritten))) =
      layout pieces := by
  have past : ∀ others : List Piece,
      reals (others.map (Piece.withAction Action.rewritten)) =
        (reals others).map (Piece.withAction Action.rewritten) := by
    intro others
    rw [reals, List.filter_map]
    refine congrArg (List.map _) (List.filter_congr fun piece _ => ?_)
    exact congrArg not (Action.isMarker_rewritten piece.action)
  rw [past, reals_listed real fit, layout, List.map_map]
  refine Eq.trans ?_ (layout_bindFrom (labelsOf nextLabel pieces) 0 pieces)
  exact List.map_congr_left fun piece _ =>
    congrArg (·, piece.bytes) (Action.block?_rewritten piece.action)

/-- **The closings of a level are those of its sizes exactly if its spans nest.** -/
theorem measured_rewrittenLevel_iff (real : AllReal pieces) (finishable : Finishable pieces)
    (refits : ∀ piece ∈ pieces, Refits piece) (spaced : Spaced (rewrittenLevel nextLabel pieces)) :
    Measured (rewrittenLevel nextLabel pieces) ↔ Nested 0 (layout pieces) := by
  refine ⟨fun measured => ?_,
    fun nested => (settled_rewrittenLevel real finishable nested spaced refits).2⟩
  have rooms := alone_listed real finishable.fit refits nextLabel
  rw [Measured, Extent.pieces_start spaced, rooms] at measured
  have solid : AllSolid ((listed nextLabel pieces).map (Piece.withAction Action.rewritten)) := by
    rw [← rooms]
    exact solid_map_alone _
  have nested := (measured.nested solid (by rw [List.map_map]; rfl)).2
  rw [layout_rewritten real finishable.fit] at nested
  exact nested

/-- A level without neighbouring pushes is merged as its pieces are. -/
theorem PushesApart.mergePushes_eq (apart : PushesApart chunks)
    (level : Level room nextLabel chunks) :
    mergePushes (actionsOf nextLabel chunks) =
        rewrittenLevel (piecesFrom nextLabel chunks).2 (piecesFrom nextLabel chunks).1 ∧
      Spaced (rewrittenLevel (piecesFrom nextLabel chunks).2 (piecesFrom nextLabel chunks).1) := by
  have same : mergePushes (actionsOf nextLabel chunks) = rewrittenLevel _ _ :=
    mergePushes_finished (apart.neighbours_listed level _)
  refine ⟨same, ?_⟩
  rw [← same, actionsOf, finished, mergePushes_of_splitPushes]
  exact (merged_fuse _).spaced

theorem map_bytes_piecesFrom (nextLabel : Nat) (chunks : List Chunk) :
    (piecesFrom nextLabel chunks).1.map Piece.bytes =
      chunks.map fun chunk => chunk.bytes.length := by
  have same := congrArg (List.map fun outline => outline.2.2.1)
    (map_outline_of_alike (shells_piecesFrom nextLabel chunks))
  rw [List.map_map, List.map_map, shells, List.map_map] at same
  exact same

/-- A level without neighbouring pushes takes the bytes that it was read from. -/
theorem PushesApart.encodedLength_eq (apart : PushesApart chunks)
    (level : Level room nextLabel chunks)
    (refits : ∀ piece ∈ (piecesFrom nextLabel chunks).1, Refits piece) :
    encodedLength (mergePushes (actionsOf nextLabel chunks)) = (bytesOf chunks).length := by
  obtain ⟨same, spaced⟩ := apart.mergePushes_eq level
  have rooms := congrArg (List.map Piece.bytes)
    (alone_listed level.real level.finishable.fit refits (piecesFrom nextLabel chunks).2)
  rw [List.map_map, List.map_map] at rooms
  rw [same, encodedLength_of_spaced spaced, bytesOf, List.length_flatMap,
    ← map_bytes_piecesFrom nextLabel chunks,
    ← sum_bytes_listed level.real level.finishable.fit (piecesFrom nextLabel chunks).2]
  exact congrArg List.sum rooms

end

/-! ### Every level -/

/-- Without neighbouring pushes, pieces have the room of their actions. -/
theorem Level.refits {room nextLabel : Nat} {chunks : List Chunk} (level : Level room nextLabel chunks)
    (apart : AllCode PushesApart chunks) :
    ∀ piece ∈ (piecesFrom nextLabel chunks).1, Refits piece := by
  have whole : ∀ {nextLabel : Nat} {chunks : List Chunk}, AllCode PushesApart chunks →
      List.Forall₂ (fun piece chunk => chunk.CodeHolds PushesApart → Refits piece)
        (piecesFrom nextLabel chunks).1 chunks →
          ∀ piece ∈ (piecesFrom nextLabel chunks).1, Refits piece := fun apart inner =>
    forall_of_forall₂ (forall₂_of_mem inner fun _ chunk inside refits =>
      refits (allCode_iff.mp apart chunk inside))
  have inherited : Inherited fun _ piece chunk => chunk.CodeHolds PushesApart → Refits piece :=
    { instruction := fun spelled _ => by
        obtain ⟨image, written, long, _⟩ := spelled.image
        rw [Refits, Action.mapInside_plain]
        exact (Instruction.length_of_image written).symm.trans long
      definition := fun _ declared level inner apart => by
        rw [Chunk.CodeHolds] at apart
        have length := apart.1.encodedLength_eq level (whole apart.2 inner)
        rw [encodedLength] at length
        rw [Refits, Action.mapInside_define, Action.width, ← mergePushes, length,
          ← Signature.length_of_image declared]
        exact List.length_append.symm }
  exact whole apart (inherited.forall₂ level.formed level.sound)

/-- What holds inside a level that is written again holds inside its pieces. -/
theorem allCodeHolds_rewrittenLevel_iff {holds : List Action → Prop} {pieces : List Piece}
    {nextLabel : Nat} (real : AllReal pieces) (fit : AllFit pieces) :
    AllCodeHolds holds (rewrittenLevel nextLabel pieces) ↔
      ∀ piece ∈ pieces, (piece.action.mapInside mergeRuns).CodeHolds holds := by
  have view : ∀ action : Action,
      action.rewritten.body? = (action.mapInside mergeRuns).body? := by
    intro action
    rw [Action.rewritten]
    by_cases some : (action.mapInside mergeRuns).pushed = []
    · rw [Action.ownForm_of_unpushed some]
    · rw [Action.ownForm_of_pushed some, (Action.unseen_of_pushed some).2.2.1,
        (Action.unseen_of_pushed (by rw [pushed_pushOf]; exact some)).2.2.1]
  have bound : ∀ (action : Action) labels position,
      (action.bindTo labels position).rewritten.body? = action.rewritten.body? := by
    intro action labels position
    obtain same | ⟨branch, rfl, same⟩ := Action.bindTo_cases labels position action
    · rw [same]
    · rw [same, view, view, Action.mapInside_plain, Action.mapInside_plain]
      rfl
  have bodies : bodiesOf (rewrittenLevel nextLabel pieces) =
      pieces.filterMap fun piece => piece.action.rewritten.body? := by
    rw [bodiesOf, rewrittenLevel, List.filterMap_map]
    exact @filterMap_listed _ _ (fun action => action.rewritten.body?) real fit nextLabel
      (fun marker => by rw [Action.rewritten_marker]; rfl) bound
  rw [allCodeHolds_iff_bodies, bodies]
  constructor
  · intro every piece inside
    refine Action.codeHolds_iff.mpr fun body isBody => every body ?_
    exact List.mem_filterMap.mpr ⟨piece, inside, (view _).trans isBody⟩
  · intro every body isBody
    obtain ⟨piece, inside, isBody⟩ := List.mem_filterMap.mp isBody
    exact Action.codeHolds_iff.mp (every piece inside) body ((view _).symm.trans isBody)

/-- The closings of a listing are those of its sizes exactly if its spans nest, if this is so in the
code inside. -/
theorem Level.measured_iff {room nextLabel : Nat} {chunks : List Chunk}
    (level : Level room nextLabel chunks) (apart : EveryCode PushesApart chunks)
    (inner : List.Forall₂ (fun piece chunk => chunk.CodeHolds PushesApart →
      ((piece.action.mapInside mergeRuns).CodeHolds Measured ↔ chunk.CodeHolds SpansNest))
        (piecesFrom nextLabel chunks).1 chunks) :
    EveryLevel Measured (mergePushes (actionsOf nextLabel chunks)) ↔ EveryCode SpansNest chunks := by
  obtain ⟨same, spaced⟩ := apart.1.mergePushes_eq level
  have outlines := layout_of_outline (map_outline_of_alike (shells_piecesFrom nextLabel chunks))
  rw [same]
  refine and_congr ?_ ?_
  · rw [measured_rewrittenLevel_iff level.real level.finishable (level.refits apart.2) spaced,
      outlines]
    rfl
  · rw [allCodeHolds_rewrittenLevel_iff level.real level.finishable.fit, allCode_iff]
    exact forall_iff_of_forall₂ (forall₂_of_mem inner fun _ chunk inside measured =>
      measured (allCode_iff.mp apart.2 chunk inside))

/-- **The closings of a listing are those of its sizes exactly if its spans nest**, at every
level. -/
theorem everyLevel_measured_iff {chunks : List Chunk} {room nextLabel : Nat}
    (level : Level room nextLabel chunks) (apart : EveryCode PushesApart chunks) :
    EveryLevel Measured (mergePushes (actionsOf nextLabel chunks)) ↔ EveryCode SpansNest chunks := by
  have inherited : Inherited fun _ piece chunk => chunk.CodeHolds PushesApart →
      ((piece.action.mapInside mergeRuns).CodeHolds Measured ↔ chunk.CodeHolds SpansNest) :=
    { instruction := fun _ _ => by
        rw [Action.mapInside_plain, Chunk.CodeHolds]
        exact iff_of_true (Action.codeHolds_plain _) trivial
      definition := fun _ _ level inner apart => by
        rw [Chunk.CodeHolds] at apart
        rw [Action.mapInside_define, Action.CodeHolds, Chunk.CodeHolds, ← mergePushes]
        exact level.measured_iff apart inner }
  exact level.measured_iff apart (inherited.forall₂ level.formed level.sound)

/-- **Measuring the blocks of a listing changes nothing exactly if all spans nest**, for a buffer in
which no two records of pushes are neighbours. -/
theorem measureBlocks_disassembled_iff {settings : DisassemblySettings} {bytes : List UInt8}
    {actions : List Action} (raw : settings.examineStack = false)
    (success : (disassemble settings bytes).result = .ok actions)
    (apart : EveryCode PushesApart (chunks settings.maxDepth bytes)) :
    measureBlocks (mergePushes actions) = .ok (mergePushes actions) ↔
      EveryCode SpansNest (chunks settings.maxDepth bytes) := by
  obtain ⟨accepted, rfl⟩ := disassemble_ok success
  have plain : settings.examined (plainActions settings.maxDepth bytes) =
      plainActions settings.maxDepth bytes := by
    rw [DisassemblySettings.examined, raw]
    rfl
  rw [plain, measureBlocks_ok_iff]
  exact (and_iff_right rfl).trans (everyLevel_measured_iff accepted.level apart)

/-- A scope inside a scope. -/
theorem measureBlocks_disassembled_scopes :
    measureBlocks (mergePushes [.plain (.block (.scope 6)), .plain (.block (.scope 1)),
        .plain (.basic .play), .marker .endWith, .marker .endWith]) =
      .ok (mergePushes [.plain (.block (.scope 6)), .plain (.block (.scope 1)),
        .plain (.basic .play), .marker .endWith, .marker .endWith]) ↔
    EveryCode SpansNest (chunks defaultMaxDepth [0x94, 2, 0, 6, 0, 0x94, 2, 0, 1, 0, 0x06]) :=
  @measureBlocks_disassembled_iff .raw _ _ rfl (by decide +kernel) (by decide +kernel)

/-- **Scopes that cross are exchanged.** The inner one ends after the outer one, but its closing
marker is listed behind the other, which then closes it. -/
theorem crossing_scopes_exchanged :
    (disassemble .raw [0x94, 2, 0, 6, 0, 0x94, 2, 0, 3, 0, 0x06, 0x06, 0x06]).result =
      .ok [.plain (.block (.scope 6)), .plain (.block (.scope 3)), .plain (.basic .play),
        .marker .endWith, .plain (.basic .play), .plain (.basic .play), .marker .endWith] ∧
    EveryCode PushesApart
      (chunks defaultMaxDepth [0x94, 2, 0, 6, 0, 0x94, 2, 0, 3, 0, 0x06, 0x06, 0x06]) ∧
    measureBlocks [.plain (.block (.scope 6)), .plain (.block (.scope 3)), .plain (.basic .play),
        .marker .endWith, .plain (.basic .play), .plain (.basic .play), .marker .endWith] =
      .ok [.plain (.block (.scope 8)), .plain (.block (.scope 1)), .plain (.basic .play),
        .marker .endWith, .plain (.basic .play), .plain (.basic .play), .marker .endWith] := by
  decide +kernel

end ActionCode
