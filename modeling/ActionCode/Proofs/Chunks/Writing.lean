/-
**The records that a settled sequence is written as.**

* `chunksOf`: the records of a sequence; **`formed_chunksOf`**: its image is their bytes.
* `Piece.outline`: what it takes to finish a sequence.
* **`Settled.finishable`**: the records of a settled sequence can be finished.
* **`disassemble_of_sealed`**: the bytes of a sequence that is settled at every level are
  disassembled, into the listing of its records.
-/

import ActionCode.Proofs.Bytes.Canon
import ActionCode.Proofs.Merging.Records
import ActionCode.Proofs.Chunks.Grammar
import ActionCode.Proofs.Labels.Listing
import ActionCode.Proofs.Levels.Settling

namespace ActionCode

/-! ### Records of actions -/

mutual

/-- The record of an action; markers have none. -/
def Action.chunks : Action → List Chunk
  | .plain instruction => [.instruction instruction.canon (instruction.image.getD [])]
  | .define signature body =>
    [.definition signature ((signature.image (encodedLength body)).getD [] ++
      bytesOf (chunksOf body)) (chunksOf body)]
  | .marker _ => []

/-- The records of a sequence. -/
def chunksOf : List Action → List Chunk
  | [] => []
  | action :: rest => action.chunks ++ chunksOf rest

end

/-- Instructions of one level can be read back, and no branch lacks a label. -/
structure Instruction.Ready (instruction : Instruction) : Prop where
  readable : instruction.Readable
  labelled : ∀ branch, instruction = .branch branch → branch.label ≠ none

/-- A level whose pushes are merged and whose instructions are ready. -/
structure Ready (actions : List Action) : Prop where
  spaced : Spaced actions
  ready : ∀ instruction, .plain instruction ∈ actions → instruction.Ready

theorem bytesOf_append (front back : List Chunk) :
    bytesOf (front ++ back) = bytesOf front ++ bytesOf back := List.flatMap_append

theorem allFormed_append {spells : Instruction → List UInt8 → Prop} {room : Nat}
    {front back : List Chunk} (formed : AllFormed spells room front)
    (formed' : AllFormed spells room back) : AllFormed spells room (front ++ back) := by
  induction front with
  | nil => exact formed'
  | cons chunk rest ih =>
    rw [AllFormed] at formed
    rw [List.cons_append, AllFormed]
    exact ⟨formed.1, ih formed.2⟩

mutual

theorem Action.formed_chunks : ∀ {action : Action} {bytes : List UInt8} {room : Nat},
    action.image = some bytes → action.CodeHolds Ready →
      (∀ instruction, action = .plain instruction → instruction.Ready) → action.nesting ≤ room →
        AllFormed Instruction.WrittenAs room action.chunks ∧ bytesOf action.chunks = bytes
  | .plain instruction, bytes, room, written, _, ready, _ => by
    rw [Action.image] at written
    rw [Action.chunks, written, AllFormed, Chunk.Formed, AllFormed]
    refine ⟨⟨⟨(ready instruction rfl).readable.canon, instruction.canon_canon, ?_⟩, trivial⟩, ?_⟩
    · rw [Instruction.image_canon]
      exact written
    · exact List.append_nil bytes
  | .define signature body, bytes, room, written, codeHolds, _, shallow => by
    rw [Action.image] at written
    obtain ⟨front, code, isFront, isCode, rfl⟩ := joined_eq_some_iff.mp written
    rw [Action.CodeHolds] at codeHolds
    rw [Action.nesting] at shallow
    have deep : nestingFrom 0 body ≤ room - 1 := by omega
    have isCode' := isCode
    rw [imageFrom_of_spaced codeHolds.1.spaced] at isCode'
    obtain ⟨formed, same⟩ := formed_chunksOf isCode' codeHolds.2 codeHolds.1.ready
      (nestingFrom_le_iff.mp deep).2
    rw [Action.chunks, isFront, same, AllFormed, Chunk.Formed, AllFormed, same]
    refine ⟨⟨⟨by omega, ⟨front, ?_, rfl⟩, formed⟩, trivial⟩, ?_⟩
    · rw [← length_of_sequence isCode]
      exact isFront
    · exact List.append_nil _
  | .marker marker, bytes, room, written, _, _, _ => by
    rw [Action.image] at written
    cases written
    rw [Action.chunks, AllFormed]
    exact ⟨trivial, rfl⟩

/-- **The image of a sequence is the bytes of its records.** -/
theorem formed_chunksOf : ∀ {actions : List Action} {bytes : List UInt8} {room : Nat},
    imageAll actions = some bytes → AllCodeHolds Ready actions →
      (∀ instruction, .plain instruction ∈ actions → instruction.Ready) →
        (∀ action ∈ actions, action.nesting ≤ room) →
          AllFormed Instruction.WrittenAs room (chunksOf actions) ∧
            bytesOf (chunksOf actions) = bytes
  | [], bytes, room, written, _, _, _ => by
    rw [imageAll] at written
    cases written
    rw [chunksOf, AllFormed]
    exact ⟨trivial, rfl⟩
  | action :: rest, bytes, room, written, codeHolds, ready, shallow => by
    rw [imageAll] at written
    obtain ⟨front, back, isFront, isBack, rfl⟩ := joined_eq_some_iff.mp written
    rw [AllCodeHolds] at codeHolds
    obtain ⟨formed, same⟩ := Action.formed_chunks isFront codeHolds.1
      (fun instruction equal => ready instruction (by rw [equal]; exact List.mem_cons_self))
      (shallow action List.mem_cons_self)
    obtain ⟨formed', same'⟩ := formed_chunksOf isBack codeHolds.2
      (fun instruction inside => ready instruction (List.mem_cons_of_mem _ inside))
      (fun action inside => shallow action (List.mem_cons_of_mem _ inside))
    rw [chunksOf, bytesOf_append, same, same']
    exact ⟨allFormed_append formed formed', rfl⟩

end

/-! ### Outlines -/

/-- The block and the branch of a piece, and its room. -/
def Piece.outline (piece : Piece) : Option Block × Option Branch × Nat × Nat :=
  (piece.action.block?, piece.action.branch?, piece.bytes, piece.records)

theorem map_bounds_of_outline {pieces others : List Piece}
    (same : pieces.map Piece.outline = others.map Piece.outline) :
    pieces.map Piece.bounds = others.map Piece.bounds := by
  have bounds := congrArg (List.map fun outline => (outline.1.map Block.ends, outline.2.2)) same
  rwa [List.map_map, List.map_map] at bounds

theorem targetsFrom_of_outline {pieces others : List Piece}
    (same : pieces.map Piece.outline = others.map Piece.outline) (position : Nat) :
    targetsFrom position pieces = targetsFrom position others := by
  induction pieces generalizing others position with
  | nil => rw [List.map_eq_nil_iff.mp same.symm]
  | cons piece rest ih =>
    rcases others with _ | ⟨other, others⟩
    · cases same
    · obtain ⟨first, later⟩ := List.cons.inj same
      have branch : piece.action.branch? = other.action.branch? :=
        congrArg (fun outline => outline.2.1) first
      have bytes : piece.bytes = other.bytes := congrArg (fun outline => outline.2.2.1) first
      rw [targetsFrom, targetsFrom, Action.targets, Action.targets, branch, bytes, ih later]

theorem reached_of_outline {pieces others : List Piece}
    (same : pieces.map Piece.outline = others.map Piece.outline) {point stop : Point}
    (reached : Reached point pieces stop) : Reached point others stop :=
  have bounds := map_bounds_of_outline same
  reached.of_rooms (map_room_of_bounds bounds .endTry) (map_room_of_bounds bounds .endWait)

/-- Only the outlines of pieces decide whether a sequence can be finished. -/
theorem Finishable.of_outline {pieces others : List Piece} (finishable : Finishable pieces)
    (same : pieces.map Piece.outline = others.map Piece.outline) : Finishable others where
  lands target inside := by
    rw [← targetsFrom_of_outline same] at inside
    obtain ⟨last, reached, equal⟩ := finishable.lands target inside
    exact ⟨last, reached_of_outline same reached, equal⟩
  fit := (allFit_congr (map_bounds_of_outline same)).mp finishable.fit

/-! ### The pieces of the records of a sequence -/

/-- The real actions of a sequence, each as it is read back, with the room it takes. -/
def rereadPieces (actions : List Action) : List Piece :=
  (reals (actions.map Action.alone)).map (Piece.recastShell Instruction.canon)

theorem rereadPieces_cons (action : Action) (rest : List Action) :
    rereadPieces (action :: rest) =
      (if action.isMarker then [] else [action.alone.recastShell Instruction.canon]) ++
        rereadPieces rest := by
  unfold rereadPieces
  rw [List.map_cons, reals, List.filter_cons]
  cases real : action.isMarker with
  | true =>
    have skip : (!action.alone.action.isMarker) = false := by
      show (!action.isMarker) = false
      rw [real]
      rfl
    rw [skip]
    rfl
  | false =>
    have keep : (!action.alone.action.isMarker) = true := by
      show (!action.isMarker) = true
      rw [real]
      rfl
    rw [keep]
    rfl

/-- **The records of a sequence have the outlines of its real actions.** -/
theorem outline_chunksOf {actions : List Action} {bytes : List UInt8}
    (written : imageAll actions = some bytes) (nextLabel : Nat)
    (inner : ∀ signature body, .define signature body ∈ actions → ∀ code,
      imageFrom false body = some code → bytesOf (chunksOf body) = code) :
    (piecesFrom nextLabel (chunksOf actions)).1.map Piece.outline =
      (rereadPieces actions).map Piece.outline := by
  induction actions generalizing nextLabel bytes with
  | nil =>
    rw [chunksOf, piecesFrom]
    rfl
  | cons action rest ih =>
    rw [imageAll] at written
    obtain ⟨front, back, isFront, isBack, rfl⟩ := joined_eq_some_iff.mp written
    have long := Action.length_of_image isFront
    have later := ih isBack
    rw [chunksOf, rereadPieces_cons]
    cases action with
    | plain instruction =>
      have isFront' : instruction.image = some front := by rwa [Action.image] at isFront
      rw [Action.chunks, isFront', List.singleton_append, piecesFrom, Chunk.piece, List.map_cons,
        later _ fun signature body inside => inner signature body (List.mem_cons_of_mem _ inside),
        Option.getD_some, long]
      rfl
    | define signature body =>
      rw [Action.image] at isFront
      obtain ⟨head, code, isHead, isCode, rfl⟩ := joined_eq_some_iff.mp isFront
      have same := inner signature body List.mem_cons_self code isCode
      rw [Action.chunks, isHead, Option.getD_some, same, List.singleton_append, piecesFrom,
        Chunk.piece, List.map_cons,
        later _ fun signature body inside => inner signature body (List.mem_cons_of_mem _ inside),
        long]
      rfl
    | marker marker =>
      rw [Action.chunks, List.nil_append,
        later _ fun signature body inside => inner signature body (List.mem_cons_of_mem _ inside)]
      rfl

/-! ### Settled sequences can be finished -/

/-- Markers go nowhere. -/
theorem targetsFrom_reals {pieces : List Piece} (solid : AllSolid pieces) (position : Nat) :
    targetsFrom position (reals pieces) = targetsFrom position pieces := by
  rw [targetsFrom_eq_marks, targetsFrom_eq_marks, branchMarks_reals solid]

/-- A branch is read back without a label, and a `try` with the flags that are written. -/
theorem Action.views_recastShell_canon (action : Action) :
    (action.recastShell Instruction.canon).branch? =
        action.branch?.map (fun branch => { branch with label := none }) ∧
      (action.recastShell Instruction.canon).block? = action.block?.map Block.canon := by
  cases action with
  | plain instruction =>
    cases instruction with
    | branch jump => exact ⟨rfl, rfl⟩
    | block opened =>
      rw [recastShell, Instruction.canon_block]
      exact ⟨rfl, rfl⟩
    | gotoFrame2 flags bias => cases bias <;> exact ⟨rfl, rfl⟩
    | _ => exact ⟨rfl, rfl⟩
  | _ => exact ⟨rfl, rfl⟩

theorem targetsFrom_recastShell_canon (position : Nat) (pieces : List Piece) :
    targetsFrom position (pieces.map (Piece.recastShell Instruction.canon)) =
      targetsFrom position pieces := by
  induction pieces generalizing position with
  | nil => rfl
  | cons piece rest ih =>
    have same : Action.targets (piece.action.recastShell Instruction.canon) position =
        piece.action.targets position := by
      rw [Action.targets, Action.targets, (Action.views_recastShell_canon _).1]
      cases piece.action.branch? <;> rfl
    rw [List.map_cons, targetsFrom, targetsFrom, ih]
    exact congrArg (· ++ _) same

/-- The targets of a sequence, as it is read back. -/
theorem targetsFrom_rereadPieces (actions : List Action) :
    targetsFrom 0 (rereadPieces actions) = targetsFrom 0 (actions.map Action.alone) := by
  rw [rereadPieces, targetsFrom_recastShell_canon, targetsFrom_reals (solid_map_alone actions)]

/-- A sequence is read back with the bounds that it has. -/
theorem map_bounds_recastShell_canon (pieces : List Piece) :
    (pieces.map (Piece.recastShell Instruction.canon)).map Piece.bounds = pieces.map Piece.bounds := by
  rw [List.map_map]
  refine List.map_congr_left fun piece _ => ?_
  have ends : (piece.action.recastShell Instruction.canon).block?.map Block.ends =
      piece.action.block?.map Block.ends := by
    rw [(Action.views_recastShell_canon piece.action).2, Option.map_map]
    exact congrArg (Option.map · _) (funext Block.ends_canon)
  exact congrArg (·, piece.bytes, piece.records) ends

theorem reached_recastShell_canon {pieces : List Piece} {point stop : Point}
    (reached : Reached point pieces stop) :
    Reached point (pieces.map (Piece.recastShell Instruction.canon)) stop :=
  have bounds := (map_bounds_recastShell_canon pieces).symm
  reached.of_rooms (map_room_of_bounds bounds .endTry) (map_room_of_bounds bounds .endWait)

/-- Spans end where they did, as a sequence is read back. -/
theorem allFit_recastShell_canon {pieces : List Piece} (fit : AllFit pieces) :
    AllFit (pieces.map (Piece.recastShell Instruction.canon)) :=
  (allFit_congr (map_bounds_recastShell_canon pieces)).mpr fit

/-- Blocks are where they were, as a sequence is read back. -/
theorem spansFrom_recastShell_canon (start : Nat) (pieces : List Piece) :
    spansFrom start (layout (pieces.map (Piece.recastShell Instruction.canon))) =
      spansFrom start (layout pieces) := by
  induction pieces generalizing start with
  | nil => rfl
  | cons piece rest ih =>
    have widths : (layout (rest.map (Piece.recastShell Instruction.canon))).map Prod.snd =
        (layout rest).map Prod.snd := by
      rw [map_snd_layout, map_snd_layout]
      exact map_room_of_bounds (map_bounds_recastShell_canon rest) .endTry
    have spans : ∀ (block : Block) (first : Nat) (widths : List Nat),
        block.canon.spans first widths = block.spans first widths := by
      intro block first widths
      cases block <;> rfl
    have read := (Action.views_recastShell_canon piece.action).2
    rw [List.map_cons]
    cases opens : piece.action.block? with
    | none =>
      rw [opens] at read
      rw [spansFrom_flat opens, spansFrom_flat read]
      exact congrArg _ (ih _)
    | some block =>
      rw [opens] at read
      rw [spansFrom_opening opens, spansFrom_opening read, widths, spans]
      exact congrArg _ (ih _)

theorem Measured.nested {actions : List Action} (measured : Measured actions)
    (spaced : Spaced actions) :
    AllFit (rereadPieces actions) ∧ Nested 0 (layout (rereadPieces actions)) := by
  unfold Measured at measured
  have same : actions = (actions.map Action.alone).map Piece.action := by
    rw [List.map_map]
    exact (List.map_id actions).symm
  rw [Extent.pieces_start spaced] at measured
  obtain ⟨fit, nested⟩ := Closes.nested measured (solid_map_alone actions) same
  refine ⟨allFit_recastShell_canon fit, ?_⟩
  unfold Nested
  rw [rereadPieces, spansFrom_recastShell_canon]
  exact nested

/-- **The records of a settled sequence can be finished.** -/
theorem Settled.finishable {actions : List Action} (settled : Settled actions)
    (ready : Ready actions) : Finishable (rereadPieces actions) where
  lands target inside := by
    obtain ⟨aimed, _⟩ := settled
    rw [Extent.pieces_start ready.spaced] at aimed
    rw [targetsFrom_rereadPieces, targetsFrom_eq_marks] at inside
    obtain ⟨⟨branch, position⟩, isBranch, rfl⟩ := List.mem_map.mp inside
    obtain ⟨_, piece, held, seen⟩ := reached_of_marksOf ⟨0, 0⟩ isBranch
    obtain ⟨action, member, rfl⟩ := List.mem_map.mp held
    have plain : Action.plain (.branch branch) ∈ actions := by
      rw [← Action.eq_branch_of_branch? seen]
      exact member
    have labelled := (ready.ready _ plain).labelled branch rfl
    obtain ⟨label, isLabel⟩ := Option.ne_none_iff_exists'.mp labelled
    obtain ⟨place, isPlace, hits⟩ := aimed.hits (branch, position) isBranch label isLabel
    obtain ⟨⟨last, reached, equal⟩, _⟩ := reached_of_marksOf ⟨0, 0⟩ isPlace
    have kept := (reached_reals_iff (solid_map_alone actions)).mpr reached
    refine ⟨last, reached_recastShell_canon kept, ?_⟩
    rw [hits, equal]
  fit := (settled.2.nested ready.spaced).1

/-- A level that is settled and ready to be written. -/
def Sealed (actions : List Action) : Prop := Settled actions ∧ Ready actions

theorem everyLevel_sealed_iff {actions : List Action} :
    EveryLevel Sealed actions ↔ EveryLevel Settled actions ∧ EveryLevel Ready actions :=
  everyLevel_and actions

/-- The bytes of a level that is ready are those of its records. -/
theorem bytesOf_chunksOf {actions : List Action} {bytes : List UInt8}
    (ready : EveryLevel Ready actions) (written : imageFrom false actions = some bytes) :
    bytesOf (chunksOf actions) = bytes := by
  rw [imageFrom_of_spaced ready.1.spaced] at written
  have shallow := (nestingFrom_le_iff.mp (Nat.le_refl (nesting actions))).2
  exact (formed_chunksOf written ready.2 ready.1.ready shallow).2

theorem allSound_append_iff {front back : List Chunk} {nextLabel : Nat} :
    AllSound nextLabel (front ++ back) ↔
      AllSound nextLabel front ∧ AllSound (piecesFrom nextLabel front).2 back := by
  induction front generalizing nextLabel with
  | nil =>
    rw [List.nil_append, AllSound, piecesFrom, true_and]
  | cons chunk rest ih =>
    rw [List.cons_append, AllSound, AllSound, ih, piecesFrom, and_assoc]

theorem Settled.finishable_chunksOf {actions : List Action} {bytes : List UInt8}
    (every : EveryLevel Sealed actions) (written : imageFrom false actions = some bytes)
    (nextLabel : Nat) : Finishable (piecesFrom nextLabel (chunksOf actions)).1 := by
  obtain ⟨settled, ready⟩ := everyLevel_sealed_iff.mp every
  rw [imageFrom_of_spaced ready.1.spaced] at written
  refine (settled.1.finishable ready.1).of_outline (outline_chunksOf written nextLabel ?_).symm
  intro signature body inside code written'
  exact bytesOf_chunksOf (allCodeHolds_iff.mp ready.2 signature body inside) written'

mutual

theorem Action.sound_chunks : ∀ {action : Action} {bytes : List UInt8} (nextLabel : Nat),
    action.image = some bytes → action.CodeHolds Sealed → AllSound nextLabel action.chunks
  | .plain instruction, bytes, nextLabel, _, _ => by
    rw [Action.chunks, AllSound, Chunk.Sound, AllSound]
    exact ⟨trivial, trivial⟩
  | .define signature body, bytes, nextLabel, written, every => by
    rw [Action.image] at written
    obtain ⟨front, code, _, isCode, _⟩ := joined_eq_some_iff.mp written
    rw [Action.CodeHolds] at every
    have isCode' := isCode
    rw [imageFrom_of_spaced every.1.2.spaced] at isCode'
    rw [Action.chunks, AllSound, Chunk.Sound, AllSound]
    exact ⟨⟨sound_chunksOf nextLabel isCode' every.2,
      Settled.finishable_chunksOf every isCode nextLabel⟩, trivial⟩
  | .marker marker, bytes, nextLabel, _, _ => by
    rw [Action.chunks, AllSound]
    trivial

/-- The code of all records of a sealed sequence can be finished. -/
theorem sound_chunksOf : ∀ {actions : List Action} {bytes : List UInt8} (nextLabel : Nat),
    imageAll actions = some bytes → AllCodeHolds Sealed actions →
      AllSound nextLabel (chunksOf actions)
  | [], bytes, nextLabel, _, _ => by
    rw [chunksOf, AllSound]
    trivial
  | action :: rest, bytes, nextLabel, written, every => by
    rw [imageAll] at written
    obtain ⟨front, back, isFront, isBack, _⟩ := joined_eq_some_iff.mp written
    rw [AllCodeHolds] at every
    rw [chunksOf, allSound_append_iff]
    exact ⟨Action.sound_chunks nextLabel isFront every.1, sound_chunksOf _ isBack every.2⟩

end

/-- **The bytes of a sealed sequence are disassembled, into the listing of its records.** -/
theorem disassemble_of_sealed {settings : DisassemblySettings} {actions : List Action}
    {bytes : List UInt8} (every : EveryLevel Sealed actions)
    (shallow : nesting actions ≤ settings.maxDepth)
    (written : imageFrom false actions = some bytes) :
    (disassemble settings bytes).result =
      .ok (settings.examined (actionsOf 0 (chunksOf actions))) := by
  have ready := (everyLevel_sealed_iff.mp every).2
  have finishable := Settled.finishable_chunksOf every written 0
  rw [imageFrom_of_spaced ready.1.spaced] at written
  obtain ⟨formed, same⟩ := formed_chunksOf written ready.2 ready.1.ready
    (nestingFrom_le_iff.mp shallow).2
  rw [← same]
  exact disassemble_of_written formed (sound_chunksOf 0 written every.2) finishable

end ActionCode
