/-
**Assembly preserves the program.**

* `WellFormed`: a level whose instructions are read back, and whose branches have labels.
* `Preserved`: two levels are the same program, and every branch goes to an action of it.
* **`program_listed`**: the records of a sealed sequence are listed as the same program.
* **`disassemble_assembled`**: what a well-formed sequence is assembled to is disassembled, into the
  same program at every level.
-/

import ActionCode.Proofs.Derived.Editing
import ActionCode.Proofs.RoundTrip.Labelling
import ActionCode.Proofs.RoundTrip.Programs

namespace ActionCode

/-! ### Well-formed sequences -/

/-- Every branch has a label, an opcode alone needs neither a body nor a count, and what is unknown
has no opcode, and no payload if it has no body. -/
def WellFormed (code : List Action) : Prop :=
  ∀ instruction, .plain instruction ∈ code → instruction.Ready

/-- Two sequences are the same program, and **every branch goes, through a label that is placed once,
to an action or to the end**. -/
structure Preserved (first second : List Action) : Prop where
  program : program first = program second
  resolved : none ∉ (ActionCode.program first).destinations
  once : (first.filterMap Action.label?).Nodup
  once_again : (second.filterMap Action.label?).Nodup

/-- Offsets and sizes do not decide what is ready. -/
theorem Instruction.Ready.of_blank {first second : Instruction} (ready : first.Ready)
    (same : first.blank = second.blank) : second.Ready := by
  have readable : ∀ instruction : Instruction,
      instruction.blank.Readable ↔ instruction.Readable := by
    intro instruction
    cases instruction with
    | branch branch => obtain ⟨conditional, offset, _ | label⟩ := branch <;> exact Iff.rfl
    | _ => exact Iff.rfl
  refine ⟨(readable second).mp (same ▸ (readable first).mpr ready.readable), ?_⟩
  rintro ⟨conditional, offset, label⟩ rfl
  obtain ⟨jump, rfl, isLabel⟩ : ∃ jump : Branch, first = .branch jump ∧ jump.label = label := by
    cases first with
    | branch jump =>
      refine ⟨jump, rfl, ?_⟩
      obtain ⟨conditional', offset', _ | label'⟩ := jump <;> cases label <;> cases same <;> rfl
    | _ => cases label <;> cases same
  exact isLabel ▸ ready.labelled jump rfl

theorem Instruction.ready_of_pushed {instruction : Instruction}
    (some : (Action.plain instruction).pushed ≠ []) : instruction.Ready := by
  cases instruction with
  | push value => exact ⟨trivial, fun _ other => by cases other⟩
  | pushList values => exact ⟨trivial, fun _ other => by cases other⟩
  | _ => exact absurd rfl some

/-- What a well-formed level is emitted as is ready to be written. -/
theorem WellFormed.ready {code emitted : List Action} (wellFormed : WellFormed code)
    (same : recastAll Instruction.blank (mergePushes code) = recastAll Instruction.blank emitted) :
    Ready emitted where
  spaced := spaced_of_blank same
  ready instruction inside := by
    by_cases none : (Action.plain instruction).pushed = []
    · have single := mem_splitPushes_of_unpushed inside none
      have sketched := List.mem_map_of_mem (f := Action.sketch) single
      rw [← sketch_of_blank same] at sketched
      obtain ⟨action, isPart, isSketch⟩ := List.mem_map.mp sketched
      cases action with
      | plain other =>
        have blank : other.blank = instruction.blank := Action.plain.inj isSketch
        obtain ⟨inside, _⟩ | ⟨_, _, value, _, same⟩ := mem_splitPushes_iff.mp isPart
        · exact (wellFormed other inside).of_blank blank
        · obtain rfl := Action.plain.inj same
          exact (@Instruction.ready_of_pushed (.push value) (List.cons_ne_nil value [])).of_blank blank
      | define signature body => cases isSketch
      | marker found => cases isSketch
    · exact Instruction.ready_of_pushed none

/-- What a well-formed sequence is emitted as is ready at every level. -/
theorem Emitted.everyLevel_ready {actions emitted : List Action}
    (isEmitted : Emitted actions emitted) (wellFormed : EveryLevel WellFormed actions) :
    EveryLevel Ready emitted := by
  have levels : AtEveryLevel (fun code other => WellFormed code → Ready other) actions emitted :=
    .of_step (fun _ _ emitted wellFormed => wellFormed.ready emitted.blank)
      (fun _ _ emitted => emitted.bodies) isEmitted
  refine everyLevel_iff_codeAt.mpr fun path other isOther => ?_
  have both := levels path
  rw [isOther] at both
  cases isCode : codeAt? path actions with
  | none =>
    rw [isCode] at both
    cases both
  | some code =>
    rw [isCode] at both
    cases both with
    | some ready => exact ready (everyLevel_iff_codeAt.mp wellFormed path code isCode)

/-! ### Gists of records -/

/-- Labels do not belong to the gist of a piece. -/
theorem map_gist_bindFrom (labels : Nat → Option Label) (position : Nat) (pieces : List Piece) :
    (bindFrom labels position pieces).map Piece.gist = pieces.map Piece.gist := by
  induction pieces generalizing position with
  | nil => rfl
  | cons piece rest ih =>
    have own : (piece.bindTo labels position).gist = piece.gist := by
      obtain same | ⟨branch, isBranch, same⟩ := Action.bindTo_cases labels position piece.action
      · rw [Piece.bindTo, same]
      · obtain ⟨action, bytes, records⟩ := piece
        obtain rfl : action = _ := isBranch
        rw [Piece.bindTo, same]
        rfl
    exact congrArg₂ List.cons own (ih _)

theorem targetsFrom_bindFrom (labels : Nat → Option Label) (position : Nat) (pieces : List Piece) :
    targetsFrom position (bindFrom labels position pieces) = targetsFrom position pieces := by
  rw [targetsFrom_eq_marks, targetsFrom_eq_marks, branchMarks_bindFrom, List.map_map]
  rfl

/-- The register bit of an exception block follows from its target. -/
theorem TryBlock.trimmed_written (handlers : TryBlock) :
    TryBlock.trimmed { handlers with flags := handlers.writtenFlags } = handlers.trimmed := by
  have set : ∀ bits : BitVec 8, (bits ||| 4) &&& ~~~4 = bits &&& ~~~4 := by decide
  have cleared : ∀ bits : BitVec 8, bits &&& ~~~4 &&& ~~~4 = bits &&& ~~~4 := by decide
  obtain ⟨flags, trySize, catchSize, finallySize, name | index⟩ := handlers
  · exact congrArg (TryBlock.mk · trySize catchSize finallySize _)
      (UInt8.toBitVec_inj.mp (cleared flags.toBitVec))
  · exact congrArg (TryBlock.mk · trySize catchSize finallySize _)
      (UInt8.toBitVec_inj.mp (set flags.toBitVec))

/-- An instruction is read back as one with the same single actions. -/
theorem Instruction.sense_canon (instruction : Instruction) :
    (Action.plain instruction.canon).splitPush.map Action.essential =
      (Action.plain instruction).splitPush.map Action.essential := by
  cases instruction with
  | block opened =>
    cases opened with
    | exception handlers =>
      exact congrArg (fun handlers => [Action.plain (.block (.exception handlers))])
        (TryBlock.trimmed_written { handlers with trySize := 0, catchSize := 0, finallySize := 0 })
    | _ => rfl
  | gotoFrame2 flags bias =>
    have set : ∀ bits : BitVec 8, (bits ||| 2) &&& ~~~2 = bits &&& ~~~2 := by decide
    have cleared : ∀ bits : BitVec 8, bits &&& ~~~2 &&& ~~~2 = bits &&& ~~~2 := by decide
    cases bias with
    | none =>
      exact congrArg (fun flags => [Action.plain (.gotoFrame2 flags none)])
        (UInt8.toBitVec_inj.mp (cleared flags.toBitVec))
    | some bias =>
      exact congrArg (fun flags => [Action.plain (.gotoFrame2 flags (some bias))])
        (UInt8.toBitVec_inj.mp (set flags.toBitVec))
  | _ => rfl

/-- **The records of a sequence have the single actions of the sequence.** -/
theorem map_sense_chunksOf (nextLabel : Nat) (actions : List Action) :
    (piecesFrom nextLabel (chunksOf actions)).1.map Piece.sense =
      (reals (actions.map Action.alone)).map Piece.sense := by
  induction actions generalizing nextLabel with
  | nil =>
    rw [chunksOf, piecesFrom]
    rfl
  | cons action rest ih =>
    rw [chunksOf, List.map_cons]
    cases action with
    | plain instruction =>
      rw [Action.chunks, List.singleton_append, piecesFrom, reals_cons rfl, List.map_cons,
        List.map_cons, ih, Chunk.piece]
      exact congrArg (· :: _) instruction.sense_canon
    | define signature body =>
      rw [Action.chunks, List.singleton_append, piecesFrom, reals_cons rfl, List.map_cons,
        List.map_cons, ih, Chunk.piece]
      rfl
    | marker found =>
      rw [Action.chunks, List.nil_append]
      exact ih nextLabel

theorem Block.openingAt_canon (block : Block) : block.canon.openingAt = block.openingAt := by
  cases block <;> rfl

/-- Outlines of what is read back, and single actions, decide gists. -/
theorem map_gist_of_outline {pieces others : List Piece}
    (outlines : pieces.map Piece.outline =
      (others.map (Piece.recastShell Instruction.canon)).map Piece.outline)
    (senses : pieces.map Piece.sense = others.map Piece.sense) :
    pieces.map Piece.gist = others.map Piece.gist := by
  induction pieces generalizing others with
  | nil => rw [List.map_eq_nil_iff.mp senses.symm]
  | cons piece rest ih =>
    rcases others with _ | ⟨other, others⟩
    · cases senses
    · obtain ⟨outline, later⟩ := List.cons.inj outlines
      obtain ⟨sense, later'⟩ := List.cons.inj senses
      obtain ⟨block, outline⟩ := Prod.mk.inj outline
      obtain ⟨_, outline⟩ := Prod.mk.inj outline
      obtain ⟨bytes, records⟩ := Prod.mk.inj outline
      have weight := congrArg List.length sense
      rw [Piece.sense, Piece.sense, List.length_map, List.length_map] at weight
      have opens : piece.action.block?.map Block.openingAt =
          other.action.block?.map Block.openingAt := by
        have read := block.trans (Action.views_recastShell_canon other.action).2
        rw [read, Option.map_map]
        exact congrArg (other.action.block?.map ·) (funext Block.openingAt_canon)
      have own : piece.gist = other.gist := by
        rw [Piece.gist, Piece.gist, Piece.ground, Piece.ground, weight, opens, sense, bytes, records]
        rfl
      exact congrArg₂ List.cons own (ih later later')

/-! ### One level -/

/-- The program of a sealed sequence follows from its records. -/
theorem Sealed.program_eq {actions : List Action} (isSealed : Sealed actions) :
    program actions = programOf (reals (actions.map Action.alone)) := by
  obtain ⟨⟨aimed, measured⟩, ready⟩ := isSealed
  rw [Measured, Extent.pieces_start ready.spaced] at measured
  rw [Extent.pieces_start ready.spaced] at aimed
  have labelled : ∀ mark ∈ branchMarks (actions.map Action.alone), mark.1.label ≠ none := by
    intro mark inside
    obtain ⟨_, piece, isPiece, isBranch⟩ := reached_of_marksOf ⟨0, 0⟩ inside
    obtain ⟨action, isAction, rfl⟩ := List.mem_map.mp isPiece
    have plain : Action.plain (.branch mark.1) ∈ actions := by
      rw [← Action.eq_branch_of_branch? isBranch]
      exact isAction
    exact (ready.ready _ plain).labelled mark.1 rfl
  have same := map_action_alone actions
  have whole := ActionCode.program_eq (solid_map_alone actions) aimed labelled (same.symm ▸ measured)
  rwa [same] at whole

/-- The program of a listing follows from the records that it was read from. -/
theorem Level.program_eq {room nextLabel : Nat} {chunks : List Chunk}
    (level : Level room nextLabel chunks)
    (nested : Nested 0 (layout (piecesFrom nextLabel chunks).1)) :
    program (actionsOf nextLabel chunks) = programOf (bindFrom
      (labelsOf (piecesFrom nextLabel chunks).2 (piecesFrom nextLabel chunks).1) 0
      (piecesFrom nextLabel chunks).1) := by
  have orderly := orderly_listed level.real level.finishable (piecesFrom nextLabel chunks).2
  have closes := (tidy_listed level.real level.finishable.fit nested
    (piecesFrom nextLabel chunks).2).closes
  have whole := ActionCode.program_eq orderly.solid orderly.aimed orderly.labelled closes
  rw [reals_listed level.real level.finishable.fit] at whole
  rw [← whole, program, program, actionsOf, finished, (single_splitPushes _).splitPushes_eq]

/-- **The records of a sealed sequence are listed as the same program.** -/
theorem program_listed {actions : List Action} {bytes : List UInt8} {room nextLabel : Nat}
    (every : EveryLevel Sealed actions) (written : imageFrom false actions = some bytes)
    (level : Level room nextLabel (chunksOf actions)) :
    program (actionsOf nextLabel (chunksOf actions)) = program actions := by
  obtain ⟨settled, ready⟩ := everyLevel_sealed_iff.mp every
  have isImage := written
  rw [imageFrom_of_spaced ready.1.spaced] at isImage
  have outlines := outline_chunksOf isImage nextLabel fun signature body inside code written' =>
    bytesOf_chunksOf (allCodeHolds_iff.mp ready.2 signature body inside) written'
  have nested : Nested 0 (layout (piecesFrom nextLabel (chunksOf actions)).1) := by
    rw [layout_of_outline outlines]
    exact (settled.1.2.nested ready.1.spaced).2
  rw [level.program_eq nested, every.1.program_eq]
  refine programOf_congr ?_ ?_
  · rw [targetsFrom_bindFrom, targetsFrom_of_outline outlines, targetsFrom_rereadPieces,
      targetsFrom_reals (solid_map_alone actions)]
  · rw [map_gist_bindFrom]
    exact map_gist_of_outline outlines (map_sense_chunksOf nextLabel actions)

/-- **A sequence is the same program as the listing of what it is emitted as.** -/
theorem Emitted.preserved {actions emitted others : List Action} (isEmitted : Emitted actions emitted)
    (ready : EveryLevel Ready emitted) (isListed : ListedFrom (chunksOf emitted) others) :
    Preserved actions others := by
  obtain ⟨room, nextLabel, level, rfl⟩ := isListed
  obtain ⟨bytes, written⟩ := isEmitted.written
  have every := everyLevel_sealed_iff.mpr ⟨isEmitted.settled, ready⟩
  have same := program_of_blank isEmitted.blank
  refine ⟨same.trans (program_listed every written level).symm, ?_, ?_, ?_⟩
  · rw [same, every.1.program_eq]
    intro inside
    obtain ⟨target, _, isNone⟩ := List.mem_map.mp inside
    cases isNone
  · rw [← labels_of_blank isEmitted.blank, ← map_fst_labelMarks_pieces]
    exact isEmitted.settled.1.1.once
  · have orderly := orderly_listed level.real level.finishable
      (piecesFrom nextLabel (chunksOf emitted)).2
    rw [actionsOf, finished, filterMap_splitPushes fun _ some => (Action.unseen_of_pushed some).1,
      ← map_fst_labelMarks]
    exact orderly.aimed.once

/-! ### Every level -/

/-- A sequence is emitted as one whose records are listed as another. -/
def Relisted (actions others : List Action) : Prop :=
  ∃ emitted, Emitted actions emitted ∧ EveryLevel Ready emitted ∧
    ListedFrom (chunksOf emitted) others

theorem codesOf_chunksOf (actions : List Action) :
    codesOf (chunksOf actions) = (bodiesOf actions).map chunksOf := by
  induction actions with
  | nil => rw [chunksOf]; rfl
  | cons action rest ih =>
    rw [chunksOf, codesOf, List.filterMap_append]
    rw [codesOf] at ih
    rw [ih]
    cases action <;> rw [Action.chunks] <;> rfl

/-- What is related through elements of a list is related one by one. -/
theorem forall₂_through {α β γ : Type} {first : α → β → Prop} {second : β → γ → Prop}
    {starts : List α} {middles : List β} {stops : List γ}
    (both : List.Forall₂ first starts middles) (both' : List.Forall₂ second middles stops) :
    List.Forall₂ (fun start stop => ∃ middle ∈ middles, first start middle ∧ second middle stop)
      starts stops := by
  induction both generalizing stops with
  | nil =>
    cases both'
    exact .nil
  | cons here _ ih =>
    cases both' with
    | cons here' later' =>
      refine .cons ⟨_, List.mem_cons_self, here, here'⟩ ((ih later').imp ?_)
      rintro start stop ⟨middle, inside, both⟩
      exact ⟨middle, List.mem_cons_of_mem _ inside, both⟩

/-- The code of definitions is listed again as that of the definitions they are listed as. -/
theorem Relisted.bodies {actions others : List Action} (isRelisted : Relisted actions others) :
    List.Forall₂ Relisted (bodiesOf actions) (bodiesOf others) := by
  obtain ⟨emitted, isEmitted, ready, isListed⟩ := isRelisted
  have inner := isListed.inside
  rw [codesOf_chunksOf, List.forall₂_map_left_iff] at inner
  refine (forall₂_through isEmitted.bodies inner).imp ?_
  rintro body other ⟨middle, inside, isEmitted', isListed'⟩
  exact ⟨middle, isEmitted', allCodeHolds_iff_bodies.mp ready.2 middle inside, isListed'⟩

/-- The records of a sealed sequence can be listed. -/
theorem level_of_sealed {actions : List Action} {bytes : List UInt8} {room : Nat}
    (every : EveryLevel Sealed actions) (shallow : nesting actions ≤ room)
    (written : imageFrom false actions = some bytes) (nextLabel : Nat) :
    Level room nextLabel (chunksOf actions) := by
  have ready := (everyLevel_sealed_iff.mp every).2
  have isImage := written
  rw [imageFrom_of_spaced ready.1.spaced] at isImage
  have formed := (formed_chunksOf isImage ready.2 ready.1.ready
    (nestingFrom_le_iff.mp shallow).2).1
  exact ⟨formed.imp fun _ _ => Instruction.WrittenAs.spelledBy,
    sound_chunksOf nextLabel isImage every.2, Settled.finishable_chunksOf every written nextLabel⟩

/-- What a sequence is resolved as nests as deep. -/
theorem nesting_of_blank {actions others : List Action}
    (same : recastAll Instruction.blank (mergePushes actions) = recastAll Instruction.blank others) :
    nesting others = nesting actions := by
  have cast : ∀ code : List Action,
      nesting (recastAll Instruction.blank code) = nesting code :=
    fun code => nestingFrom_recastAll Instruction.blank 0 code
  rw [← cast, ← same, cast, mergePushes, nesting_mapLevels nesting_mergeRuns]

/-- **Assembly preserves the program.** The bytes that a well-formed sequence is assembled to are
disassembled, if there is room for as many definitions inside each other. At every level the listing
has the same real actions as the sequence, but for what assembly works out itself; every branch goes,
through its label, to the same action or to the end; and every action is inside the same spans. -/
theorem disassemble_assembled {assembly : AssemblySettings} {disassembly : DisassemblySettings}
    {actions : List Action} {bytes : List UInt8} (wellFormed : EveryLevel WellFormed actions)
    (success : (assemble assembly actions).result = .ok bytes)
    (deep : assembly.maxDepth ≤ disassembly.maxDepth) (raw : disassembly.examineStack = false) :
    ∃ result, (disassemble disassembly bytes).result = .ok result ∧
      AtEveryLevel Preserved actions result := by
  obtain ⟨emitted, resolves, written, isEmitted⟩ := emitted_of_assemble success
  have ready := isEmitted.everyLevel_ready wellFormed
  have every := everyLevel_sealed_iff.mpr ⟨isEmitted.settled, ready⟩
  have shallow : nesting emitted ≤ disassembly.maxDepth := by
    rw [nesting_of_blank isEmitted.blank]
    exact (resolve_ok_iff.mp resolves).1.trans deep
  refine ⟨_, disassemble_of_sealed every shallow written, ?_⟩
  rw [DisassemblySettings.examined, raw, if_neg Bool.false_ne_true]
  have start : Relisted actions (actionsOf 0 (chunksOf emitted)) :=
    ⟨emitted, isEmitted, ready, _, _, level_of_sealed every shallow written 0, rfl⟩
  refine AtEveryLevel.of_step ?_ (fun _ _ => Relisted.bodies) start
  rintro first second ⟨middle, isEmitted', ready', isListed⟩
  exact isEmitted'.preserved ready' isListed

/-- A branch to the end of a definition, and one out of a scope, back to the start. -/
theorem disassemble_assembled_loop :
    ∃ result, (disassemble .raw [0x9b, 6, 0, 0x66, 0, 0, 0, 10, 0, 0x9d, 2, 0, 5, 0,
        0x96, 2, 0, 5, 1, 0x94, 2, 0, 5, 0, 0x99, 2, 0, 0xe3, 0xff]).result = .ok result ∧
      AtEveryLevel Preserved [.marker (.label ⟨3⟩),
        .define (.simple "f" []) [.plain (.branch ⟨true, 9, some ⟨1⟩⟩),
          .plain (.push (.boolean true)), .marker (.label ⟨1⟩)],
        .plain (.block (.scope 0)), .plain (.branch ⟨false, 0, some ⟨3⟩⟩), .marker .endWith]
        result := by
  refine @disassemble_assembled {} .raw _ _ ⟨?_, ?_⟩ (by decide +kernel) (Nat.le_refl _) rfl
  · rintro instruction inside
    obtain rfl | rfl : instruction = .block (.scope 0) ∨
        instruction = .branch ⟨false, 0, some ⟨3⟩⟩ := by simpa using inside
    · exact ⟨trivial, fun _ other => by cases other⟩
    · exact ⟨trivial, fun _ same => by cases same; exact Option.some_ne_none _⟩
  · refine allCodeHolds_iff_bodies.mpr fun body inside => ?_
    obtain rfl := List.mem_singleton.mp inside
    refine ⟨fun instruction inside => ?_, by simp [AllCodeHolds, Action.CodeHolds]⟩
    obtain rfl | rfl : instruction = .branch ⟨true, 9, some ⟨1⟩⟩ ∨
        instruction = .push (.boolean true) := by simpa using inside
    · exact ⟨trivial, fun _ same => by cases same; exact Option.some_ne_none _⟩
    · exact ⟨trivial, fun _ other => by cases other⟩

end ActionCode
