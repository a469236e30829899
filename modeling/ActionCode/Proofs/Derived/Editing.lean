/-
**Edits that assembly does not see.**

* `Emits`: a sequence is written as some bytes once it is resolved.
* `Exchanged`: one sequence takes the place of another, at any level. **`Exchanged.emits`**: the
  bytes stay if those of the exchanged sequence do.
* **`Emits.renamed`**, **`Emits.insert_label`**: the bytes of a sequence stay if its labels are renamed, and
  if a label is put where it parts no pushes.
* **`assemble_unchanged`**: what assembly works out itself does not count, and neither do the names
  of labels and labels that no branch needs.
-/

import ActionCode.Proofs.Derived.Measuring
import ActionCode.Proofs.Labels.Offsets

namespace ActionCode

/-! ### Spaced sequences -/

theorem spaced_split {action : Action} (other : action.isPush = false) {front back : List Action}
    (spaced : Spaced front) (spaced' : Spaced back) : Spaced (front ++ action :: back) := by
  refine List.isChain_append.mpr ⟨spaced, spaced'.cons fun next _ both => ?_, ?_⟩
  · exact Bool.false_ne_true (other.symm.trans both.1)
  · intro last _ first isFirst both
    obtain rfl := Option.some.inj isFirst
    exact Bool.false_ne_true (other.symm.trans both.2)

/-- **Merged pushes are spaced.** -/
theorem spaced_mergeRuns (actions : List Action) : Spaced (mergeRuns actions) := by
  have flushed : ∀ run : Array PushValue, Spaced (flushRun run #[]).toList := by
    intro run
    rw [toList_flushRun, List.nil_append]
    by_cases empty : run.toList = []
    · rw [empty]
      exact .nil
    · rw [joinRun_end empty]
      exact .singleton _
  have general : ∀ (actions : List Action) (run : Array PushValue),
      Spaced (mergeRunsFrom run #[] actions).toList := by
    intro actions
    induction actions with
    | nil => exact flushed
    | cons action rest ih =>
      intro run
      obtain ⟨value, rfl⟩ | other := action.push_or_other
      · rw [mergeRunsFrom]
        exact ih _
      · rw [mergeRunsFrom_other other, mergeRunsFrom_done, Array.toList_push, List.append_assoc]
        exact spaced_split other (flushed run) (ih #[])
  exact general actions #[]

variable {cast : Instruction → Instruction}

theorem Keeps.isPush_recast (keeps : Keeps cast) (action : Action) :
    (action.recast cast).isPush = action.isPush := by
  obtain ⟨value, rfl⟩ | other := action.push_or_other
  · rw [Action.recast, keeps.push]
  · rw [other, ActionCode.isPush_recast keeps other]

theorem Keeps.spaced_recastAll_iff (keeps : Keeps cast) {actions : List Action} :
    Spaced (recastAll cast actions) ↔ Spaced actions := by
  rw [Spaced, recastAll_eq_map, List.isChain_map]
  simp only [keeps.isPush_recast]
  rfl

/-- What merged pushes are resolved as is spaced. -/
theorem spaced_of_blank {actions others : List Action}
    (same : recastAll Instruction.blank (mergePushes actions) = recastAll Instruction.blank others) :
    Spaced others := by
  rw [← keeps_blank.spaced_recastAll_iff, ← same, keeps_blank.spaced_recastAll_iff, mergePushes,
    mapLevels_eq]
  exact spaced_mergeRuns _

/-! ### Settled pieces -/

/-- **Pieces with the same faces have the same closings**, if their blocks have the sizes that these
ask for. -/
theorem Closes.of_face {point : Point} {pieces others : List Piece} {sized : List Action}
    {stack : List Pending} (closes : Closes point pieces sized stack)
    (isSized : sized = pieces.map Piece.action)
    (same : pieces.map Piece.face = others.map Piece.face) :
    Closes point others (others.map Piece.action) stack := by
  induction closes generalizing others with
  | nil point =>
    rw [List.map_eq_nil_iff.mp same.symm]
    exact .nil point
  | flat flat later ih =>
    obtain ⟨action, others, rfl, block, closing, sames⟩ := exists_cons_of_faces same
    exact .flat ⟨block.symm.trans flat.block, closing.symm.trans flat.closing⟩
      (ih (List.cons.inj isSized).2 sames)
  | opening opens unsized spanned later ih =>
    obtain ⟨action, others, rfl, block, _, sames⟩ := exists_cons_of_faces same
    obtain ⟨isNew, isRest⟩ := List.cons.inj isSized
    rw [← isNew] at block
    obtain rfl := Action.eq_block_of_block? block.symm
    exact .opening rfl rfl spanned (ih isRest sames)
  | closing closes later ih =>
    obtain ⟨action, others, rfl, _, closing, sames⟩ := exists_cons_of_faces same
    rw [Piece.ofMarker, Action.closing?_marker closes] at closing
    obtain rfl := Action.eq_marker_of_closing? closing.symm
    exact .closing closes (ih (List.cons.inj isSized).2 sames)

/-- A label may go anywhere among closings. -/
theorem Closes.insert_label (label : Label) {front back : List Piece} {point : Point}
    {sized sized' : List Action} {stack : List Pending}
    (closes : Closes point (front ++ back) (sized ++ sized') stack)
    (full : sized.length = front.length) :
    Closes point (front ++ .ofMarker (.label label) :: back)
      (sized ++ .marker (.label label) :: sized') stack := by
  induction front generalizing point sized stack with
  | nil =>
    rw [List.eq_nil_of_length_eq_zero full] at closes ⊢
    exact .flat (Action.flat_label label) closes
  | cons piece front ih =>
    cases sized with
    | nil => cases full
    | cons first sized =>
      have full' := Nat.succ.inj full
      rw [List.cons_append, List.cons_append] at closes ⊢
      cases closes with
      | flat flat later => exact .flat flat (ih later full')
      | opening opens same spanned later => exact .opening opens same spanned (ih later full')
      | closing closes later => exact .closing closes (ih later full')

/-! ### Sequences that are emitted -/

/-- A sequence is written as some bytes once it is resolved. -/
def Emits (actions : List Action) (bytes : List UInt8) : Prop :=
  ∃ resolved, recastAll Instruction.blank (mergePushes actions) =
      recastAll Instruction.blank resolved ∧
    EveryLevel Settled resolved ∧ imageFrom false resolved = some bytes

/-- **A sequence is assembled to the bytes that it emits**, if it does not nest too deep. -/
theorem assemble_ok_iff_emits {settings : AssemblySettings} {actions : List Action}
    {bytes : List UInt8} :
    (assemble settings actions).result = .ok bytes ↔
      nesting actions ≤ settings.maxDepth ∧ Emits actions bytes := by
  rw [assemble_ok_iff]
  constructor
  · rintro ⟨resolved, isResolved, written⟩
    obtain ⟨shallow, same, every⟩ := resolve_ok_iff.mp isResolved
    exact ⟨shallow, resolved, same, every, written⟩
  · rintro ⟨shallow, resolved, same, every, written⟩
    exact ⟨resolved, resolve_ok_iff.mpr ⟨shallow, same, every⟩, written⟩

/-- In a spaced sequence every action is a piece of its own. -/
theorem Settled.of_alone {actions others : List Action} (settled : Settled actions)
    (spaced : Spaced actions) (spaced' : Spaced others)
    (aimed : Aimed (actions.map Action.alone) → Aimed (others.map Action.alone))
    (closes : Closes ⟨0, 0⟩ (actions.map Action.alone) actions [] →
      Closes ⟨0, 0⟩ (others.map Action.alone) others []) : Settled others := by
  rw [Settled, Measured, Extent.pieces_start spaced] at settled
  rw [Settled, Measured, Extent.pieces_start spaced']
  exact ⟨aimed settled.1, closes settled.2⟩

/-- Only labels, branches and their places decide whether branches are aimed. -/
theorem Aimed.of_marks {pieces others : List Piece} (aimed : Aimed pieces)
    (labels : labelMarks others = labelMarks pieces)
    (branches : branchMarks others = branchMarks pieces) : Aimed others where
  once := by rw [labels]; exact aimed.once
  hits := by rw [labels, branches]; exact aimed.hits

/-! ### One sequence in place of another -/

/-- One sequence takes the place of another, which is all of some actions or the code of a definition
at any level. -/
inductive Exchanged (old new : List Action) : List Action → List Action → Prop
  | whole : Exchanged old new old new
  | inside {body other : List Action} (exchanged : Exchanged old new body other)
      (front : List Action) (signature : Signature) (back : List Action) :
      Exchanged old new (front ++ .define signature body :: back)
        (front ++ .define signature other :: back)

theorem Exchanged.nesting_le {old new first second : List Action}
    (exchanged : Exchanged old new first second) (shallow : nesting new ≤ nesting old) :
    nesting second ≤ nesting first := by
  induction exchanged with
  | whole => exact shallow
  | @inside body other _ front signature back ih =>
    have own := nesting_le_iff.mp (Nat.le_refl (nesting (front ++ .define signature body :: back)))
    refine nesting_le_iff.mpr fun action inside => ?_
    obtain early | late := List.mem_append.mp inside
    · exact own action (List.mem_append_left _ early)
    · obtain rfl | late := List.mem_cons.mp late
      · have bound := own (.define signature body)
          (List.mem_append_right _ List.mem_cons_self)
        rw [Action.nesting] at bound ⊢
        exact Nat.le_trans (Nat.succ_le_succ ih) bound
      · exact own action (List.mem_append_right _ (List.mem_cons_of_mem _ late))

theorem recastAll_append (cast : Instruction → Instruction) (front back : List Action) :
    recastAll cast (front ++ back) = recastAll cast front ++ recastAll cast back := by
  rw [recastAll_eq_map, recastAll_eq_map, recastAll_eq_map, List.map_append]

/-- Code of the same length in the same place leaves a sequence settled. -/
theorem Settled.replace_body {front back code other : List Action} {signature : Signature}
    (settled : Settled (front ++ .define signature code :: back))
    (spaced : Spaced (front ++ .define signature code :: back))
    (spaced' : Spaced (front ++ .define signature other :: back))
    (length : encodedLength other = encodedLength code) :
    Settled (front ++ .define signature other :: back) := by
  have width : (Action.define signature other).width = (Action.define signature code).width := by
    rw [Action.width, Action.width]
    exact congrArg _ length
  have alike : (Action.define signature other).alone =
      (Action.define signature code).alone.withAction fun _ => .define signature other := by
    rw [Action.alone, width]
    rfl
  have marks : ∀ {β : Type} (view : Action → Option β),
      view (.define signature other) = none → view (.define signature code) = none →
        marksOf view 0 ((front ++ .define signature other :: back).map Action.alone) =
          marksOf view 0 ((front ++ .define signature code :: back).map Action.alone) := by
    intro β view unseen unseen'
    rw [List.map_append, List.map_append, List.map_cons, List.map_cons, marksOf_append,
      marksOf_append, marksOf, marksOf, alike]
    dsimp only [Action.alone, Piece.withAction]
    rw [unseen, unseen']
  refine settled.of_alone spaced spaced'
    (fun aimed => aimed.of_marks (marks _ rfl rfl) (marks _ rfl rfl)) fun closes => ?_
  have faces : ((front ++ .define signature code :: back).map Action.alone).map Piece.face =
      ((front ++ .define signature other :: back).map Action.alone).map Piece.face := by
    simp only [List.map_append, List.map_cons, alike]
    rfl
  have kept := closes.of_face (map_action_alone _).symm faces
  rwa [map_action_alone] at kept

/-- **Code that emits the same bytes may take the place of other code.** -/
theorem Emits.replace_body {front back body other : List Action} {signature : Signature}
    {bytes : List UInt8} (emits : Emits (front ++ .define signature body :: back) bytes)
    (inner : ∀ code, Emits body code → Emits other code) :
    Emits (front ++ .define signature other :: back) bytes := by
  obtain ⟨resolved, same, ⟨settled, every⟩, written⟩ := emits
  have spaced := spaced_of_blank same
  rw [mergePushes_split rfl, Action.mapInside_define] at same
  obtain ⟨part, next, rest, rfl, sameFront, sameNext, sameRest⟩ := exists_split_of_recastAll same
  cases next with
  | plain instruction => cases sameNext
  | marker found => cases sameNext
  | define signature' code =>
    rw [Action.recast, Action.recast] at sameNext
    obtain ⟨rfl, sameBody⟩ := Action.define.inj sameNext
    rw [imageFrom_split rfl] at written
    obtain ⟨early, later, isEarly, isLater, rfl⟩ := joined_eq_some_iff.mp written
    obtain ⟨record, late, isRecord, isLate, rfl⟩ := joined_eq_some_iff.mp isLater
    rw [Action.image] at isRecord
    obtain ⟨head, codeBytes, isHead, isCode, rfl⟩ := joined_eq_some_iff.mp isRecord
    have everyBody : ∀ body ∈ bodiesOf (part ++ .define signature code :: rest),
        EveryLevel Settled body := allCodeHolds_iff_bodies.mp every
    rw [bodiesOf, List.filterMap_append] at everyBody
    obtain ⟨code', sameBody', every', written'⟩ := inner codeBytes ⟨code, sameBody,
      everyBody code (List.mem_append_right _ List.mem_cons_self), isCode⟩
    have length : encodedLength code' = encodedLength code := by
      rw [length_of_sequence written', length_of_sequence isCode]
    have same' : recastAll Instruction.blank (mergePushes (front ++ .define signature other :: back)) =
        recastAll Instruction.blank (part ++ .define signature code' :: rest) := by
      rw [mergePushes_split rfl, Action.mapInside_define, recastAll_append, recastAll_append,
        recastAll, recastAll, Action.recast, Action.recast, sameFront, sameRest]
      exact congrArg (fun body => _ ++ Action.define signature body :: _) sameBody'
    refine ⟨part ++ .define signature code' :: rest, same',
      ⟨settled.replace_body spaced (spaced_of_blank same') length, allCodeHolds_iff_bodies.mpr ?_⟩, ?_⟩
    · rw [bodiesOf, List.filterMap_append]
      intro body inside
      obtain inside | inside := List.mem_append.mp inside
      · exact everyBody body (List.mem_append_left _ inside)
      · obtain rfl | inside := List.mem_cons.mp inside
        · exact every'
        · exact everyBody body (List.mem_append_right _ (List.mem_cons_of_mem _ inside))
    · rw [imageFrom_split rfl, isEarly, isLate, Action.image, length, isHead, written']
      rfl

/-- **The bytes of a sequence stay if those of an exchanged one do.** -/
theorem Exchanged.emits {old new first second : List Action}
    (exchanged : Exchanged old new first second)
    (keeps : ∀ bytes, Emits old bytes → Emits new bytes) {bytes : List UInt8}
    (emits : Emits first bytes) : Emits second bytes := by
  induction exchanged generalizing bytes with
  | whole => exact keeps bytes emits
  | inside _ front signature back ih => exact emits.replace_body fun code => ih

/-! ### Names of labels -/

/-- An action with other names for labels. -/
def Action.renamed (names : Label → Label) : Action → Action
  | .plain (.branch branch) => .plain (.branch { branch with label := branch.label.map names })
  | .marker (.label label) => .marker (.label (names label))
  | action => action

variable {names : Label → Label}

theorem spares_renamed (names : Label → Label) : Spares (Action.renamed names) where
  pushed action := by
    unfold Action.renamed
    split <;> rfl
  same action some := by
    unfold Action.renamed
    split
    · exact absurd rfl some
    · exact absurd rfl some
    · rfl

theorem Action.mapInside_renamed (pass : List Action → List Action) (action : Action) :
    (action.renamed names).mapInside pass = (action.mapInside pass).renamed names := by
  cases action with
  | plain instruction =>
    rw [mapInside_plain]
    cases instruction <;> exact mapInside_plain pass _
  | define signature body =>
    rw [mapInside_define]
    exact mapInside_define pass signature body
  | marker found =>
    rw [mapInside_marker]
    cases found <;> exact mapInside_marker pass _

theorem Action.recast_renamed (action : Action) :
    (action.renamed names).recast Instruction.blank =
      (action.recast Instruction.blank).renamed names := by
  cases action with
  | plain instruction =>
    cases instruction with
    | branch branch =>
      obtain ⟨conditional, offset, _ | label⟩ := branch
      · rfl
      · rfl
    | _ => rfl
  | define signature body => rfl
  | marker found => cases found <;> rfl

theorem mergePushes_renamed (actions : List Action) :
    mergePushes (actions.map (Action.renamed names)) =
      (mergePushes actions).map (Action.renamed names) := by
  have past : (actions.map (Action.renamed names)).map (Action.mapInside mergeRuns) =
      (actions.map (Action.mapInside mergeRuns)).map (Action.renamed names) := by
    rw [List.map_map, List.map_map]
    exact List.map_congr_left fun action _ => Action.mapInside_renamed mergeRuns action
  have runs := (spares_renamed names).map_mergeRunsFrom #[] #[]
    (actions.map (Action.mapInside mergeRuns))
  rw [Array.map_empty] at runs
  rw [mergePushes, mergePushes, mapLevels_eq, mapLevels_eq, past, mergeRuns, mergeRuns]
  exact (congrArg Array.toList runs).trans Array.toList_map

theorem Action.image_renamed (action : Action) : (action.renamed names).image = action.image := by
  cases action with
  | plain instruction =>
    cases instruction with
    | branch branch => rw [renamed, Branch.image_eq, Branch.image_eq]; rfl
    | _ => rfl
  | define signature body => rfl
  | marker found =>
    cases found <;> rfl

theorem imageAll_renamed (actions : List Action) :
    imageAll (actions.map (Action.renamed names)) = imageAll actions := by
  induction actions with
  | nil => rfl
  | cons action rest ih => rw [List.map_cons, imageAll, imageAll, ih, Action.image_renamed]

theorem Action.alone_renamed (action : Action) :
    (action.renamed names).alone = action.alone.withAction (Action.renamed names) := by
  cases action with
  | plain instruction => cases instruction <;> rfl
  | define signature body => rfl
  | marker found => cases found <;> rfl

theorem Action.nesting_renamed (action : Action) :
    (action.renamed names).nesting = action.nesting := by
  cases action with
  | plain instruction => cases instruction <;> rfl
  | define signature body => rfl
  | marker found => cases found <;> rfl

/-- What is made of changed actions is where it was, changed. -/
theorem marksOf_changed {β : Type} {view : Action → Option β} {change : Action → Action}
    {change' : β → β} (changes : ∀ action, view (change action) = (view action).map change')
    (position : Nat) (pieces : List Piece) :
    marksOf view position (pieces.map (Piece.withAction change)) =
      (marksOf view position pieces).map (Prod.map change' id) := by
  induction pieces generalizing position with
  | nil => rfl
  | cons piece rest ih =>
    rw [List.map_cons, marksOf, marksOf, List.map_append, ← ih]
    dsimp only [Piece.withAction]
    rw [changes]
    cases view piece.action <;> rfl

theorem Action.label?_renamed (action : Action) :
    (action.renamed names).label? = action.label?.map names := by
  cases action with
  | plain instruction => cases instruction <;> rfl
  | define signature body => rfl
  | marker found => cases found <;> rfl

/-- A branch with another name for its label. -/
def Branch.renamed (names : Label → Label) (branch : Branch) : Branch :=
  { branch with label := branch.label.map names }

theorem Action.branch?_renamed (action : Action) :
    (action.renamed names).branch? = action.branch?.map (Branch.renamed names) := by
  cases action with
  | plain instruction => cases instruction <;> rfl
  | define signature body => rfl
  | marker found => cases found <;> rfl

/-- **Branches go to their labels under other names**, if these are different for different
labels. -/
theorem Aimed.renamed {pieces : List Piece} (aimed : Aimed pieces)
    (injective : ∀ first ∈ (labelMarks pieces).map Prod.fst,
      ∀ second ∈ (labelMarks pieces).map Prod.fst, names first = names second → first = second) :
    Aimed (pieces.map (Piece.withAction (Action.renamed names))) := by
  have labels := marksOf_changed (@Action.label?_renamed names) 0 pieces
  have branches := marksOf_changed (@Action.branch?_renamed names) 0 pieces
  refine ⟨?_, fun mark inside label isLabel => ?_⟩
  · rw [labelMarks, labels, List.map_map]
    exact (List.map_map .. ▸ aimed.once.map_on injective :)
  · rw [branchMarks, branches] at inside
    obtain ⟨⟨branch, place⟩, isBranch, rfl⟩ := List.mem_map.mp inside
    obtain ⟨own, isOwn, rfl⟩ := Option.map_eq_some_iff.mp isLabel
    obtain ⟨target, placed, goes⟩ := aimed.hits _ isBranch own isOwn
    refine ⟨target, ?_, goes⟩
    rw [labelMarks, labels]
    exact List.mem_map.mpr ⟨_, placed, rfl⟩

theorem face_renamed (piece : Piece) :
    (piece.withAction (Action.renamed names)).face = piece.face := by
  obtain ⟨action, bytes, records⟩ := piece
  cases action with
  | plain instruction => cases instruction <;> rfl
  | define signature body => rfl
  | marker found => cases found <;> rfl

theorem labels_of_blank {actions others : List Action}
    (same : recastAll Instruction.blank (mergePushes actions) = recastAll Instruction.blank others) :
    others.filterMap Action.label? = actions.filterMap Action.label? := by
  rw [recastAll_eq_map, recastAll_eq_map] at same
  rw [← filterMap_of_map (label?_recast Instruction.blank) same, labels_mergePushes]

/-- **Names of labels do not count**, if they are different for different labels. -/
theorem Emits.renamed {actions : List Action} {bytes : List UInt8} (emits : Emits actions bytes)
    (injective : ∀ first ∈ actions.filterMap Action.label?,
      ∀ second ∈ actions.filterMap Action.label?, names first = names second → first = second) :
    Emits (actions.map (Action.renamed names)) bytes := by
  obtain ⟨resolved, same, ⟨settled, every⟩, written⟩ := emits
  have spaced := spaced_of_blank same
  rw [← labels_of_blank same] at injective
  have same' : recastAll Instruction.blank (mergePushes (actions.map (Action.renamed names))) =
      recastAll Instruction.blank (resolved.map (Action.renamed names)) := by
    have goesPast : ∀ others : List Action,
        recastAll Instruction.blank (others.map (Action.renamed names)) =
          (recastAll Instruction.blank others).map (Action.renamed names) := by
      intro others
      rw [recastAll_eq_map, recastAll_eq_map, List.map_map, List.map_map]
      exact List.map_congr_left fun action _ => Action.recast_renamed action
    rw [mergePushes_renamed, goesPast, same, goesPast]
  have spaced' := spaced_of_blank same'
  have pieces : (resolved.map (Action.renamed names)).map Action.alone =
      (resolved.map Action.alone).map (Piece.withAction (Action.renamed names)) := by
    rw [List.map_map, List.map_map]
    exact List.map_congr_left fun action _ => Action.alone_renamed action
  refine ⟨_, same', ⟨settled.of_alone spaced spaced' (fun aimed => ?_) (fun closes => ?_), ?_⟩, ?_⟩
  · rw [pieces]
    refine aimed.renamed ?_
    rw [map_fst_labelMarks, map_action_alone]
    exact injective
  · have faces : (resolved.map Action.alone).map Piece.face =
        ((resolved.map (Action.renamed names)).map Action.alone).map Piece.face := by
      rw [pieces]
      refine Eq.trans ?_ List.map_map.symm
      exact List.map_congr_left fun piece _ => (face_renamed piece).symm
    have kept := closes.of_face (map_action_alone _).symm faces
    rwa [map_action_alone] at kept
  · rw [allCodeHolds_iff_bodies] at every ⊢
    have bodies : bodiesOf (resolved.map (Action.renamed names)) = bodiesOf resolved := by
      rw [bodiesOf, List.filterMap_map]
      refine List.filterMap_congr fun action _ => ?_
      rw [Function.comp_apply]
      unfold Action.renamed
      split <;> rfl
    rwa [bodies]
  · rw [imageFrom_of_spaced spaced] at written
    rw [imageFrom_of_spaced spaced', ← written, imageAll_renamed]

/-! ### Labels that no branch needs -/

/-- A label at one more place leaves branches aimed, if it is not there yet. -/
theorem Aimed.insert_label {front back : List Piece} {label : Label} (aimed : Aimed (front ++ back))
    (fresh : label ∉ (labelMarks (front ++ back)).map Prod.fst) :
    Aimed (front ++ .ofMarker (.label label) :: back) := by
  have labels : labelMarks (front ++ .ofMarker (.label label) :: back) =
      marksOf Action.label? 0 front ++ (label, 0 + (front.map Piece.bytes).sum) ::
        marksOf Action.label? (0 + (front.map Piece.bytes).sum) back := by
    rw [labelMarks, marksOf_append]
    rfl
  have branches : branchMarks (front ++ .ofMarker (.label label) :: back) =
      branchMarks (front ++ back) := by
    rw [branchMarks, branchMarks, marksOf_append, marksOf_append]
    rfl
  have old : labelMarks (front ++ back) = marksOf Action.label? 0 front ++
      marksOf Action.label? (0 + (front.map Piece.bytes).sum) back := marksOf_append ..
  rw [old, List.map_append] at fresh
  refine ⟨?_, fun mark inside own isOwn => ?_⟩
  · have once := aimed.once
    rw [old, List.map_append] at once
    rw [labels, List.map_append, List.map_cons]
    exact List.nodup_middle.mpr (List.nodup_cons.mpr ⟨fresh, once⟩)
  · rw [branches] at inside
    obtain ⟨target, placed, goes⟩ := aimed.hits mark inside own isOwn
    rw [old] at placed
    refine ⟨target, ?_, goes⟩
    rw [labels]
    obtain early | late := List.mem_append.mp placed
    · exact List.mem_append_left _ early
    · exact List.mem_append_right _ (List.mem_cons_of_mem _ late)

theorem imageAll_insert_label (label : Label) (front back : List Action) :
    imageAll (front ++ .marker (.label label) :: back) = imageAll (front ++ back) := by
  induction front with
  | nil => exact joined_nil_some _
  | cons action rest ih => rw [List.cons_append, List.cons_append, imageAll, imageAll, ih]

/-- **A label that is not there yet may be put anywhere** but between two single pushes. -/
theorem Emits.insert_label {front back : List Action} {bytes : List UInt8} {label : Label}
    (emits : Emits (front ++ back) bytes) (parted : Parted front back)
    (fresh : label ∉ (front ++ back).filterMap Action.label?) :
    Emits (front ++ .marker (.label label) :: back) bytes := by
  obtain ⟨resolved, same, ⟨settled, every⟩, written⟩ := emits
  have spaced := spaced_of_blank same
  rw [← labels_of_blank same] at fresh
  rw [mergePushes_append parted, recastAll_append, recastAll_eq_map _ resolved] at same
  obtain ⟨part, rest, rfl, isPart, isRest⟩ := List.map_eq_append_iff.mp same.symm
  have same' : recastAll Instruction.blank (mergePushes (front ++ .marker (.label label) :: back)) =
      recastAll Instruction.blank (part ++ .marker (.label label) :: rest) := by
    rw [mergePushes_split rfl, Action.mapInside_marker, recastAll_append, recastAll_append,
      ← isPart, recastAll, recastAll, ← isRest, recastAll_eq_map _ part, recastAll_eq_map _ rest]
  have spaced' := spaced_of_blank same'
  refine ⟨_, same', ⟨settled.of_alone spaced spaced' (fun aimed => ?_) (fun closes => ?_), ?_⟩, ?_⟩
  · rw [List.map_append] at aimed ⊢
    refine aimed.insert_label ?_
    rw [← List.map_append, map_fst_labelMarks, map_action_alone]
    exact fresh
  · rw [List.map_append] at closes ⊢
    exact closes.insert_label label (List.length_map _).symm
  · rw [allCodeHolds_iff_bodies, bodiesOf, List.filterMap_append] at every ⊢
    exact every
  · rw [imageFrom_of_spaced spaced] at written
    rw [imageFrom_of_spaced spaced', imageAll_insert_label, written]

/-! ### Assembling -/

/-- **Assembly ignores what it works out itself.** Sequences that differ, at any level, only in the
offsets of labelled branches, in sizes and skip counts, in operand counts and in flag bits that
follow from other fields are assembled to the same bytes or fail with the same fault. And the bytes
stay if the labels of one sequence are given other names, or if it is given one more label that parts
no two single pushes. -/
theorem assemble_unchanged (settings : AssemblySettings) :
    (∀ actions others,
      recastAll Instruction.essence actions = recastAll Instruction.essence others →
        assemble settings actions = assemble settings others) ∧
    ∀ actions bytes, (assemble settings actions).result = .ok bytes →
      (∀ names code edited, Exchanged code (code.map (Action.renamed names)) actions edited →
        (∀ first ∈ code.filterMap Action.label?, ∀ second ∈ code.filterMap Action.label?,
          names first = names second → first = second) →
        (assemble settings edited).result = .ok bytes) ∧
      ∀ front back label edited,
        Exchanged (front ++ back) (front ++ .marker (.label label) :: back) actions edited →
        label ∉ (front ++ back).filterMap Action.label? → Parted front back →
        (assemble settings edited).result = .ok bytes := by
  refine ⟨fun actions others same => ?_, fun actions bytes success => ?_⟩
  · rw [← assemble_essence, same, assemble_essence]
  · obtain ⟨shallow, emits⟩ := assemble_ok_iff_emits.mp success
    refine ⟨fun names code edited exchanged injective => ?_,
      fun front back label edited exchanged fresh parted => ?_⟩
    · refine assemble_ok_iff_emits.mpr ⟨Nat.le_trans (exchanged.nesting_le ?_) shallow,
        exchanged.emits (fun _ inner => inner.renamed injective) emits⟩
      refine nesting_le_iff.mpr fun action inside => ?_
      obtain ⟨own, isOwn, rfl⟩ := List.mem_map.mp inside
      rw [Action.nesting_renamed]
      exact nesting_le_iff.mp (Nat.le_refl _) own isOwn
    · refine assemble_ok_iff_emits.mpr ⟨Nat.le_trans (exchanged.nesting_le ?_) shallow,
        exchanged.emits (fun _ inner => inner.insert_label parted fresh) emits⟩
      refine nesting_le_iff.mpr fun action inside => ?_
      obtain early | late := List.mem_append.mp inside
      · exact nesting_le_iff.mp (Nat.le_refl _) action (List.mem_append_left _ early)
      · obtain rfl | late := List.mem_cons.mp late
        · exact Nat.zero_le _
        · exact nesting_le_iff.mp (Nat.le_refl _) action (List.mem_append_right _ late)

/-- A branch inside a definition, with a stale offset, with another name for its label, and with a
label that it does not need. -/
theorem assemble_unchanged_branch :
    assemble ⟨4⟩ [.define (.simple "f" []) [.plain (.branch ⟨false, 7, some ⟨1⟩⟩),
        .marker (.label ⟨1⟩)]] =
      assemble ⟨4⟩ [.define (.simple "f" []) [.plain (.branch ⟨false, 0, some ⟨1⟩⟩),
        .marker (.label ⟨1⟩)]] ∧
    (assemble ⟨4⟩ [.define (.simple "f" []) [.plain (.branch ⟨false, 7, some ⟨5⟩⟩),
        .marker (.label ⟨5⟩)]]).result =
      .ok [0x9b, 6, 0, 0x66, 0, 0, 0, 5, 0, 0x99, 2, 0, 0, 0] ∧
    (assemble ⟨4⟩ [.define (.simple "f" []) [.marker (.label ⟨9⟩),
        .plain (.branch ⟨false, 7, some ⟨1⟩⟩), .marker (.label ⟨1⟩)]]).result =
      .ok [0x9b, 6, 0, 0x66, 0, 0, 0, 5, 0, 0x99, 2, 0, 0, 0] := by
  obtain ⟨renames, inserts⟩ := (assemble_unchanged ⟨4⟩).2
    [.define (.simple "f" []) [.plain (.branch ⟨false, 7, some ⟨1⟩⟩), .marker (.label ⟨1⟩)]]
    [0x9b, 6, 0, 0x66, 0, 0, 0, 5, 0, 0x99, 2, 0, 0, 0] (by decide +kernel)
  refine ⟨(assemble_unchanged ⟨4⟩).1 _ _ (by decide +kernel), ?_, ?_⟩
  · exact renames (fun _ => ⟨5⟩) [.plain (.branch ⟨false, 7, some ⟨1⟩⟩), .marker (.label ⟨1⟩)] _
      (.inside .whole [] _ []) (by decide)
  · exact inserts [] [.plain (.branch ⟨false, 7, some ⟨1⟩⟩), .marker (.label ⟨1⟩)] ⟨9⟩ _
      (.inside .whole [] _ []) (by decide) fun _ none => (by cases none)

end ActionCode
