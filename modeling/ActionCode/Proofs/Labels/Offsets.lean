/-
**Branch offsets are exact.**

* `BytesBefore`: the bytes that the actions before a place are emitted as.
* `BranchesExact`: each branch of a sequence is emitted behind those bytes, with the offset that it
  has, or the one that leads to its label.
* **`resolveBranches_fails_iff`**: the branches of a sequence have no offsets exactly if it is
  `Misbranched` at some level.
* **`offsets_exact`**: both at every level.
-/

import ActionCode.Proofs.Merging.Shrinking
import ActionCode.Proofs.Merging.Sides

namespace ActionCode

/-! ### Places in sequences -/

/-- What an action is, is where the actions before it end. -/
theorem mem_marksOf_pieces {β : Type} {view : Action → Option β} {before : Extent}
    {actions : List Action} {found : β} {place : Nat} :
    (found, place) ∈ marksOf view before.bytes (before.pieces actions) ↔
      ∃ front action back, actions = front ++ action :: back ∧ view action = some found ∧
        place = (before.through front).bytes := by
  induction actions generalizing before with
  | nil =>
    refine iff_of_false (fun inside => (by cases inside)) ?_
    rintro ⟨front, action, back, split, _⟩
    exact List.append_ne_nil_of_right_ne_nil front (List.cons_ne_nil action back) split.symm
  | cons action rest ih =>
    have here : before.bytes + (before.piece action).bytes = (before.advance action).bytes :=
      congrArg Point.bytes (before.after_piece action)
    rw [Extent.pieces, marksOf_cons_iff, here, ih]
    constructor
    · rintro (⟨seen, rfl⟩ | ⟨front, next, back, rfl, seen, rfl⟩)
      · exact ⟨[], action, rest, rfl, seen, by rw [Extent.through]⟩
      · exact ⟨action :: front, next, back, rfl, seen, by rw [Extent.through, Extent.advance]⟩
    · rintro ⟨front, next, back, split, seen, rfl⟩
      cases front with
      | nil =>
        obtain ⟨rfl, rfl⟩ := List.cons.inj split
        exact .inl ⟨seen, by rw [Extent.through]⟩
      | cons first front =>
        obtain ⟨rfl, rfl⟩ := List.cons.inj split
        exact .inr ⟨front, next, back, rfl, seen, by rw [Extent.through, Extent.advance]⟩

/-- What only one action is, is where the actions before that action end. -/
theorem mem_marksOf_start {β : Type} {view : Action → Option β} {found : β} {shown : Action}
    (shows : ∀ action, view action = some found ↔ action = shown) {actions : List Action}
    {place : Nat} :
    (found, place) ∈ marksOf view 0 (Extent.start.pieces actions) ↔
      ∃ front back, actions = front ++ shown :: back ∧ place = encodedLength front := by
  constructor
  · intro inside
    obtain ⟨front, action, back, split, seen, here⟩ :=
      (@mem_marksOf_pieces _ view Extent.start _ _ _).mp inside
    obtain rfl := (shows action).mp seen
    exact ⟨front, back, split, here⟩
  · rintro ⟨front, back, split, here⟩
    exact (@mem_marksOf_pieces _ view Extent.start _ _ _).mpr
      ⟨front, shown, back, split, (shows shown).mpr rfl, here⟩

/-- The labels of a sequence are where the actions before them end. -/
theorem mem_labelMarks_iff {actions : List Action} {label : Label} {place : Nat} :
    (label, place) ∈ labelMarks (Extent.start.pieces actions) ↔
      ∃ front back, actions = front ++ .marker (.label label) :: back ∧
        place = encodedLength front :=
  mem_marksOf_start Action.label?_eq_some_iff

/-- The branches of a sequence are where the actions before them end. -/
theorem mem_branchMarks_iff {actions : List Action} {branch : Branch} {place : Nat} :
    (branch, place) ∈ branchMarks (Extent.start.pieces actions) ↔
      ∃ front back, actions = front ++ .plain (.branch branch) :: back ∧
        place = encodedLength front :=
  mem_marksOf_start Action.branch?_eq_some_iff

theorem map_fst_labelMarks_pieces (actions : List Action) :
    (labelMarks (Extent.start.pieces actions)).map Prod.fst = actions.filterMap Action.label? := by
  rw [map_fst_labelMarks, Extent.map_action_pieces]

/-! ### Bytes before a place -/

theorem pushRun_split {action : Action} (other : action.isPush = false) (count bytes : Nat)
    (front back : List Action) :
    pushRun count bytes (front ++ action :: back) = pushRun count bytes front := by
  induction front generalizing count bytes with
  | nil => exact pushRun_other other count bytes back
  | cons first front ih =>
    obtain ⟨value, rfl⟩ | other' := first.push_or_other
    · exact ih (count + 1) (bytes + value.width)
    · rw [List.cons_append, pushRun_other other', pushRun_other other']

/-- The image of a sequence begins with that of what stands before an action that is no single
push. -/
theorem imageFrom_split {action : Action} (other : action.isPush = false) (inRun : Bool)
    (front back : List Action) :
    imageFrom inRun (front ++ action :: back) =
      joined (imageFrom inRun front) (joined action.image (imageFrom false back)) := by
  induction front generalizing inRun with
  | nil =>
    rw [List.nil_append, imageFrom_cons other, imageFrom, joined_nil_some]
  | cons first front ih =>
    obtain ⟨value, rfl⟩ | other' := first.push_or_other
    · rw [List.cons_append, imageFrom, imageFrom, ih, pushRun_split other, joined_assoc,
        joined_assoc]
    · rw [List.cons_append, imageFrom_cons other', imageFrom_cons other', ih, joined_assoc]

/-- The actions before a place of a sequence are emitted as the first bytes of what the sequence is
resolved as. -/
def BytesBefore (front emitted : List Action) (bytes : List UInt8) : Prop :=
  ∃ part rest, emitted = part ++ rest ∧
    recastAll Instruction.blank (mergePushes front) = recastAll Instruction.blank part ∧
    (writeSequence part).run = (.ok (), bytes)

/-- The record of a branch with an offset. -/
def Branch.record (branch : Branch) (offset : Int16) : List UInt8 :=
  branch.opcode.byte :: (Bytes.toBytes 2 2 ++ Bytes.toBytes 2 offset.toUInt16.toNat)

/-- **Each branch of a sequence is emitted behind what stands before it**: with its own offset if it
has no label, and else with the one that leads to its label, which its sequence places. -/
def BranchesExact (actions emitted : List Action) : Prop :=
  ∃ code, (writeSequence emitted).run = (.ok (), code) ∧
    ∀ front branch back, actions = front ++ .plain (.branch branch) :: back →
      ∃ before offset after, BytesBefore front emitted before ∧
        code = before ++ (branch.record offset ++ after) ∧
        (branch.label = none → offset = branch.offset) ∧
        ∀ label, branch.label = some label →
          .marker (.label label) ∈ actions ∧
          ∀ front' back', actions = front' ++ .marker (.label label) :: back' →
            ∃ before', BytesBefore front' emitted before' ∧
              (before.length : Int) + 5 + offset.toInt = before'.length

theorem Branch.image_eq (branch : Branch) :
    (Action.plain (.branch branch)).image = some (branch.record branch.offset) := by
  obtain ⟨conditional, offset, label⟩ := branch
  cases conditional <;> rfl

/-- Where one sequence is split, another is that a cast makes equal. -/
theorem exists_split_of_recastAll {cast : Instruction → Instruction} {action : Action}
    {front back others : List Action}
    (same : recastAll cast (front ++ action :: back) = recastAll cast others) :
    ∃ part next rest, others = part ++ next :: rest ∧
      recastAll cast front = recastAll cast part ∧ action.recast cast = next.recast cast ∧
      recastAll cast back = recastAll cast rest := by
  simp only [recastAll_eq_map, List.map_append, List.map_cons] at same ⊢
  obtain ⟨part, later, rfl, isPart, isLater⟩ := List.map_eq_append_iff.mp same.symm
  obtain ⟨next, rest, rfl, isNext, isRest⟩ := List.map_eq_cons_iff.mp isLater
  exact ⟨part, next, rest, rfl, isPart.symm, isNext.symm, isRest.symm⟩

/-- What is blank as a branch is one with the same label, and with the same offset if there is no
label. -/
theorem Action.eq_branch_of_blank {branch : Branch} {action : Action}
    (same : (Action.plain (.branch branch)).recast Instruction.blank =
      action.recast Instruction.blank) :
    ∃ offset, action = .plain (.branch { branch with offset := offset }) ∧
      (branch.label = none → offset = branch.offset) := by
  cases action with
  | plain instruction =>
    have other : ∀ block, (Instruction.branch branch).unaimed ≠ .block block := fun block equal => by
      cases equal
    obtain ⟨conditional, offset, label⟩ := branch
    obtain ⟨block, rfl⟩ | ⟨blank, _⟩ := instruction.block_or_blank_eq
    · cases block <;> cases same
    · have equal : (Action.plain (.branch ⟨conditional, offset, label⟩)).recastShell
          Instruction.unaimed = (Action.plain instruction).recastShell Instruction.unaimed := by
        refine Eq.trans ?_ (same.trans (congrArg Action.plain blank))
        cases label <;> rfl
      exact recastShell_branch_eq_iff.mp equal
  | define signature body => cases same
  | marker found => cases same

/-- A label is placed exactly if it is among the labels. -/
theorem mem_labels_iff {actions : List Action} {label : Label} :
    label ∈ actions.filterMap Action.label? ↔ .marker (.label label) ∈ actions := by
  rw [List.mem_filterMap]
  exact ⟨fun ⟨action, inside, isLabel⟩ => (Action.label?_eq_some_iff action).mp isLabel ▸ inside,
    fun inside => ⟨_, inside, rfl⟩⟩

section

variable {actions emitted : List Action} {code : List UInt8}

/-- Before a place, the emitted bytes are those of what the actions before it are resolved as. -/
theorem exists_bytesBefore {action : Action} (other : action.isPush = false)
    {front back : List Action}
    (same : recastAll Instruction.blank (mergePushes (front ++ action :: back)) =
      recastAll Instruction.blank emitted)
    (written : imageFrom false emitted = some code) :
    ∃ part next rest before, emitted = part ++ next :: rest ∧
      (action.mapInside mergeRuns).recast Instruction.blank = next.recast Instruction.blank ∧
      BytesBefore front emitted before ∧ encodedLength part = before.length ∧
      ∃ record after, next.image = some record ∧ code = before ++ (record ++ after) := by
  rw [mergePushes_split other] at same
  obtain ⟨part, next, rest, rfl, sameFront, sameNext, _⟩ := exists_split_of_recastAll same
  have spares := sparesPushes_blank.recast
  have other' : next.isPush = false := by
    rw [← spares.isPush, ← sameNext, spares.isPush, Action.isPush_mapInside, other]
  rw [imageFrom_split other'] at written
  obtain ⟨before, later, isBefore, isLater, isCode⟩ := joined_eq_some_iff.mp written
  obtain ⟨record, after, isRecord, _, rfl⟩ := joined_eq_some_iff.mp isLater
  exact ⟨part, next, rest, before, rfl, sameNext,
    ⟨part, next :: rest, rfl, sameFront,
      (Writer.run_ok_iff (writeFrom_images false part)).mpr isBefore⟩,
    length_of_sequence isBefore, record, after, isRecord, isCode⟩

/-- Labels are placed where they are in a resolved sequence. -/
theorem mem_label_iff_of_blank (same : recastAll Instruction.blank (mergePushes actions) =
    recastAll Instruction.blank emitted) {label : Label} :
    .marker (.label label) ∈ actions ↔ .marker (.label label) ∈ emitted := by
  rw [recastAll_eq_map, recastAll_eq_map] at same
  rw [← mem_labels_iff, ← mem_labels_iff, ← labels_mergePushes,
    filterMap_of_map (label?_recast _) same]

/-- **Branches of a settled sequence are exact.** -/
theorem branchesExact_of_settled (same : recastAll Instruction.blank (mergePushes actions) =
      recastAll Instruction.blank emitted) (settled : Settled emitted)
    (written : imageFrom false emitted = some code) : BranchesExact actions emitted := by
  refine ⟨code, (Writer.run_ok_iff (writeFrom_images false emitted)).mpr written, ?_⟩
  rintro front branch back rfl
  obtain ⟨part, next, rest, before, split, sameNext, isBefore, length, record, after, isRecord,
    isCode⟩ := exists_bytesBefore rfl same written
  rw [Action.mapInside] at sameNext
  obtain ⟨offset, rfl, own⟩ := Action.eq_branch_of_blank sameNext
  rw [Branch.image_eq] at isRecord
  obtain rfl := Option.some.inj isRecord
  refine ⟨before, offset, after, isBefore, isCode, own, fun label labelled => ?_⟩
  -- the place of the label that the offset leads to
  obtain ⟨target, isTarget, aims⟩ := settled.1.hits (_, encodedLength part)
    (mem_branchMarks_iff.mpr ⟨part, rest, split, rfl⟩) label labelled
  have inside : .marker (.label label) ∈ emitted := by
    obtain ⟨part', rest', split', _⟩ := mem_labelMarks_iff.mp isTarget
    rw [split']
    exact List.mem_append_right _ List.mem_cons_self
  refine ⟨(mem_label_iff_of_blank same).mpr inside, fun front' back' split' => ?_⟩
  rw [split'] at same
  obtain ⟨part', next', rest', before', isSplit, sameLabel, isBefore', length', _⟩ :=
    exists_bytesBefore rfl same written
  have isLabel : next' = .marker (.label label) := by
    rw [Action.mapInside] at sameLabel
    cases next' with
    | marker found => exact sameLabel.symm
    | _ => cases sameLabel
  subst isLabel
  have here : (label, encodedLength part') ∈ labelMarks (Extent.start.pieces emitted) :=
    mem_labelMarks_iff.mpr ⟨part', rest', isSplit, rfl⟩
  have one := List.inj_on_of_nodup_map settled.1.once isTarget here rfl
  refine ⟨before', isBefore', ?_⟩
  rw [← length, ← length', ← (Prod.mk.inj one).2, ← aims, Branch.target]
  rfl

end

/-! ### Every level -/

/-- The code of a definition that is written is written. -/
theorem exists_image_of_body {actions : List Action} {code : List UInt8}
    (written : imageFrom false actions = some code) {body : List Action}
    (inside : body ∈ bodiesOf actions) : ∃ inner, imageFrom false body = some inner := by
  obtain ⟨action, isAction, isBody⟩ := List.mem_filterMap.mp inside
  obtain ⟨front, back, rfl⟩ := List.append_of_mem isAction
  cases action with
  | define signature body' =>
    obtain rfl := Option.some.inj isBody
    rw [imageFrom_split rfl] at written
    obtain ⟨_, later, _, isLater, _⟩ := joined_eq_some_iff.mp written
    obtain ⟨record, _, isRecord, _, _⟩ := joined_eq_some_iff.mp isLater
    rw [Action.image] at isRecord
    obtain ⟨_, inner, _, isInner, _⟩ := joined_eq_some_iff.mp isRecord
    exact ⟨inner, isInner⟩
  | _ => cases isBody

theorem bodiesOf_recastAll (cast : Instruction → Instruction) (actions : List Action) :
    bodiesOf (recastAll cast actions) = (bodiesOf actions).map (recastAll cast) := by
  rw [recastAll_eq_map, bodiesOf, List.filterMap_map, bodiesOf, List.map_filterMap]
  refine List.filterMap_congr fun action _ => ?_
  cases action <;> rfl

/-- A sequence is emitted as another, settled at every level and written. -/
structure Emitted (actions emitted : List Action) : Prop where
  blank : recastAll Instruction.blank (mergePushes actions) = recastAll Instruction.blank emitted
  settled : EveryLevel Settled emitted
  written : ∃ code, imageFrom false emitted = some code

/-- The code of definitions is emitted as that of the definitions they are emitted as. -/
theorem Emitted.bodies {actions emitted : List Action} (isEmitted : Emitted actions emitted) :
    List.Forall₂ Emitted (bodiesOf actions) (bodiesOf emitted) := by
  obtain ⟨code, written⟩ := isEmitted.written
  have settled := allCodeHolds_iff_bodies.mp isEmitted.settled.2
  have blank := congrArg bodiesOf isEmitted.blank
  rw [bodiesOf_recastAll, bodiesOf_recastAll, bodiesOf_mergePushes, List.map_map] at blank
  have images : ∀ body ∈ bodiesOf emitted, ∃ inner, imageFrom false body = some inner :=
    fun body inside => exists_image_of_body written inside
  generalize bodiesOf actions = firsts at blank
  generalize bodiesOf emitted = seconds at blank settled images
  induction seconds generalizing firsts with
  | nil =>
    rw [List.map_eq_nil_iff.mp blank]
    exact .nil
  | cons second seconds ih =>
    obtain ⟨first, rest, rfl, here, later⟩ := List.map_eq_cons_iff.mp blank
    exact .cons ⟨here, settled second List.mem_cons_self, images second List.mem_cons_self⟩
      (ih rest later (fun body inside => settled body (List.mem_cons_of_mem _ inside))
        fun body inside => images body (List.mem_cons_of_mem _ inside))

/-- **The branches of an assembled sequence are exact at every level.** -/
theorem Emitted.branchesExact {actions emitted : List Action}
    (isEmitted : Emitted actions emitted) : AtEveryLevel BranchesExact actions emitted :=
  AtEveryLevel.of_step
    (fun _ _ step => by
      obtain ⟨code, written⟩ := step.written
      exact branchesExact_of_settled step.blank step.settled.1 written)
    (fun _ _ step => step.bodies) isEmitted

/-! ### Branches that have no offset -/

/-- Why the branches of a sequence have no offsets. -/
inductive Misbranched (code : List Action) : Prop
  /-- A label is placed twice. -/
  | twice (repeated : ¬ (code.filterMap Action.label?).Nodup)
  /-- A branch goes to a label that is not placed. -/
  | lost {branch : Branch} {label : Label} (isBranch : .plain (.branch branch) ∈ code)
      (labelled : branch.label = some label) (missing : .marker (.label label) ∉ code)
  /-- A branch goes to a label that is too far away. -/
  | far {front back front' back' : List Action} {branch : Branch} {label : Label}
      (isBranch : code = front ++ .plain (.branch branch) :: back)
      (labelled : branch.label = some label)
      (isLabel : code = front' ++ .marker (.label label) :: back')
      (outside : ¬ (-32768 ≤ (encodedLength front' : Int) - (encodedLength front + 5) ∧
        (encodedLength front' : Int) - (encodedLength front + 5) ≤ 32767))

/-- Every labelled branch can be given the offset to its label, and no label is placed twice. -/
structure Reachable (pieces : List Piece) : Prop where
  once : ((labelMarks pieces).map Prod.fst).Nodup
  near : ∀ mark ∈ branchMarks pieces, ∀ label, mark.1.label = some label →
    ∃ target : Nat, (label, target) ∈ labelMarks pieces ∧
      Branch.reaches ((target : Int) - (mark.2 + Branch.width : Nat)) = true

theorem reaches_iff {place target : Nat} :
    Branch.reaches ((target : Int) - (place + Branch.width : Nat)) = true ↔
      -32768 ≤ (target : Int) - (place + 5) ∧ (target : Int) - (place + 5) ≤ 32767 := by
  unfold Branch.reaches
  rw [Bool.and_eq_true, decide_eq_true_eq, decide_eq_true_eq]
  rfl

/-- A sequence has offsets exactly if it is not misbranched. -/
theorem reachable_iff {code : List Action} :
    Reachable (Extent.start.pieces code) ↔ ¬ Misbranched code := by
  constructor
  · intro reachable misbranched
    cases misbranched with
    | twice repeated => exact repeated (map_fst_labelMarks_pieces code ▸ reachable.once)
    | @lost branch label isBranch labelled missing =>
      obtain ⟨front, back, split⟩ := List.append_of_mem isBranch
      obtain ⟨target, isTarget, _⟩ := reachable.near (branch, encodedLength front)
        (mem_branchMarks_iff.mpr ⟨front, back, split, rfl⟩) label labelled
      obtain ⟨front', back', split', _⟩ := mem_labelMarks_iff.mp isTarget
      exact missing (split' ▸ List.mem_append_right _ List.mem_cons_self)
    | @far front back front' back' branch label isBranch labelled isLabel outside =>
      obtain ⟨target, isTarget, reaches⟩ := reachable.near (branch, encodedLength front)
        (mem_branchMarks_iff.mpr ⟨front, back, isBranch, rfl⟩) label labelled
      have here := mem_labelMarks_iff.mpr ⟨front', back', isLabel, rfl⟩
      have one := List.inj_on_of_nodup_map reachable.once isTarget here rfl
      rw [(Prod.mk.inj one).2, reaches_iff] at reaches
      exact outside reaches
  · intro well
    refine ⟨?_, fun mark isBranch label labelled => ?_⟩
    · rw [map_fst_labelMarks_pieces]
      exact Classical.byContradiction fun repeated => well (.twice repeated)
    · obtain ⟨front, back, split, here⟩ := mem_branchMarks_iff.mp isBranch
      have placed : .marker (.label label) ∈ code := Classical.byContradiction fun missing =>
        well (.lost (split ▸ List.mem_append_right _ List.mem_cons_self) labelled missing)
      obtain ⟨front', back', split'⟩ := List.append_of_mem placed
      refine ⟨encodedLength front', mem_labelMarks_iff.mpr ⟨front', back', split', rfl⟩, ?_⟩
      rw [reaches_iff, here]
      exact Classical.byContradiction fun outside => well (.far split labelled split' outside)

theorem Action.branchLabel_recastShell_unaimed (action : Action) :
    (action.recastShell Instruction.unaimed).branch?.map Branch.label =
      action.branch?.map Branch.label := by
  rw [branch?_recastShell_unaimed]
  cases action.branch? with
  | none => rfl
  | some branch => obtain ⟨conditional, offset, _ | label⟩ := branch <;> rfl

/-- The labels that pieces go to, and from where. -/
theorem exists_branchMark_iff {pieces : List Piece} {label : Option Label} {place : Nat} :
    (label, place) ∈ marksOf (fun action => action.branch?.map Branch.label) 0 pieces ↔
      ∃ branch : Branch, (branch, place) ∈ branchMarks pieces ∧ branch.label = label := by
  rw [mem_marksOf]
  constructor
  · rintro ⟨action, inside, seen⟩
    obtain ⟨branch, isBranch, labelled⟩ := Option.map_eq_some_iff.mp seen
    exact ⟨branch, mem_marksOf.mpr ⟨action, inside, isBranch⟩, labelled⟩
  · rintro ⟨branch, inside, labelled⟩
    obtain ⟨action, inside, isBranch⟩ := mem_marksOf.mp inside
    exact ⟨action, inside, Option.map_eq_some_iff.mpr ⟨branch, isBranch, labelled⟩⟩

/-- The labels of branches and their places decide what is reachable. -/
theorem Reachable.congr {pieces others : List Piece} (reachable : Reachable others)
    (labels : labelMarks pieces = labelMarks others)
    (branches : marksOf (fun action => action.branch?.map Branch.label) 0 pieces =
      marksOf (fun action => action.branch?.map Branch.label) 0 others) : Reachable pieces := by
  refine ⟨labels ▸ reachable.once, fun mark isBranch label labelled => ?_⟩
  have seen := exists_branchMark_iff.mpr ⟨mark.1, isBranch, labelled⟩
  rw [branches] at seen
  obtain ⟨branch, isBranch', labelled'⟩ := exists_branchMark_iff.mp seen
  rw [labels]
  exact reachable.near _ isBranch' label labelled'

/-- Offsets do not decide what is reachable. -/
theorem Reachable.of_unaimed {pieces others : List Piece} (reachable : Reachable others)
    (same : pieces.map (Piece.recastShell Instruction.unaimed) =
      others.map (Piece.recastShell Instruction.unaimed)) : Reachable pieces := by
  refine reachable.congr ?_ ?_
  · unfold labelMarks
    rw [← marksOf_recastShell (label?_recastShell Instruction.unaimed), same,
      marksOf_recastShell (label?_recastShell Instruction.unaimed)]
  · rw [← marksOf_recastShell Action.branchLabel_recastShell_unaimed, same,
      marksOf_recastShell Action.branchLabel_recastShell_unaimed]

theorem Aimed.reachable {pieces : List Piece} (aimed : Aimed pieces) : Reachable pieces where
  once := aimed.once
  near mark isBranch label labelled := by
    obtain ⟨target, isTarget, aims⟩ := aimed.hits mark isBranch label labelled
    exact ⟨target, isTarget, (Branch.target_eq_iff.mp aims).1⟩

/-- Pieces that differ from those of a sequence in what a cast forgets are those of their own
actions. -/
theorem Keeps.pieces_eq {cast : Instruction → Instruction} (keeps : Keeps cast) {before : Extent}
    {actions : List Action} {others : List Piece}
    (same : others.map (Piece.recastShell cast) =
      (before.pieces actions).map (Piece.recastShell cast)) :
    before.pieces (others.map Piece.action) = others := by
  induction actions generalizing before others with
  | nil => rw [List.map_eq_nil_iff.mp same]; rfl
  | cons action rest ih =>
    rw [Extent.pieces, List.map_cons] at same
    obtain ⟨other, others, rfl, here, later⟩ := List.map_eq_cons_iff.mp same
    have alike : other.action.recastShell cast = action.recastShell cast :=
      congrArg Piece.action here
    have advance : before.advance other.action = before.advance action := by
      rw [← keeps.advance_recastShell, alike, keeps.advance_recastShell]
    have own : before.piece other.action = other := by
      unfold Extent.piece
      rw [advance]
      exact congrArg₂ (Piece.mk other.action) (congrArg Piece.bytes here).symm
        (congrArg Piece.records here).symm
    rw [List.map_cons, Extent.pieces, own, advance, ih later]

/-- **The branches of a sequence have no offsets exactly if it is misbranched.** -/
theorem resolveOwnBranches_succeeds_iff {code : List Action} :
    (∃ result, resolveOwnBranches code = .ok result) ↔ ¬ Misbranched code := by
  rw [← reachable_iff]
  constructor
  · rintro ⟨result, resolved⟩
    obtain ⟨same, aimed⟩ := resolveOwnBranches_ok_iff.mp resolved
    refine aimed.reachable.of_unaimed ?_
    rw [← Extent.pieces_recastShell keeps_unaimed, same, Extent.pieces_recastShell keeps_unaimed]
  · intro reachable
    obtain ⟨others, same, hits⟩ := exists_aimed reachable.near
    have own := keeps_unaimed.pieces_eq same
    have shells : (others.map Piece.action).map (Action.recastShell Instruction.unaimed) =
        code.map (Action.recastShell Instruction.unaimed) := by
      have actions := congrArg (List.map Piece.action) same
      rw [← Extent.pieces_recastShell keeps_unaimed, Extent.map_action_pieces, List.map_map]
        at actions
      rw [← actions, List.map_map]
      rfl
    have labels := labelMarks_of_recastShell keeps_unaimed shells
    rw [own] at labels
    refine ⟨others.map Piece.action, resolveOwnBranches_ok_iff.mpr ⟨shells.symm, ?_⟩⟩
    rw [own]
    exact ⟨labels ▸ reachable.once, labels ▸ hits⟩

/-- Offsets do not decide whether branches have offsets. -/
theorem resolveOwnBranches_blind (code : List Action) :
    (∃ result, resolveOwnBranches (recastAll Instruction.unaimed code) = .ok result) ↔
      ∃ result, resolveOwnBranches code = .ok result := by
  have branchLabel : ∀ action : Action,
      (action.recast Instruction.unaimed).branch?.map Branch.label =
        action.branch?.map Branch.label := by
    intro action
    cases action with
    | plain instruction => exact Action.branchLabel_recastShell_unaimed (.plain instruction)
    | _ => rfl
  have labels := marksOf_recast (label?_recast Instruction.unaimed) 0 (Extent.start.pieces code)
  have branches := @marksOf_recast _ (fun action => action.branch?.map Branch.label) _ branchLabel 0
    (Extent.start.pieces code)
  rw [resolveOwnBranches_succeeds_iff, resolveOwnBranches_succeeds_iff, ← reachable_iff,
    ← reachable_iff, Extent.pieces_recastAll keeps_unaimed]
  exact ⟨fun reachable => reachable.congr labels.symm branches.symm,
    fun reachable => reachable.congr labels branches⟩

/-- **Resolving branches fails exactly if the code at some level is misbranched.** -/
theorem resolveBranches_fails_iff {actions : List Action} :
    (∃ fault, resolveBranches actions = .error fault) ↔
      ∃ path code, codeAt? path actions = some code ∧ Misbranched code := by
  have succeeds : EveryLevel (fun code => ¬ Misbranched code) actions ↔
      ∃ result, resolveBranches actions = .ok result := by
    rw [resolveBranches, tryLevels_succeeds_iff adjusts_resolveOwnBranches resolveOwnBranches_blind]
    simp only [resolveOwnBranches_succeeds_iff]
  have fails : (∃ fault, resolveBranches actions = .error fault) ↔
      ¬ ∃ result, resolveBranches actions = .ok result := by
    cases resolveBranches actions with
    | error fault => exact iff_of_true ⟨fault, rfl⟩ fun ⟨_, isOk⟩ => by cases isOk
    | ok result =>
      exact iff_of_false (fun ⟨_, isError⟩ => by cases isError) fun none => none ⟨result, rfl⟩
  rw [fails, ← succeeds, not_everyLevel_iff]
  simp only [not_not]

/-! ### Assembling -/

/-- What is assembled is emitted as the sequence that it is resolved as. -/
theorem emitted_of_assemble {settings : AssemblySettings} {actions : List Action}
    {bytes : List UInt8} (success : (assemble settings actions).result = .ok bytes) :
    ∃ emitted, resolve settings actions = .ok emitted ∧ imageFrom false emitted = some bytes ∧
      Emitted actions emitted := by
  obtain ⟨emitted, resolved, written⟩ := assemble_ok_iff.mp success
  obtain ⟨_, blank, settled⟩ := resolve_ok_iff.mp resolved
  exact ⟨emitted, resolved, written, blank, settled, bytes, written⟩

/-- **Branch offsets are exact.** What a sequence is assembled to holds each branch of each level
behind the bytes that stand before it, with its own offset or with that to its label; and the
branches of merged pushes cannot be resolved exactly if some level places a label twice, has a branch
to a label that it does not place, or one that is too far from its label. -/
theorem offsets_exact (settings : AssemblySettings) (actions : List Action) :
    (∀ bytes, (assemble settings actions).result = .ok bytes →
      ∃ emitted, resolve settings actions = .ok emitted ∧
        (writeSequence emitted).run = (.ok (), bytes) ∧
        AtEveryLevel BranchesExact actions emitted) ∧
    ((∃ fault, resolveBranches (mergePushes actions) = .error fault) ↔
      ∃ path code, codeAt? path (mergePushes actions) = some code ∧ Misbranched code) := by
  refine ⟨fun bytes success => ?_, resolveBranches_fails_iff⟩
  obtain ⟨emitted, resolved, written, isEmitted⟩ := emitted_of_assemble success
  exact ⟨emitted, resolved, (Writer.run_ok_iff (writeFrom_images false emitted)).mpr written,
    isEmitted.branchesExact⟩

/-- A branch back to the start of a definition. -/
theorem offsets_exact_loop :
    ∃ emitted, resolve ⟨4⟩ [.define (.simple "f" []) [.marker (.label ⟨1⟩), .plain (.basic .play),
        .plain (.branch ⟨false, 0, some ⟨1⟩⟩)]] = .ok emitted ∧
      (writeSequence emitted).run =
        (.ok (), [0x9b, 6, 0, 0x66, 0, 0, 0, 6, 0, 0x06, 0x99, 2, 0, 0xfa, 0xff]) ∧
      AtEveryLevel BranchesExact [.define (.simple "f" []) [.marker (.label ⟨1⟩),
        .plain (.basic .play), .plain (.branch ⟨false, 0, some ⟨1⟩⟩)]] emitted :=
  (offsets_exact ⟨4⟩ [.define (.simple "f" []) [.marker (.label ⟨1⟩), .plain (.basic .play),
    .plain (.branch ⟨false, 0, some ⟨1⟩⟩)]]).1 _ (by decide +kernel)

end ActionCode
