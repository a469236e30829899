/-
**The labels of a listing.**

* `recordsAt?`: the records of the code that a path leads to.
* `CutAt`: a listing and the records that it was read from are cut at one place, a byte of its
  sequence.
* `LabelsExact`: labels stand where branches go, and **two branches share a label exactly if they go
  to the same byte**.
* `labelsWithin`, **`perm_labelsWithin_listing`**: the labels of all code are numbered from zero on.
* **`labels_of_disassembled`**: this holds of all that is disassembled, in normal form.
-/

import ActionCode.Proofs.Labels.Offsets
import ActionCode.Proofs.RoundTrip.Listings

namespace ActionCode

/-! ### Records and their actions -/

/-- The records of the code of a definition. -/
def Chunk.code? : Chunk → Option (List Chunk)
  | .instruction _ _ => none
  | .definition _ _ code => some code

/-- The records of the code of definitions, in order. -/
def codesOf (chunks : List Chunk) : List (List Chunk) := chunks.filterMap Chunk.code?

/-- The records that a path leads to: each step goes into the definition of that number. -/
def recordsAt? : List Nat → List Chunk → Option (List Chunk)
  | [], chunks => some chunks
  | step :: path, chunks => (codesOf chunks)[step]?.bind (recordsAt? path)

/-- What a relation gives for records and their listing at some depth, and for the code of their
definitions one level deeper, holds path by path. -/
theorem rel_recordsAt_of_depth {relates step : Nat → List Chunk → List Action → Prop}
    (here : ∀ depth chunks actions, step depth chunks actions → relates depth chunks actions)
    (inside : ∀ depth chunks actions, step depth chunks actions →
      List.Forall₂ (step (depth + 1)) (codesOf chunks) (bodiesOf actions))
    {depth : Nat} {chunks : List Chunk} {actions : List Action} (start : step depth chunks actions)
    (path : List Nat) :
    Option.Rel (relates (depth + path.length)) (recordsAt? path chunks) (codeAt? path actions) := by
  induction path generalizing depth chunks actions with
  | nil => exact .some (here _ _ _ start)
  | cons first path ih =>
    have both := inside _ _ _ start
    rw [recordsAt?, codeAt?, List.length_cons, Nat.add_comm path.length, ← Nat.add_assoc]
    by_cases short : first < (codesOf chunks).length
    · have short' : first < (bodiesOf actions).length := both.length_eq ▸ short
      rw [List.getElem?_eq_getElem short, List.getElem?_eq_getElem short']
      exact ih (both.get short short')
    · have none : (codesOf chunks)[first]? = Option.none :=
        List.getElem?_eq_none (Nat.not_lt.mp short)
      have none' : (bodiesOf actions)[first]? = Option.none :=
        List.getElem?_eq_none (both.length_eq ▸ Nat.not_lt.mp short)
      rw [none, none']
      exact .none

/-- So it does at any depth, if depth does not matter. -/
theorem rel_recordsAt {relates step : List Chunk → List Action → Prop}
    (here : ∀ chunks actions, step chunks actions → relates chunks actions)
    (inside : ∀ chunks actions, step chunks actions →
      List.Forall₂ step (codesOf chunks) (bodiesOf actions))
    {chunks : List Chunk} {actions : List Action} (start : step chunks actions) (path : List Nat) :
    Option.Rel relates (recordsAt? path chunks) (codeAt? path actions) :=
  @rel_recordsAt_of_depth (fun _ => relates) (fun _ => step) (fun _ => here) (fun _ => inside) 0 _ _
    start path

/-- An action without its code, and without the label of its branch. -/
def Action.stripped : Action → Action
  | .plain (.branch branch) => .plain (.branch { branch with label := none })
  | .define signature _ => .define signature []
  | action => action

/-- The real actions of a sequence are those of records, with single pushes. -/
def Spells (chunks : List Chunk) (actions : List Action) : Prop :=
  (actions.filter fun action => !action.isMarker).map Action.stripped =
    splitPushes (chunks.map Chunk.action)

/-- A listing is cut between two of the records that it was read from, at a byte of its
sequence. -/
def CutAt (chunks : List Chunk) (front back : List Action) (place : Nat) : Prop :=
  ∃ early late, chunks = early ++ late ∧ Spells early front ∧ Spells late back ∧
    place = (bytesOf early).length

/-- **The labels of a sequence stand where its branches go.** -/
structure LabelsExact (chunks : List Chunk) (code : List Action) : Prop where
  spells : Spells chunks code
  /-- Every branch has a label, which its sequence places before the record that begins at the
  target of the branch. -/
  bound : ∀ front branch back, code = front ++ .plain (.branch branch) :: back →
    ∃ label start, branch.label = some label ∧ .marker (.label label) ∈ code ∧
      CutAt chunks front (.plain (.branch branch) :: back) start ∧
      ∀ front' back', code = front' ++ .marker (.label label) :: back' →
        ∃ target, CutAt chunks front' back' target ∧
          (target : Int) = start + 5 + branch.offset.toInt
  /-- Every label is that of a branch. -/
  used : ∀ label, .marker (.label label) ∈ code →
    ∃ branch, .plain (.branch branch) ∈ code ∧ branch.label = some label
  /-- After a label comes a real action, or nothing. -/
  before : ∀ front label next back, code = front ++ .marker (.label label) :: next :: back →
    next.isMarker = false
  /-- Two branches share a label exactly if they go to the same byte. -/
  shared : ∀ front branch back front' branch' back' start start',
    code = front ++ .plain (.branch branch) :: back →
    code = front' ++ .plain (.branch branch') :: back' →
    CutAt chunks front (.plain (.branch branch) :: back) start →
    CutAt chunks front' (.plain (.branch branch') :: back') start' →
    (branch.label = branch'.label ↔
      (start : Int) + 5 + branch.offset.toInt = start' + 5 + branch'.offset.toInt)

/-- Pushes are single or empty, an opcode alone needs neither a body nor a count, and what is
unknown has no opcode. -/
structure NormalForm (code : List Action) : Prop where
  single : ∀ values, .plain (.pushList values) ∈ code → values = []
  basic : ∀ op, .plain (.basic op) ∈ code →
    op.byte < bodyThreshold ∧ CountedOp.ofOpcode? op = none
  unknown : ∀ value payload, .plain (.unknown value payload) ∈ code → Opcode.ofByte? value = none

mutual

/-- The labels of an action and of all code inside. -/
def Action.labelsWithin : Action → List Label
  | .plain _ => []
  | .define _ body => ActionCode.labelsWithin body
  | .marker found => (Action.marker found).label?.toList

/-- The labels of a sequence and of all code inside. -/
def labelsWithin : List Action → List Label
  | [] => []
  | action :: rest => action.labelsWithin ++ labelsWithin rest

end

/-! ### Splits of listings -/

/-- Where single pushes are split at another action, so are the records. -/
theorem exists_of_splitPushes {action : Action} (unpushed : action.pushed = [])
    {actions front back : List Action} (whole : splitPushes actions = front ++ action :: back) :
    ∃ early late, actions = early ++ action :: late ∧ front = splitPushes early ∧
      back = splitPushes late := by
  induction actions generalizing front with
  | nil => cases front <;> cases whole
  | cons first rest ih =>
    rw [splitPushes_cons] at whole
    obtain ⟨more, isFront, isRest⟩ | ⟨more, isFirst, isBack⟩ := List.append_eq_append_iff.mp whole
    · obtain ⟨early, late, rfl, rfl, rfl⟩ := ih isRest
      exact ⟨first :: early, late, rfl, isFront, rfl⟩
    · cases more with
      | nil =>
        obtain ⟨early, late, rfl, none, rfl⟩ := @ih [] isBack.symm
        refine ⟨first :: early, late, rfl, ?_, rfl⟩
        rw [splitPushes_cons, ← none, isFirst]
        simp only [List.append_nil]
      | cons next more =>
        obtain ⟨rfl, isRest⟩ := List.cons.inj isBack
        by_cases none : first.pushed = []
        · rw [Action.splitPush_of_unpushed none] at isFirst
          obtain ⟨rfl, isEnd⟩ := List.append_eq_singleton_iff.mp isFirst.symm |>.resolve_right
            (fun other => by cases other.2)
          obtain ⟨rfl, rfl⟩ := List.cons.inj isEnd
          exact ⟨[], rest, rfl, rfl, isRest⟩
        · have inside : action ∈ first.splitPush := by
            rw [isFirst]
            exact List.mem_append_right _ List.mem_cons_self
          obtain ⟨_, none'⟩ | ⟨value, _, rfl⟩ := Action.mem_splitPush_iff.mp inside
          · exact absurd none' none
          · cases unpushed

/-! ### Pieces and records -/

/-- A piece is what a record was read as. -/
structure ReadAs (chunk : Chunk) (piece : Piece) : Prop where
  action : piece.action.stripped = chunk.action
  bytes : piece.bytes = chunk.bytes.length
  real : piece.action.isMarker = false

theorem Action.stripped_bindTo (labels : Nat → Option Label) (position : Nat) (action : Action) :
    (action.bindTo labels position).stripped = action.stripped := by
  obtain same | ⟨branch, rfl, same⟩ := Action.bindTo_cases labels position action
  · rw [same]
  · rw [same]
    rfl

/-- What is read back as it is has no label. -/
theorem Action.stripped_of_canon {instruction : Instruction}
    (canon : instruction.canon = instruction) :
    (Action.plain instruction).stripped = .plain instruction := by
  cases instruction with
  | branch branch => exact congrArg Action.plain canon
  | _ => rfl

theorem Chunk.readAs_piece {chunk : Chunk} {room : Nat}
    (formed : chunk.Formed Instruction.SpelledBy room) (nextLabel : Nat) :
    ReadAs chunk (chunk.piece nextLabel).1 := by
  cases chunk with
  | instruction instruction bytes =>
    rw [Chunk.Formed] at formed
    rw [Chunk.piece]
    exact ⟨Action.stripped_of_canon formed.canon, rfl, rfl⟩
  | definition signature bytes code =>
    rw [Chunk.piece]
    exact ⟨rfl, rfl, rfl⟩

theorem readAs_piecesFrom {chunks : List Chunk} {room : Nat}
    (formed : AllFormed Instruction.SpelledBy room chunks) (nextLabel : Nat) :
    List.Forall₂ ReadAs chunks (piecesFrom nextLabel chunks).1 := by
  induction chunks generalizing nextLabel with
  | nil =>
    rw [piecesFrom]
    exact .nil
  | cons chunk rest ih =>
    rw [AllFormed] at formed
    rw [piecesFrom]
    exact .cons (Chunk.readAs_piece formed.1 nextLabel) (ih formed.2 _)

theorem readAs_bindFrom {chunks : List Chunk} {pieces : List Piece}
    (read : List.Forall₂ ReadAs chunks pieces) (labels : Nat → Option Label) (position : Nat) :
    List.Forall₂ ReadAs chunks (bindFrom labels position pieces) := by
  induction read generalizing position with
  | nil => exact .nil
  | cons first _ ih =>
    refine .cons ⟨?_, first.bytes, ?_⟩ (ih _)
    · rw [Action.stripped_bindTo]
      exact first.action
    · rw [Action.isMarker_bindTo]
      exact first.real

/-- The records of a level are read as the real pieces of its listing. -/
theorem Level.readAs_listed {room nextLabel : Nat} {chunks : List Chunk}
    (level : Level room nextLabel chunks) (first : Nat) :
    List.Forall₂ ReadAs chunks (reals (listed first (piecesFrom nextLabel chunks).1)) := by
  rw [reals_listed level.real level.finishable.fit]
  exact readAs_bindFrom (readAs_piecesFrom level.formed nextLabel) _ 0

theorem Action.stripped_splitPush {action : Action} (real : action.isMarker = false) :
    (action.splitPush.filter fun action => !action.isMarker).map Action.stripped =
      action.stripped.splitPush := by
  by_cases none : action.pushed = []
  · have none' : action.stripped.pushed = [] := by
      unfold Action.stripped
      split
      · rfl
      · rfl
      · exact none
    rw [Action.splitPush_of_unpushed none, Action.splitPush_of_unpushed none',
      List.filter_cons_of_pos (by rw [real]; rfl)]
    rfl
  · have same : action.stripped = action := by
      unfold Action.stripped
      split
      · exact absurd rfl none
      · exact absurd rfl none
      · rfl
    rw [same, Action.splitPush_of_pushed none, List.filter_eq_self.mpr, List.map_map]
    · rfl
    · intro part inside
      obtain ⟨value, _, rfl⟩ := List.mem_map.mp inside
      rfl

/-- Pieces whose real ones are read from records spell these, and take their bytes. -/
theorem spells_of_readAs {pieces : List Piece} (solid : AllSolid pieces) {chunks : List Chunk}
    (read : List.Forall₂ ReadAs chunks (reals pieces)) :
    Spells chunks (splitPushes (pieces.map Piece.action)) ∧
      (pieces.map Piece.bytes).sum = (bytesOf chunks).length := by
  induction pieces generalizing chunks with
  | nil =>
    cases read
    exact ⟨rfl, rfl⟩
  | cons piece rest ih =>
    obtain ⟨marker, rfl⟩ | isReal := solid.head
    · obtain ⟨spelled, length⟩ := ih solid.tail read
      refine ⟨spelled, ?_⟩
      rw [List.map_cons, List.sum_cons, length]
      exact Nat.zero_add _
    · rw [reals_cons isReal.real] at read
      cases read with
      | cons first later =>
        obtain ⟨spelled, length⟩ := ih solid.tail later
        refine ⟨?_, ?_⟩
        · rw [Spells, List.map_cons, List.map_cons, splitPushes_cons, splitPushes_cons,
            List.filter_append, List.map_append, Action.stripped_splitPush first.real, first.action,
            spelled]
        · rw [List.map_cons, List.sum_cons, length, first.bytes, bytesOf_cons, List.length_append]

/-! ### One level -/

section

variable {room nextLabel : Nat} {chunks : List Chunk}

/-- **Where a listing is split at an action that is no push**, its pieces are, and it is cut. -/
theorem Level.exists_cut (level : Level room nextLabel chunks) {first : Nat} {action : Action}
    (unpushed : action.pushed = []) {front back : List Action}
    (whole : finished first (piecesFrom nextLabel chunks).1 = front ++ action :: back) :
    ∃ early piece late, listed first (piecesFrom nextLabel chunks).1 = early ++ piece :: late ∧
      piece.action = action ∧ back = splitPushes (late.map Piece.action) ∧
      CutAt chunks front (action :: back) (early.map Piece.bytes).sum ∧
      (action.isMarker = true → CutAt chunks front back (early.map Piece.bytes).sum) := by
  obtain ⟨front', back', same, rfl, rfl⟩ := exists_of_splitPushes unpushed whole
  obtain ⟨early, later, isListed, rfl, isLater⟩ := List.map_eq_append_iff.mp same
  obtain ⟨piece, late, rfl, rfl, rfl⟩ := List.map_eq_cons_iff.mp isLater
  have solid := (labelled_listed level.real level.finishable.fit first).solid
  have read := level.readAs_listed first
  rw [isListed] at solid read
  have apart : reals (early ++ piece :: late) = reals early ++ reals (piece :: late) :=
    List.filter_append ..
  rw [apart] at read
  obtain ⟨spelled, length⟩ := spells_of_readAs
    (fun piece inside => solid piece (List.mem_append_left _ inside))
    (List.forall₂_take_append _ _ _ read)
  obtain ⟨spelled', _⟩ := spells_of_readAs
    (fun piece inside => solid piece (List.mem_append_right _ inside))
    (List.forall₂_drop_append _ _ _ read)
  rw [List.map_cons, splitPushes_cons, Action.splitPush_of_unpushed unpushed] at spelled'
  have cut := (List.take_append_drop (reals early).length chunks).symm
  refine ⟨early, piece, late, isListed, rfl, rfl, ⟨_, _, cut, spelled, spelled', length⟩,
    fun isMarker => ⟨_, _, cut, spelled, ?_, length⟩⟩
  rw [Spells, ← spelled', List.singleton_append, List.filter_cons_of_neg (by rw [isMarker]; decide)]

theorem length_splitPush_pos (action : Action) : 0 < action.splitPush.length := by
  by_cases none : action.pushed = []
  · rw [Action.splitPush_of_unpushed none]
    exact Nat.one_pos
  · rw [Action.splitPush_of_pushed none, List.length_map]
    exact List.length_pos_iff.mpr none

/-- The place of a cut follows from what stands before it. -/
theorem CutAt.unique {front back back' : List Action} {place place' : Nat}
    (cut : CutAt chunks front back place) (cut' : CutAt chunks front back' place') :
    place = place' := by
  have covers : ∀ early more : List Chunk,
      splitPushes ((early ++ more).map Chunk.action) = splitPushes (early.map Chunk.action) →
        more = [] := by
    intro early more same
    rw [List.map_append, splitPushes_append] at same
    cases more with
    | nil => rfl
    | cons next more =>
      have length := congrArg List.length (List.append_right_eq_self.mp same)
      rw [List.map_cons, splitPushes_cons, List.length_append, List.length_nil] at length
      have := length_splitPush_pos next.action
      omega
  obtain ⟨early, late, rfl, spelled, _, rfl⟩ := cut
  obtain ⟨early', late', same, spelled', _, rfl⟩ := cut'
  rw [Spells] at spelled spelled'
  obtain ⟨more, rfl, _⟩ | ⟨more, rfl, _⟩ := List.append_eq_append_iff.mp same
  · rw [covers early more (by rw [← spelled', spelled]), List.append_nil]
  · rw [covers early' more (by rw [← spelled, spelled']), List.append_nil]

/-- Marks of a listing at a split. -/
theorem mem_marksOf_split {β : Type} {view : Action → Option β} {early late : List Piece}
    {piece : Piece} {found : β} (isFound : view piece.action = some found) :
    (found, (early.map Piece.bytes).sum) ∈ marksOf view 0 (early ++ piece :: late) := by
  rw [marksOf_append]
  refine List.mem_append_right _ (marksOf_cons_iff.mpr (.inl ⟨isFound, ?_⟩))
  exact (Nat.zero_add _).symm

/-- What is seen of only one action is there if it is marked. -/
theorem mem_finished_of_mark {β : Type} {view : Action → Option β} {found : β} {shown : Action}
    (shows : ∀ action, view action = some found ↔ action = shown) (unpushed : shown.pushed = [])
    {first place : Nat} {pieces : List Piece}
    (inside : (found, place) ∈ marksOf view 0 (listed first pieces)) :
    shown ∈ finished first pieces := by
  obtain ⟨_, piece, isPiece, isFound⟩ := reached_of_marksOf ⟨0, 0⟩ inside
  rw [shows] at isFound
  exact mem_splitPushes_of_unpushed (isFound ▸ List.mem_map_of_mem isPiece) unpushed

/-- A branch of a listing is where it is cut, and its label where it goes. -/
theorem Level.branch_cut (level : Level room nextLabel chunks) {front back : List Action}
    {branch : Branch}
    (whole : actionsOf nextLabel chunks = front ++ .plain (.branch branch) :: back) :
    ∃ label start target, branch.label = some label ∧
      CutAt chunks front (.plain (.branch branch) :: back) start ∧
      (label, target) ∈
        labelMarks (listed (piecesFrom nextLabel chunks).2 (piecesFrom nextLabel chunks).1) ∧
      (target : Int) = start + 5 + branch.offset.toInt := by
  obtain ⟨early, piece, late, isListed, isBranch, _, cut, _⟩ := level.exists_cut rfl whole
  have orderly := orderly_listed level.real level.finishable (piecesFrom nextLabel chunks).2
  have mark : (branch, (early.map Piece.bytes).sum) ∈
      branchMarks (listed (piecesFrom nextLabel chunks).2 (piecesFrom nextLabel chunks).1) := by
    rw [isListed]
    exact mem_marksOf_split (by rw [isBranch]; rfl)
  obtain ⟨label, isLabel⟩ := Option.ne_none_iff_exists'.mp (orderly.labelled _ mark)
  obtain ⟨target, placed, goes⟩ := orderly.aimed.hits _ mark label isLabel
  refine ⟨label, _, target, isLabel, cut, placed, ?_⟩
  rw [← goes, Branch.target, Branch.width]
  exact congrArg (· + branch.offset.toInt) (Int.natCast_add _ _)

/-- A label of a listing is where it is cut. -/
theorem Level.label_cut (level : Level room nextLabel chunks) {front back : List Action}
    {label : Label} (whole : actionsOf nextLabel chunks = front ++ .marker (.label label) :: back) :
    ∃ target, CutAt chunks front back target ∧ (label, target) ∈
      labelMarks (listed (piecesFrom nextLabel chunks).2 (piecesFrom nextLabel chunks).1) := by
  obtain ⟨early, piece, late, isListed, isMarker, _, _, cut⟩ := level.exists_cut rfl whole
  refine ⟨_, cut rfl, ?_⟩
  rw [isListed]
  exact mem_marksOf_split (by rw [isMarker]; rfl)

/-- What comes next after a label of a listing is real. -/
theorem Level.real_behind_label (level : Level room nextLabel chunks) {front back : List Action}
    {label : Label} {next : Action}
    (whole : actionsOf nextLabel chunks = front ++ .marker (.label label) :: next :: back) :
    next.isMarker = false := by
  obtain ⟨early, piece, late, isListed, isMarker, isBack, _⟩ := level.exists_cut rfl whole
  have chain := (orderly_listed level.real level.finishable (piecesFrom nextLabel chunks).2).before
  rw [isListed, List.map_append, List.map_cons, isMarker] at chain
  cases late with
  | nil => cases isBack
  | cons following late =>
    have real : following.action.isMarker = false :=
      (List.isChain_append.mp chain).2.1.rel (fun none => by cases none)
    obtain ⟨part, parts, split⟩ :=
      List.exists_cons_of_length_pos (length_splitPush_pos following.action)
    rw [List.map_cons, splitPushes_cons, split] at isBack
    obtain rfl := (List.cons.inj isBack).1
    exact Action.isMarker_splitPush real next (split ▸ List.mem_cons_self)

/-- **The labels of a level stand where its branches go.** -/
theorem Level.labelsExact (level : Level room nextLabel chunks) :
    LabelsExact chunks (actionsOf nextLabel chunks) := by
  have orderly := orderly_listed level.real level.finishable (piecesFrom nextLabel chunks).2
  refine ⟨?_, ?_, ?_, ?_, ?_⟩
  · exact (spells_of_readAs orderly.solid (level.readAs_listed _)).1
  · intro front branch back whole
    obtain ⟨label, start, target, isLabel, cut, placed, goes⟩ := level.branch_cut whole
    refine ⟨label, start, isLabel, mem_finished_of_mark Action.label?_eq_some_iff rfl placed, cut,
      fun front' back' whole' => ?_⟩
    obtain ⟨target', cut', mark⟩ := level.label_cut whole'
    rw [orderly.place_unique placed mark] at goes
    exact ⟨target', cut', goes⟩
  · intro label inside
    obtain ⟨front, back, whole⟩ := List.append_of_mem inside
    obtain ⟨_, _, mark⟩ := level.label_cut whole
    obtain ⟨⟨branch, place⟩, isBranch, same⟩ := orderly.used _ mark
    exact ⟨branch, mem_finished_of_mark Action.branch?_eq_some_iff rfl isBranch, same⟩
  · exact fun front label next back whole => level.real_behind_label whole
  · intro front branch back front' branch' back' start start' whole whole' cut cut'
    obtain ⟨label, place, target, isLabel, here, placed, goes⟩ := level.branch_cut whole
    obtain ⟨label', place', target', isLabel', here', placed', goes'⟩ := level.branch_cut whole'
    rw [cut.unique here, cut'.unique here', ← goes, ← goes', isLabel, isLabel']
    constructor
    · intro same
      obtain rfl := Option.some.inj same
      exact congrArg Nat.cast (orderly.place_unique placed placed')
    · intro same
      rw [Int.natCast_inj.mp same] at placed
      rw [orderly.label_unique placed placed']

/-! ### Normal forms -/

theorem readable_piecesFrom {chunks : List Chunk} {room : Nat}
    (formed : AllFormed Instruction.SpelledBy room chunks) (nextLabel : Nat) :
    ∀ piece ∈ (piecesFrom nextLabel chunks).1, ∀ instruction,
      piece.action = .plain instruction → instruction.Readable := by
  induction chunks generalizing nextLabel with
  | nil =>
    rw [piecesFrom]
    exact fun _ inside => absurd inside List.not_mem_nil
  | cons chunk rest ih =>
    rw [AllFormed] at formed
    rw [piecesFrom]
    intro piece inside instruction same
    obtain rfl | later := List.mem_cons.mp inside
    · cases chunk with
      | instruction found bytes =>
        rw [Chunk.Formed] at formed
        rw [Chunk.piece] at same
        obtain rfl := Action.plain.inj same
        exact formed.1.readable
      | definition signature bytes code =>
        rw [Chunk.piece] at same
        cases same
    · exact ih formed.2 _ piece later instruction same

/-- The instructions of a level are single pushes, or such that can be read and push nothing. -/
theorem Level.readable (level : Level room nextLabel chunks) {instruction : Instruction}
    (inside : .plain instruction ∈ actionsOf nextLabel chunks) :
    (∃ value, instruction = .push value) ∨
      instruction.Readable ∧ (Action.plain instruction).pushed = [] := by
  have every : ∀ piece ∈ listed (piecesFrom nextLabel chunks).2 (piecesFrom nextLabel chunks).1,
      ∀ instruction, piece.action = .plain instruction → instruction.Readable := by
    refine forall_listed _ level.real level.finishable.fit _ (fun marker instruction same => ?_)
      fun piece isPiece labels position instruction same => ?_
    · cases same
    · obtain same' | ⟨branch, _, same'⟩ := Action.bindTo_cases labels position piece.action
      · rw [Piece.bindTo, same'] at same
        exact readable_piecesFrom level.formed nextLabel piece isPiece instruction same
      · rw [Piece.bindTo, same'] at same
        obtain rfl := Action.plain.inj same
        trivial
  obtain ⟨whole, unpushed⟩ | ⟨_, _, value, _, same⟩ := mem_splitPushes_iff.mp inside
  · obtain ⟨piece, isPiece, same⟩ := List.mem_map.mp whole
    exact .inr ⟨every piece isPiece instruction same, unpushed⟩
  · exact .inl ⟨value, Action.plain.inj same⟩

/-- **A level of a listing is in normal form.** -/
theorem Level.normalForm (level : Level room nextLabel chunks) :
    NormalForm (actionsOf nextLabel chunks) where
  single values inside := by
    obtain ⟨value, same⟩ | ⟨_, unpushed⟩ := level.readable inside
    · cases same
    · exact unpushed
  basic op inside := by
    obtain ⟨value, same⟩ | ⟨readable, _⟩ := level.readable inside
    · cases same
    · exact ⟨readable.1, Option.isSome_eq_false_iff.mp readable.2 |> Option.isNone_iff_eq_none.mp⟩
  unknown value payload inside := by
    obtain ⟨value, same⟩ | ⟨readable, _⟩ := level.readable inside
    · cases same
    · exact readable.1

/-! ### Numbers of labels -/

/-- The labels of a sequence are its own and those of the code of its definitions. -/
theorem perm_labelsWithin (actions : List Action) :
    (labelsWithin actions).Perm
      ((bodiesOf actions).flatMap labelsWithin ++ actions.filterMap Action.label?) := by
  induction actions with
  | nil =>
    rw [labelsWithin]
    exact .refl _
  | cons action rest ih =>
    rw [labelsWithin]
    cases action with
    | plain instruction =>
      rw [Action.labelsWithin]
      exact ih
    | define signature body =>
      rw [Action.labelsWithin]
      exact (ih.append_left (labelsWithin body)).trans (.of_eq (List.append_assoc ..).symm)
    | marker found =>
      rw [Action.labelsWithin, List.filterMap_cons]
      cases (Action.marker found).label? with
      | none => exact ih
      | some label => exact (ih.cons label).trans List.perm_middle.symm

theorem Action.body?_bindTo (action : Action) (labels : Nat → Option Label) (position : Nat) :
    (action.bindTo labels position).body? = action.body? := by
  obtain same | ⟨branch, rfl, same⟩ := Action.bindTo_cases labels position action
  · rw [same]
  · rw [same]
    rfl

/-- The code of a finished sequence is that of its pieces. -/
theorem bodiesOf_finished {pieces : List Piece} (real : AllReal pieces) (fit : AllFit pieces)
    (nextLabel : Nat) :
    bodiesOf (finished nextLabel pieces) = bodiesOf (pieces.map Piece.action) := by
  have same := @filterMap_listed pieces _ Action.body? real fit nextLabel (fun _ => rfl)
    Action.body?_bindTo
  rw [bodiesOf, finished, filterMap_splitPushes fun _ some => (Action.unseen_of_pushed some).2.2.1,
    bodiesOf, List.filterMap_map, List.filterMap_map]
  exact same

/-- The labels of a finished sequence itself are so many, numbered from one on. -/
theorem perm_ownLabels {pieces : List Piece} (real : AllReal pieces)
    (finishable : Finishable pieces) (nextLabel : Nat) :
    (((finished nextLabel pieces).filterMap Action.label?).map Label.id).Perm
      (List.range' nextLabel (usesOf pieces).length) := by
  have orderly := orderly_listed real finishable nextLabel
  have numbered := numberedFrom_listed real finishable.fit nextLabel
  rw [NumberedFrom] at numbered
  rw [finished, filterMap_splitPushes fun _ some => (Action.unseen_of_pushed some).1,
    ← map_fst_labelMarks]
  refine (List.perm_ext_iff_of_nodup ?_ List.nodup_range').mpr fun id => ?_
  · exact orderly.aimed.once.map fun first second same => by
      cases first
      cases second
      exact congrArg Label.mk same
  · rw [← numbered, mem_usesFrom, orderly.mem_branchIds]
    constructor
    · intro inside
      obtain ⟨label, isLabel, rfl⟩ := List.mem_map.mp inside
      obtain ⟨⟨_, place⟩, mark, rfl⟩ := List.mem_map.mp isLabel
      exact .inr ⟨place, mark⟩
    · rintro (none | ⟨place, mark⟩)
      · exact absurd none List.not_mem_nil
      · exact List.mem_map.mpr ⟨_, List.mem_map.mpr ⟨_, mark, rfl⟩, rfl⟩

/-- The labels of a level are those inside its pieces, and then its own. -/
theorem Level.perm_labelsWithin (level : Level room nextLabel chunks) {count : Nat}
    (next : (piecesFrom nextLabel chunks).2 = nextLabel + count)
    (perm : ((labelsWithin ((piecesFrom nextLabel chunks).1.map Piece.action)).map Label.id).Perm
      (List.range' nextLabel count)) :
    ((labelsWithin (actionsOf nextLabel chunks)).map Label.id).Perm
      (List.range' nextLabel (count + (usesOf (piecesFrom nextLabel chunks).1).length)) := by
  have unlabelled :
      ((piecesFrom nextLabel chunks).1.map Piece.action).filterMap Action.label? = [] := by
    refine List.filterMap_eq_nil_iff.mpr fun action inside => ?_
    obtain ⟨piece, isPiece, rfl⟩ := List.mem_map.mp inside
    exact (level.real piece isPiece).label?
  have inner := ActionCode.perm_labelsWithin ((piecesFrom nextLabel chunks).1.map Piece.action)
  have whole := ActionCode.perm_labelsWithin (actionsOf nextLabel chunks)
  have own := perm_ownLabels level.real level.finishable (piecesFrom nextLabel chunks).2
  rw [unlabelled, List.append_nil] at inner
  rw [actionsOf, bodiesOf_finished level.real level.finishable.fit] at whole
  refine (whole.map Label.id).trans ?_
  rw [List.map_append, ← List.range'_append_1, ← next]
  exact ((inner.map Label.id).symm.trans perm).append own

end

mutual

theorem Chunk.perm_labelsWithin : ∀ {chunk : Chunk} {room nextLabel : Nat},
    chunk.Formed Instruction.SpelledBy room → chunk.Sound nextLabel →
      ∃ count, (chunk.piece nextLabel).2 = nextLabel + count ∧
        ((chunk.piece nextLabel).1.action.labelsWithin.map Label.id).Perm
          (List.range' nextLabel count)
  | .instruction instruction bytes, room, nextLabel, formed, sound => by
    rw [Chunk.piece, Action.labelsWithin]
    exact ⟨0, rfl, .refl _⟩
  | .definition signature bytes code, room, nextLabel, formed, sound => by
    rw [Chunk.Formed] at formed
    rw [Chunk.Sound] at sound
    have level : Level (room - 1) nextLabel code := ⟨formed.2.2, sound.1, sound.2⟩
    obtain ⟨inner, next, perm⟩ := perm_labelsWithin_piecesFrom formed.2.2 sound.1
    rw [Chunk.piece, Action.labelsWithin]
    refine ⟨inner + (usesOf (piecesFrom nextLabel code).1).length, ?_, ?_⟩
    · dsimp only
      rw [next, Nat.add_assoc]
    · exact level.perm_labelsWithin next perm

theorem perm_labelsWithin_piecesFrom : ∀ {chunks : List Chunk} {room nextLabel : Nat},
    AllFormed Instruction.SpelledBy room chunks → AllSound nextLabel chunks →
      ∃ count, (piecesFrom nextLabel chunks).2 = nextLabel + count ∧
        ((labelsWithin ((piecesFrom nextLabel chunks).1.map Piece.action)).map Label.id).Perm
          (List.range' nextLabel count)
  | [], room, nextLabel, formed, sound => by
    rw [piecesFrom, List.map_nil, labelsWithin]
    exact ⟨0, rfl, .refl _⟩
  | chunk :: rest, room, nextLabel, formed, sound => by
    rw [AllFormed] at formed
    rw [AllSound] at sound
    obtain ⟨first, next, perm⟩ := Chunk.perm_labelsWithin formed.1 sound.1
    obtain ⟨later, next', perm'⟩ := perm_labelsWithin_piecesFrom formed.2 sound.2
    rw [piecesFrom, List.map_cons, labelsWithin]
    dsimp only
    rw [next] at next' perm'
    refine ⟨first + later, by rw [next, next', Nat.add_assoc], ?_⟩
    rw [List.map_append, ← List.range'_append_1, next]
    exact perm.append perm'

end

/-- **The labels of a listing and of all its code are numbered from zero on**, each placed once. -/
theorem perm_labelsWithin_listing {room : Nat} {chunks : List Chunk} (level : Level room 0 chunks) :
    ∃ count, ((labelsWithin (actionsOf 0 chunks)).map Label.id).Perm (List.range count) := by
  obtain ⟨count, next, perm⟩ := perm_labelsWithin_piecesFrom level.formed level.sound
  exact ⟨_, (level.perm_labelsWithin next perm).trans (.of_eq List.range_eq_range'.symm)⟩

/-! ### Every level -/

/-- A sequence is the listing of a level. -/
def ListedFrom (chunks : List Chunk) (actions : List Action) : Prop :=
  ∃ room nextLabel, Level room nextLabel chunks ∧ actions = actionsOf nextLabel chunks

theorem listedFrom_codes {chunks : List Chunk} {room nextLabel : Nat}
    (formed : AllFormed Instruction.SpelledBy room chunks) (sound : AllSound nextLabel chunks) :
    List.Forall₂ ListedFrom (codesOf chunks)
      (bodiesOf ((piecesFrom nextLabel chunks).1.map Piece.action)) := by
  induction chunks generalizing nextLabel with
  | nil =>
    rw [piecesFrom]
    exact .nil
  | cons chunk rest ih =>
    rw [AllFormed] at formed
    rw [AllSound] at sound
    rw [piecesFrom]
    cases chunk with
    | instruction instruction bytes => exact ih formed.2 sound.2
    | definition signature bytes code =>
      rw [Chunk.Formed] at formed
      rw [Chunk.Sound] at sound
      rw [Chunk.piece] at sound ⊢
      exact .cons ⟨room - 1, nextLabel, ⟨formed.1.2.2, sound.1.1, sound.1.2⟩, rfl⟩
        (ih formed.2 sound.2)

/-- The code of the definitions of a listing is listed from their records. -/
theorem ListedFrom.inside {chunks : List Chunk} {actions : List Action}
    (isListed : ListedFrom chunks actions) :
    List.Forall₂ ListedFrom (codesOf chunks) (bodiesOf actions) := by
  obtain ⟨room, nextLabel, level, rfl⟩ := isListed
  rw [actionsOf, bodiesOf_finished level.real level.finishable.fit]
  exact listedFrom_codes level.formed level.sound

/-- **Labels and normal form of all that is disassembled.** A buffer is the bytes of its records.
The labels of the whole tree are numbered from zero on, each placed once. At every level each branch
has a label, which stands before the record that begins where the branch goes, each label is that of
a branch, and two branches share one exactly if they go to the same byte. -/
theorem labels_of_disassembled {settings : DisassemblySettings} {bytes : List UInt8}
    {actions : List Action} (raw : settings.examineStack = false)
    (success : (disassemble settings bytes).result = .ok actions) :
    bytesOf (chunks settings.maxDepth bytes) = bytes ∧
    AllFormed Instruction.SpelledBy settings.maxDepth (chunks settings.maxDepth bytes) ∧
    (∃ count, ((labelsWithin actions).map Label.id).Perm (List.range count)) ∧
    (∀ path, Option.Rel LabelsExact (recordsAt? path (chunks settings.maxDepth bytes))
      (codeAt? path actions)) ∧
    EveryLevel NormalForm actions := by
  obtain ⟨accepted, rfl⟩ := disassemble_ok success
  rw [DisassemblySettings.examined, raw, if_neg Bool.false_ne_true]
  have level := accepted.level
  refine ⟨accepted.whole, accepted.formed, perm_labelsWithin_listing level, fun path => ?_,
    level.everyLevel fun _ _ _ inner => inner.normalForm⟩
  have start : ListedFrom (chunks settings.maxDepth bytes)
      (plainActions settings.maxDepth bytes) := ⟨_, _, level, rfl⟩
  refine rel_recordsAt ?_ (fun _ _ => ListedFrom.inside) start path
  rintro _ _ ⟨room, nextLabel, inner, rfl⟩
  exact inner.labelsExact

/-- A definition with a branch to its end, and two branches to the byte behind them. -/
theorem labels_of_disassembled_shared :
    ∃ actions, (disassemble .raw [0x9b, 6, 0, 0x66, 0, 0, 0, 5, 0, 0x99, 2, 0, 0, 0,
        0x9d, 2, 0, 5, 0, 0x99, 2, 0, 0, 0, 0x06]).result = .ok actions ∧
      labelsWithin actions = [⟨0⟩, ⟨1⟩] ∧
      ∀ path, Option.Rel LabelsExact
        (recordsAt? path (chunks defaultMaxDepth [0x9b, 6, 0, 0x66, 0, 0, 0, 5, 0,
          0x99, 2, 0, 0, 0, 0x9d, 2, 0, 5, 0, 0x99, 2, 0, 0, 0, 0x06]))
        (codeAt? path actions) :=
  ⟨[.define (.simple "f" []) [.plain (.branch ⟨false, 0, some ⟨0⟩⟩), .marker (.label ⟨0⟩)],
      .plain (.branch ⟨true, 5, some ⟨1⟩⟩), .plain (.branch ⟨false, 0, some ⟨1⟩⟩),
      .marker (.label ⟨1⟩), .plain (.basic .play)],
    by decide +kernel, by decide +kernel,
    (@labels_of_disassembled .raw _ _ rfl (by decide +kernel)).2.2.2.1⟩

end ActionCode
