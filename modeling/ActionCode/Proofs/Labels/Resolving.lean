/-
**Resolving enters the offsets that labels ask for.**

* `labelMarks`, `branchMarks`: where the labels and the branches of pieces are.
* `Aimed`: no label is placed twice, and every labelled branch goes where its label is.
* **`resolveOwnBranches_ok_iff`**: a sequence is resolved as one that differs in the offsets of its
  labelled branches only, and whose branches are aimed.
-/

import ActionCode.Assembly.Branches
import ActionCode.Proofs.Labels.Binding
import ActionCode.Proofs.Levels.Widths

namespace ActionCode

/-! ### Places of labels and branches -/

/-- What the actions of pieces from a byte on are, and where they are. -/
def marksOf {β : Type} (view : Action → Option β) (position : Nat) :
    List Piece → List (β × Nat)
  | [] => []
  | piece :: rest =>
    (match view piece.action with
      | some found => [(found, position)]
      | none => []) ++ marksOf view (position + piece.bytes) rest

theorem marksOf_cons_iff {β : Type} {view : Action → Option β} {position : Nat} {piece : Piece}
    {rest : List Piece} {mark : β × Nat} :
    mark ∈ marksOf view position (piece :: rest) ↔
      (view piece.action = some mark.1 ∧ mark.2 = position) ∨
        mark ∈ marksOf view (position + piece.bytes) rest := by
  obtain ⟨value, place⟩ := mark
  rw [marksOf, List.mem_append]
  refine or_congr_left ?_
  cases view piece.action with
  | none => simp
  | some found => simp [eq_comm]

/-- What a piece is, is where the piece begins. -/
theorem reached_of_marksOf {β : Type} {view : Action → Option β} (point : Point)
    {pieces : List Piece} {mark : β × Nat} (inside : mark ∈ marksOf view point.bytes pieces) :
    (∃ last, Reached point pieces last ∧ last.bytes = mark.2) ∧
      ∃ piece ∈ pieces, view piece.action = some mark.1 := by
  induction pieces generalizing point with
  | nil => cases inside
  | cons piece rest ih =>
    rcases marksOf_cons_iff.mp inside with ⟨seen, here⟩ | later
    · exact ⟨⟨point, .here _ _, here.symm⟩, piece, List.mem_cons_self, seen⟩
    · obtain ⟨⟨last, reached, equal⟩, other, member, seen⟩ := ih (point.after piece) later
      exact ⟨⟨last, reached.later, equal⟩, other, List.mem_cons_of_mem _ member, seen⟩

/-- What is made of an action is where some action is of which this is made. -/
theorem mem_marksOf {β : Type} {view : Action → Option β} {position : Nat} {pieces : List Piece}
    {found : β} {place : Nat} :
    (found, place) ∈ marksOf view position pieces ↔
      ∃ action, (action, place) ∈ marksOf some position pieces ∧ view action = some found := by
  induction pieces generalizing position with
  | nil =>
    constructor
    · intro inside
      cases inside
    · rintro ⟨_, inside, _⟩
      cases inside
  | cons piece rest ih =>
    rw [marksOf_cons_iff, ih]
    constructor
    · rintro (⟨seen, here⟩ | ⟨action, inside, seen⟩)
      · exact ⟨piece.action, marksOf_cons_iff.mpr (.inl ⟨rfl, here⟩), seen⟩
      · exact ⟨action, marksOf_cons_iff.mpr (.inr inside), seen⟩
    · rintro ⟨action, inside, seen⟩
      rcases marksOf_cons_iff.mp inside with ⟨equal, here⟩ | inside
      · obtain rfl : piece.action = action := Option.some.inj equal
        exact .inl ⟨seen, here⟩
      · exact .inr ⟨action, inside, seen⟩

theorem map_fst_marksOf {β : Type} (view : Action → Option β) (position : Nat)
    (pieces : List Piece) :
    (marksOf view position pieces).map Prod.fst = pieces.filterMap fun piece => view piece.action := by
  induction pieces generalizing position with
  | nil => rfl
  | cons piece rest ih =>
    rw [marksOf, List.map_append, ih, List.filterMap_cons]
    cases view piece.action <;> rfl

/-- The labels of a sequence, and where they are. -/
def labelMarks (pieces : List Piece) : List (Label × Nat) := marksOf Action.label? 0 pieces

/-- The branches of a sequence, and where they are. -/
def branchMarks (pieces : List Piece) : List (Branch × Nat) := marksOf Action.branch? 0 pieces

/-- **No label is placed twice, and every labelled branch goes where its label is.** -/
structure Aimed (pieces : List Piece) : Prop where
  once : ((labelMarks pieces).map Prod.fst).Nodup
  hits : ∀ mark ∈ branchMarks pieces, ∀ label, mark.1.label = some label →
    ∃ target : Nat, (label, target) ∈ labelMarks pieces ∧ mark.1.target mark.2 = target

/-! ### Positions -/

/-- The positions of actions after an extent; `runStart` is where the current run of pushes began. -/
def placesFrom (extent : Extent) (runStart : Nat) : List Action → List Nat
  | [] => []
  | action :: rest =>
    (if extent.inRun && action.isPush then runStart else extent.bytes) ::
      placesFrom (extent.advance action)
        (if extent.inRun && action.isPush then runStart else extent.bytes) rest

theorem toList_positionsFrom (extent : Extent) (runStart : Nat) (done : Array Nat)
    (actions : List Action) :
    (positionsFrom extent runStart done actions).toList =
      done.toList ++ placesFrom extent runStart actions := by
  induction actions generalizing extent runStart done with
  | nil => exact (List.append_nil _).symm
  | cons action rest ih =>
    rw [positionsFrom, ih, Array.toList_push, List.append_assoc]
    rfl

theorem positions_eq (actions : List Action) :
    positions actions = placesFrom Extent.start 0 actions := by
  rw [positions, toList_positionsFrom]
  rfl

theorem length_placesFrom (extent : Extent) (runStart : Nat) (actions : List Action) :
    (placesFrom extent runStart actions).length = actions.length := by
  induction actions generalizing extent runStart with
  | nil => rfl
  | cons action rest ih => rw [placesFrom, List.length_cons, List.length_cons, ih]

/-- What an action with a place is, if it is no push, is where its piece is. -/
theorem filterMap_places {β : Type} (view : Action → Option β)
    (blind : ∀ value, view (.plain (.push value)) = none) (extent : Extent) (runStart : Nat)
    (actions : List Action) :
    (actions.zip (placesFrom extent runStart actions)).filterMap
        (fun row => (view row.1).map fun found => (found, row.2)) =
      marksOf view extent.bytes (extent.pieces actions) := by
  induction actions generalizing extent runStart with
  | nil => rfl
  | cons action rest ih =>
    have after : extent.bytes + (extent.piece action).bytes = (extent.advance action).bytes :=
      congrArg Point.bytes (extent.after_piece action)
    rw [placesFrom, List.zip_cons_cons, Extent.pieces, marksOf, after]
    rcases action.push_or_other with ⟨value, rfl⟩ | other
    · rw [List.filterMap_cons_none (by rw [blind]; rfl), ih]
      show _ = (match view (.plain (.push value)) with | some found => _ | none => []) ++ _
      rw [blind]
      rfl
    · rw [other, Bool.and_false, if_neg Bool.false_ne_true]
      show _ = (match view action with | some found => [(found, extent.bytes)] | none => []) ++ _
      cases seen : view action with
      | none => rw [List.filterMap_cons_none (by rw [seen]; rfl), ih]; rfl
      | some found => rw [List.filterMap_cons_some (by rw [seen]; rfl), ih]; rfl

theorem isPush_recastShell {cast : Instruction → Instruction} (keeps : Keeps cast)
    (action : Action) : (action.recastShell cast).isPush = action.isPush := by
  rcases action.push_or_other with ⟨value, rfl⟩ | other
  · rw [Action.recastShell, keeps.push]
  · rw [other]
    cases action with
    | plain instruction => exact keeps.other instruction other
    | define signature body => rfl
    | marker marker => rfl

theorem placesFrom_recastShell {cast : Instruction → Instruction} (keeps : Keeps cast)
    (extent : Extent) (runStart : Nat) (actions : List Action) :
    placesFrom extent runStart (actions.map (Action.recastShell cast)) =
      placesFrom extent runStart actions := by
  induction actions generalizing extent runStart with
  | nil => rfl
  | cons action rest ih =>
    rw [List.map_cons, placesFrom, placesFrom, keeps.advance_recastShell,
      isPush_recastShell keeps, ih]

/-! ### Labels -/

/-- The labels of actions with their places. -/
def labelRows (rows : List (Action × Nat)) : List (Label × Nat) :=
  rows.filterMap fun row => row.1.label?.map fun label => (label, row.2)

/-- A map knows where labels are. -/
def Places (placed : Std.TreeMap Nat Nat) (marks : List (Label × Nat)) : Prop :=
  ∀ label target, placed[label.id]? = some target ↔ (label, target) ∈ marks

theorem Places.contains {placed : Std.TreeMap Nat Nat} {marks : List (Label × Nat)}
    (places : Places placed marks) (label : Label) :
    placed.contains label.id = true ↔ label ∈ marks.map Prod.fst := by
  rw [Std.TreeMap.contains_eq_isSome_getElem?, Option.isSome_iff_exists]
  simp only [places label, List.mem_map, Prod.exists, exists_and_right, exists_eq_right]

theorem Places.insert {placed : Std.TreeMap Nat Nat} {marks : List (Label × Nat)}
    (places : Places placed marks) {label : Label} (fresh : label ∉ marks.map Prod.fst)
    (position : Nat) : Places (placed.insert label.id position) (marks ++ [(label, position)]) := by
  intro other target
  rw [Std.TreeMap.getElem?_insert, List.mem_append, List.mem_singleton]
  by_cases same : label.id = other.id
  · have equal : label = other := by
      cases label
      cases other
      exact congrArg Label.mk same
    subst equal
    rw [if_pos (Std.LawfulEqCmp.compare_eq_iff_eq.mpr rfl), Option.some.injEq]
    constructor
    · rintro rfl
      exact .inr rfl
    · rintro (inside | equal)
      · exact absurd (List.mem_map_of_mem inside) fresh
      · exact (Prod.mk.inj equal).2.symm
  · rw [if_neg fun equal => same (Std.LawfulEqCmp.compare_eq_iff_eq.mp equal), places other]
    refine (or_iff_left fun equal => same ?_).symm
    rw [(Prod.mk.inj equal).1]

/-- **Labels are placed exactly if none is placed twice.** -/
theorem labelPositions_spec (rows : List (Action × Nat)) {placed : Std.TreeMap Nat Nat}
    {marks : List (Label × Nat)} (places : Places placed marks) :
    (((marks ++ labelRows rows).map Prod.fst).Nodup → ∃ after,
      rows.foldlM placeLabel placed = .ok after ∧ Places after (marks ++ labelRows rows)) ∧
    ((marks.map Prod.fst).Nodup → ∀ after, rows.foldlM placeLabel placed = .ok after →
      ((marks ++ labelRows rows).map Prod.fst).Nodup) := by
  induction rows generalizing placed marks with
  | nil =>
    rw [labelRows, List.filterMap_nil, List.append_nil]
    exact ⟨fun _ => ⟨placed, rfl, places⟩, fun once _ _ => once⟩
  | cons row rest ih =>
    rw [List.foldlM_cons]
    unfold placeLabel
    cases isLabel : row.1.label? with
    | none =>
      have skip : labelRows (row :: rest) = labelRows rest :=
        List.filterMap_cons_none (by rw [isLabel]; rfl)
      rw [skip]
      exact ih places
    | some label =>
      have first : labelRows (row :: rest) = (label, row.2) :: labelRows rest :=
        List.filterMap_cons_some (by rw [isLabel]; rfl)
      have contains := places.contains label
      rw [first, List.append_cons]
      dsimp only
      by_cases known : label ∈ marks.map Prod.fst
      · rw [if_pos (contains.mpr known)]
        constructor
        · intro once
          rw [List.map_append, List.map_append, List.append_assoc] at once
          have apart := (List.nodup_append.mp once).2.2 label known label
          exact absurd rfl (apart List.mem_cons_self)
        · intro _ after success
          cases success
      · rw [if_neg fun inside => known (contains.mp inside)]
        obtain ⟨succeeds, only⟩ := ih (places.insert known row.2)
        refine ⟨succeeds, fun once => only ?_⟩
        rw [List.map_append]
        refine List.nodup_append.mpr ⟨once, List.pairwise_singleton _ _, ?_⟩
        rintro other inside _ member rfl
        rw [List.mem_singleton.mp member] at inside
        exact known inside

/-! ### Offsets -/

/-- A branch without its offset, if it is labelled. -/
def Instruction.unaimed : Instruction → Instruction
  | .branch jump =>
    .branch (match jump.label with
      | some _ => { jump with offset := 0 }
      | none => jump)
  | instruction => instruction

theorem keeps_unaimed : Keeps Instruction.unaimed where
  width instruction := by
    cases instruction with
    | branch branch =>
      obtain ⟨conditional, offset, label⟩ := branch
      cases label <;> cases conditional <;> rfl
    | _ => rfl
  push _ := rfl
  other instruction other := by
    cases instruction with
    | branch branch => rfl
    | _ => exact other

/-- An action at a position goes where its label is, if it is a labelled branch. -/
def Action.AimedAt (action : Action) (position : Nat) (placed : Std.TreeMap Nat Nat) : Prop :=
  ∀ branch label, action.branch? = some branch → branch.label = some label →
    ∃ target : Nat, placed[label.id]? = some target ∧ branch.target position = target

theorem Action.eq_branch_of_branch? {action : Action} {branch : Branch}
    (found : action.branch? = some branch) : action = .plain (.branch branch) := by
  cases action with
  | plain instruction =>
    cases instruction with
    | branch jump =>
      cases found
      rfl
    | _ => cases found
  | _ => cases found

theorem Action.label?_eq_some_iff {label : Label} (action : Action) :
    action.label? = some label ↔ action = .marker (.label label) := by
  constructor
  · intro isLabel
    cases action with
    | marker found =>
      cases found with
      | label other =>
        exact congrArg (fun label => Action.marker (.label label)) (Option.some.inj isLabel)
      | _ => cases isLabel
    | _ => cases isLabel
  · rintro rfl
    rfl

theorem Action.branch?_eq_some_iff {branch : Branch} (action : Action) :
    action.branch? = some branch ↔ action = .plain (.branch branch) :=
  ⟨eq_branch_of_branch?, fun equal => equal ▸ rfl⟩

theorem Action.recastShell_unaimed_of_other {action : Action} (other : action.branch? = none) :
    action.recastShell Instruction.unaimed = action := by
  cases action with
  | plain instruction =>
    cases instruction with
    | branch jump => cases other
    | _ => rfl
  | _ => rfl

theorem Action.branch?_recastShell_unaimed (action : Action) :
    (action.recastShell Instruction.unaimed).branch? = action.branch?.map fun branch =>
      match branch.label with
      | some _ => { branch with offset := 0 }
      | none => branch := by
  cases action with
  | plain instruction =>
    cases instruction with
    | branch jump => rfl
    | _ => rfl
  | _ => rfl

/-- The offset of a branch is the one that its target asks for, and then it fits. -/
theorem Branch.target_eq_iff {branch : Branch} {position target : Nat} :
    branch.target position = target ↔
      Branch.reaches ((target : Int) - (position + Branch.width : Nat)) = true ∧
        branch.offset = Int16.ofInt ((target : Int) - (position + Branch.width : Nat)) := by
  have low : -32768 ≤ branch.offset.toInt := Int16.le_toInt branch.offset
  have high : branch.offset.toInt < 32768 := Int16.toInt_lt branch.offset
  unfold Branch.target Branch.reaches
  generalize position + Branch.width = stop
  rw [Bool.and_eq_true, decide_eq_true_iff, decide_eq_true_iff]
  constructor
  · intro same
    have offset : (target : Int) - stop = branch.offset.toInt := by omega
    rw [offset]
    exact ⟨⟨low, by omega⟩, (Int16.ofInt_toInt branch.offset).symm⟩
  · rintro ⟨⟨fits, fits'⟩, same⟩
    rw [same, Int16.toInt_ofInt_of_le fits (by omega)]
    omega

/-- What differs from a branch in its offset only is one. -/
theorem recastShell_branch_eq_iff {conditional : Bool} {offset : Int16} {label : Option Label}
    {action : Action} :
    (Action.plain (.branch ⟨conditional, offset, label⟩)).recastShell Instruction.unaimed =
        action.recastShell Instruction.unaimed ↔
      ∃ offset', action = .plain (.branch ⟨conditional, offset', label⟩) ∧
        (label = none → offset' = offset) := by
  constructor
  · intro same
    have view := congrArg Action.branch? same
    rw [Action.branch?_recastShell_unaimed, Action.branch?_recastShell_unaimed] at view
    obtain ⟨⟨conditional', offset', label'⟩, found, equal⟩ := Option.map_eq_some_iff.mp view.symm
    rw [Action.eq_branch_of_branch? found]
    cases label <;> cases label' <;> cases equal
    · exact ⟨_, rfl, fun _ => rfl⟩
    · exact ⟨_, rfl, fun none => by cases none⟩
  · rintro ⟨offset', rfl, equal⟩
    cases label with
    | none => rw [equal rfl]
    | some label => rfl

/-- A labelled branch is resolved if its label is in reach, and then goes there. -/
theorem Branch.resolve_ok_iff {placed : Std.TreeMap Nat Nat} {position : Nat}
    {branch resolved : Branch} :
    branch.resolve placed position = .ok resolved ↔
      ∃ offset, resolved = { branch with offset := offset } ∧
        (branch.label = none → offset = branch.offset) ∧
        ∀ label, branch.label = some label →
          ∃ target : Nat, placed[label.id]? = some target ∧ resolved.target position = target := by
  obtain ⟨conditional, offset, label⟩ := branch
  unfold Branch.resolve
  cases label with
  | none =>
    dsimp only
    constructor
    · rintro ⟨⟩
      exact ⟨offset, rfl, fun _ => rfl, nofun⟩
    · rintro ⟨offset', rfl, same, _⟩
      rw [same rfl]
  | some label =>
    dsimp only
    cases known : placed[label.id]? with
    | none =>
      constructor
      · rintro ⟨⟩
      · rintro ⟨_, _, _, aimed⟩
        obtain ⟨target, found, _⟩ := aimed label rfl
        rw [known] at found
        cases found
    | some target =>
      dsimp only
      constructor
      · intro success
        split at success
        · rename_i reaches
          cases success
          refine ⟨_, rfl, nofun, ?_⟩
          rintro _ ⟨⟩
          exact ⟨target, known, Branch.target_eq_iff.mpr ⟨reaches, rfl⟩⟩
        · cases success
      · rintro ⟨offset', rfl, _, aimed⟩
        obtain ⟨target', found, same⟩ := aimed label rfl
        rw [known] at found
        cases found
        obtain ⟨reaches, isOffset⟩ := Branch.target_eq_iff.mp same
        change offset' = _ at isOffset
        rw [if_pos reaches, isOffset]

theorem resolveRow_of_other {action : Action} (other : action.branch? = none)
    (placed : Std.TreeMap Nat Nat) (position : Nat) :
    resolveRow placed (action, position) = .ok action := by
  unfold resolveRow
  dsimp only
  rw [other]

theorem resolveRow_branch (placed : Std.TreeMap Nat Nat) (branch : Branch) (position : Nat) :
    resolveRow placed (.plain (.branch branch), position) =
      (branch.resolve placed position).map fun resolved => .plain (.branch resolved) := by
  unfold resolveRow
  dsimp only [Action.branch?]
  cases branch.resolve placed position <;> rfl

theorem resolveRow_branch_ok_iff {placed : Std.TreeMap Nat Nat} {branch : Branch} {position : Nat}
    {action : Action} :
    resolveRow placed (.plain (.branch branch), position) = .ok action ↔
      ∃ resolved, branch.resolve placed position = .ok resolved ∧
        action = .plain (.branch resolved) := by
  rw [resolveRow_branch]
  cases branch.resolve placed position with
  | error fault =>
    constructor
    · nofun
    · rintro ⟨_, ⟨⟩, _⟩
  | ok resolved =>
    constructor
    · rintro ⟨⟩
      exact ⟨resolved, rfl, rfl⟩
    · rintro ⟨_, ⟨⟩, rfl⟩
      rfl

/-- **A row is resolved as an action that differs in the offset of its branch only**, and goes where
its label is. -/
theorem resolveRow_ok_iff {placed : Std.TreeMap Nat Nat} {row : Action × Nat} {action : Action} :
    resolveRow placed row = .ok action ↔
      row.1.recastShell Instruction.unaimed = action.recastShell Instruction.unaimed ∧
        action.AimedAt row.2 placed := by
  obtain ⟨old, position⟩ := row
  cases isBranch : old.branch? with
  | none =>
    rw [resolveRow_of_other isBranch, Action.recastShell_unaimed_of_other isBranch]
    constructor
    · rintro ⟨⟩
      refine ⟨(Action.recastShell_unaimed_of_other isBranch).symm, fun branch label found => ?_⟩
      rw [isBranch] at found
      cases found
    · rintro ⟨same, _⟩
      have other := congrArg Action.branch? same
      rw [isBranch, Action.branch?_recastShell_unaimed] at other
      rw [same, Action.recastShell_unaimed_of_other (Option.map_eq_none_iff.mp other.symm)]
  | some branch =>
    obtain rfl := Action.eq_branch_of_branch? isBranch
    rw [resolveRow_branch_ok_iff, recastShell_branch_eq_iff]
    constructor
    · rintro ⟨_, success, rfl⟩
      obtain ⟨offset, rfl, same, aimed⟩ := Branch.resolve_ok_iff.mp success
      refine ⟨⟨offset, rfl, same⟩, ?_⟩
      rintro _ label ⟨⟩ labelled
      exact aimed label labelled
    · rintro ⟨⟨offset, rfl, same⟩, aimed⟩
      exact ⟨_, Branch.resolve_ok_iff.mpr ⟨offset, rfl, same, fun label => aimed _ label rfl⟩, rfl⟩

/-! ### Sequences -/

/-- A checked step for every element succeeds if each does. -/
theorem mapM_ok_iff {ε α β : Type} {step : α → Except ε β} {values : List α} {results : List β} :
    values.mapM step = .ok results ↔
      List.Forall₂ (fun value result => step value = .ok result) values results := by
  induction values generalizing results with
  | nil =>
    rw [List.mapM_nil, except_pure_ok_iff, List.forall₂_nil_left_iff]
  | cons value values ih =>
    rw [List.mapM_cons, List.forall₂_cons_left_iff]
    simp only [except_bind_ok_iff, except_pure_ok_iff, ih]
    constructor
    · rintro ⟨first, found, later, rest, rfl⟩
      exact ⟨first, later, found, rest, rfl⟩
    · rintro ⟨first, later, found, rest, rfl⟩
      exact ⟨first, found, later, rest, rfl⟩

theorem resolveRows_ok_iff {placed : Std.TreeMap Nat Nat} {actions others : List Action}
    {places : List Nat} (full : places.length = actions.length) :
    (actions.zip places).mapM (resolveRow placed) = .ok others ↔
      actions.map (Action.recastShell Instruction.unaimed) =
          others.map (Action.recastShell Instruction.unaimed) ∧
        ∀ row ∈ others.zip places, row.1.AimedAt row.2 placed := by
  rw [mapM_ok_iff]
  induction actions generalizing others places with
  | nil =>
    rw [List.zip_nil_left, List.forall₂_nil_left_iff, List.map_nil, eq_comm (a := []),
      List.map_eq_nil_iff]
    constructor
    · rintro rfl
      exact ⟨rfl, fun row inside => by cases inside⟩
    · exact fun both => both.1
  | cons action rest ih =>
    rcases places with _ | ⟨position, places⟩
    · cases full
    · rw [List.zip_cons_cons, List.forall₂_cons_left_iff]
      constructor
      · rintro ⟨other, others, found, later, rfl⟩
        obtain ⟨same, aimed⟩ := resolveRow_ok_iff.mp found
        obtain ⟨sames, aims⟩ := (ih (Nat.succ.inj full)).mp later
        refine ⟨?_, fun row inside => ?_⟩
        · rw [List.map_cons, List.map_cons, same, sames]
        · rcases List.mem_cons.mp inside with rfl | inside
          · exact aimed
          · exact aims row inside
      · rintro ⟨same, aimed⟩
        rcases others with _ | ⟨other, others⟩
        · cases same
        · obtain ⟨first, later⟩ := List.cons.inj same
          exact ⟨other, others,
            resolveRow_ok_iff.mpr ⟨first, aimed _ List.mem_cons_self⟩,
            (ih (Nat.succ.inj full)).mpr
              ⟨later, fun row inside => aimed row (List.mem_cons_of_mem _ inside)⟩, rfl⟩

theorem label?_recastShell (cast : Instruction → Instruction) (action : Action) :
    (action.recastShell cast).label? = action.label? := by
  cases action <;> rfl

/-- What a change of actions does not hide is where it was. -/
theorem marksOf_withAction {β : Type} {view : Action → Option β} {change : Action → Action}
    (blind : ∀ action : Action, view (change action) = view action) (position : Nat)
    (pieces : List Piece) :
    marksOf view position (pieces.map (Piece.withAction change)) = marksOf view position pieces := by
  induction pieces generalizing position with
  | nil => rfl
  | cons piece rest ih =>
    rw [List.map_cons, marksOf, ih, marksOf, Piece.withAction, blind]

theorem marksOf_recastShell {β : Type} {view : Action → Option β}
    {cast : Instruction → Instruction}
    (blind : ∀ action : Action, view (action.recastShell cast) = view action) (position : Nat)
    (pieces : List Piece) :
    marksOf view position (pieces.map (Piece.recastShell cast)) = marksOf view position pieces :=
  marksOf_withAction blind position pieces

/-- Labels are where they were after such a cast. -/
theorem labelMarks_of_recastShell {cast : Instruction → Instruction} (keeps : Keeps cast)
    {actions others : List Action}
    (same : actions.map (Action.recastShell cast) = others.map (Action.recastShell cast)) :
    labelMarks (Extent.start.pieces actions) = labelMarks (Extent.start.pieces others) := by
  have equal := congrArg (fun actions => labelMarks (Extent.start.pieces actions)) same
  dsimp only [labelMarks] at equal
  rwa [Extent.pieces_recastShell keeps, Extent.pieces_recastShell keeps,
    marksOf_recastShell (label?_recastShell cast),
    marksOf_recastShell (label?_recastShell cast)] at equal

/-- **The labels of a sequence are placed exactly if none is twice in it**, and then where they
are. -/
theorem labelPositions_own (actions : List Action) :
    (((labelMarks (Extent.start.pieces actions)).map Prod.fst).Nodup →
      ∃ placed, labelPositions (actions.zip (positions actions)) = .ok placed) ∧
    ∀ placed, labelPositions (actions.zip (positions actions)) = .ok placed →
      ((labelMarks (Extent.start.pieces actions)).map Prod.fst).Nodup ∧
        Places placed (labelMarks (Extent.start.pieces actions)) := by
  have labels : labelRows (actions.zip (positions actions)) =
      labelMarks (Extent.start.pieces actions) := by
    rw [positions_eq]
    exact filterMap_places Action.label? (fun _ => rfl) Extent.start 0 actions
  have empty : Places ∅ [] := fun label target => by
    rw [Std.TreeMap.getElem?_emptyc]
    constructor <;> rintro ⟨⟩
  obtain ⟨placing, once⟩ := labelPositions_spec (actions.zip (positions actions)) empty
  rw [List.nil_append, labels] at placing once
  refine ⟨fun nodup => (placing nodup).imp fun _ => And.left, fun placed success => ?_⟩
  have nodup := once List.nodup_nil placed success
  obtain ⟨after, success', places⟩ := placing nodup
  rw [labelPositions, success'] at success
  cases success
  exact ⟨nodup, places⟩

/-- The rows of a sequence are aimed if its branches go where its labels are. -/
theorem aimedAt_rows_iff {actions : List Action} {placed : Std.TreeMap Nat Nat}
    (places : Places placed (labelMarks (Extent.start.pieces actions))) :
    (∀ row ∈ actions.zip (positions actions), row.1.AimedAt row.2 placed) ↔
      ∀ mark ∈ branchMarks (Extent.start.pieces actions), ∀ label, mark.1.label = some label →
        ∃ target : Nat, (label, target) ∈ labelMarks (Extent.start.pieces actions) ∧
          mark.1.target mark.2 = target := by
  have branches : (actions.zip (positions actions)).filterMap
      (fun row => row.1.branch?.map fun branch => (branch, row.2)) =
        branchMarks (Extent.start.pieces actions) := by
    rw [positions_eq]
    exact filterMap_places Action.branch? (fun _ => rfl) Extent.start 0 actions
  rw [← branches]
  constructor
  · intro aimed mark inside label labelled
    obtain ⟨row, member, found⟩ := List.mem_filterMap.mp inside
    obtain ⟨branch, isBranch, rfl⟩ := Option.map_eq_some_iff.mp found
    obtain ⟨target, here, goes⟩ := aimed row member branch label isBranch labelled
    exact ⟨target, (places label target).mp here, goes⟩
  · intro aimed row inside branch label isBranch labelled
    obtain ⟨target, here, goes⟩ := aimed (branch, row.2)
      (List.mem_filterMap.mpr ⟨row, inside, by rw [isBranch]; rfl⟩) label labelled
    exact ⟨target, (places label target).mpr here, goes⟩

/-- **A sequence is resolved as one that differs in the offsets of its labelled branches only, and
whose branches are aimed.** -/
theorem resolveOwnBranches_ok_iff {actions others : List Action} :
    resolveOwnBranches actions = .ok others ↔
      actions.map (Action.recastShell Instruction.unaimed) =
          others.map (Action.recastShell Instruction.unaimed) ∧
        Aimed (Extent.start.pieces others) := by
  have full : (positions actions).length = actions.length := by
    rw [positions_eq, length_placesFrom]
  have samePositions : actions.map (Action.recastShell Instruction.unaimed) =
      others.map (Action.recastShell Instruction.unaimed) →
        positions actions = positions others := by
    intro same
    have equal := congrArg (placesFrom Extent.start 0) same
    rwa [placesFrom_recastShell keeps_unaimed, placesFrom_recastShell keeps_unaimed,
      ← positions_eq, ← positions_eq] at equal
  obtain ⟨placing, placed_own⟩ := labelPositions_own actions
  unfold resolveOwnBranches
  rw [except_bind_ok_iff]
  constructor
  · rintro ⟨placed, isPlaced, resolved⟩
    obtain ⟨nodup, places⟩ := placed_own placed isPlaced
    obtain ⟨same, aimed⟩ := (resolveRows_ok_iff full).mp resolved
    rw [labelMarks_of_recastShell keeps_unaimed same] at nodup places
    rw [samePositions same] at aimed
    exact ⟨same, nodup, (aimedAt_rows_iff places).mp aimed⟩
  · rintro ⟨same, aimed⟩
    have nodup := aimed.once
    rw [← labelMarks_of_recastShell keeps_unaimed same] at nodup
    obtain ⟨placed, isPlaced⟩ := placing nodup
    have places := (placed_own placed isPlaced).2
    rw [labelMarks_of_recastShell keeps_unaimed same] at places
    have rows := (aimedAt_rows_iff places).mpr aimed.hits
    rw [← samePositions same] at rows
    exact ⟨placed, isPlaced, (resolveRows_ok_iff full).mpr ⟨same, rows⟩⟩

/-- Resolving adjusts the offsets of labelled branches. -/
theorem adjusts_resolveOwnBranches : Adjusts resolveOwnBranches Instruction.unaimed :=
  adjusts_of_settles resolveOwnBranches_ok_iff

/-- **Branches are resolved to those of a sequence that differs in their offsets only**, and in which
they are aimed at every level. -/
theorem resolveBranches_ok_iff {actions others : List Action} :
    resolveBranches actions = .ok others ↔
      recastAll Instruction.unaimed actions = recastAll Instruction.unaimed others ∧
        EveryLevel (fun actions => Aimed (Extent.start.pieces actions)) others :=
  tryLevels_settles resolveOwnBranches_ok_iff

end ActionCode
