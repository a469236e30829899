/-
**What does not see how pushes are grouped.**

* `Regroups`: pieces that are the same but for the grouping of pushes and the code inside; each group
  takes the same room. **`regroups_mergePushes`**: so are those of a sequence and of its merged pushes.
* **`labelPositions_mergePushes`**: labels are in the same positions.
* **`resolveBranches_mergePushes`**, **`measureBlocks_mergePushes`**: branches have the same offsets, and
  blocks the same sizes.
-/

import ActionCode.Proofs.Blocks.Refusals
import ActionCode.Proofs.Derived.Editing
import ActionCode.Proofs.Merging.Grouping

namespace ActionCode

/-! ### Pieces -/

/-- All pieces are pushes. -/
def AllPushes (pieces : List Piece) : Prop := ∀ piece ∈ pieces, piece.action.pushed ≠ []

/-- Pieces from a point on are the same as others, but for the grouping of pushes and the code
inside. -/
inductive Regroups : Point → List Piece → List Piece → Prop
  | nil (point : Point) : Regroups point [] []
  | same {point : Point} (piece : Piece) {rest others : List Piece}
      (later : Regroups (point.after piece) rest others) :
      Regroups point (piece :: rest) (piece :: others)
  | define {point : Point} {signature : Signature} {body body' : List Action} {bytes records : Nat}
      {rest others : List Piece}
      (later : Regroups ⟨point.bytes + bytes, point.records + records⟩ rest others) :
      Regroups point (⟨.define signature body, bytes, records⟩ :: rest)
        (⟨.define signature body', bytes, records⟩ :: others)
  | group {point : Point} {front front' rest others : List Piece} (pushes : AllPushes front)
      (pushes' : AllPushes front') (room : point.through front = point.through front')
      (later : Regroups (point.through front) rest others) :
      Regroups point (front ++ rest) (front' ++ others)

theorem Regroups.symm {point : Point} {pieces others : List Piece}
    (regroups : Regroups point pieces others) : Regroups point others pieces := by
  induction regroups with
  | nil point => exact .nil point
  | same piece _ ih => exact .same piece ih
  | define _ ih => exact .define ih
  | group pushes pushes' room _ ih => exact .group pushes' pushes room.symm (room ▸ ih)

theorem AllPushes.singles (before : Extent) (values : List PushValue) :
    AllPushes (before.pieces (values.map fun value => .plain (.push value))) := by
  intro piece inside
  have member := List.mem_map_of_mem (f := Piece.action) inside
  rw [Extent.map_action_pieces] at member
  obtain ⟨value, _, isPush⟩ := List.mem_map.mp member
  rw [← isPush]
  exact List.cons_ne_nil value []

theorem AllPushes.pushOf {values : List PushValue} (some : values ≠ []) (before : Extent) :
    AllPushes (before.pieces [ActionCode.pushOf values]) := by
  intro piece inside
  obtain rfl := List.mem_singleton.mp inside
  show (ActionCode.pushOf values).pushed ≠ []
  rwa [pushed_pushOf]

theorem Extent.pieces_append (before : Extent) (front rest : List Action) :
    before.pieces (front ++ rest) = before.pieces front ++ (before.through front).pieces rest := by
  induction front generalizing before with
  | nil => rw [through]; rfl
  | cons action front ih =>
    rw [List.cons_append, pieces, ih, pieces, through_cons]
    rfl

theorem Extent.point_through_pieces (before : Extent) (actions : List Action) :
    before.point.through (before.pieces actions) = (before.through actions).point := by
  induction actions generalizing before with
  | nil => rw [through]; rfl
  | cons action rest ih =>
    rw [pieces, Point.through, List.foldl_cons, after_piece, through_cons, ← ih]
    rfl

theorem Extent.advance_mapInside_mergeRuns (before : Extent) (action : Action) :
    before.advance (action.mapInside mergeRuns) = before.advance action :=
  Extent.advance_mapInside encodedLength_mergeRuns before action

/-- **The pieces of merged pushes are those of the sequence, but for their grouping**, where no run goes
on. -/
theorem Extent.regroups_mergePushes (before : Extent) (actions : List Action) {before' : Extent}
    (same : before.point = before'.point)
    (apart : Stops actions ∨ before.inRun = false ∧ before'.inRun = false) :
    Regroups before.point (before.pieces actions) (before'.pieces (mergePushes actions)) := by
  induction actions using induction_on_runs generalizing before before' with
  | nil => exact .nil _
  | other action rest other ih =>
    have same' := advance_of_point other same
    have ends : (before.advance action).inRun = false := by rw [advance_other other]
    have later := ih _ (same' ▸ rfl : (before.advance action).point = (before'.advance action).point)
      (.inr ⟨ends, same' ▸ ends⟩)
    rw [← after_piece] at later
    rw [mergePushes_cons other, pieces, pieces, advance_mapInside_mergeRuns, piece_other other,
      piece_other ((Action.isPush_mapInside _ action).trans other)]
    rw [piece_other other] at later
    cases action with
    | plain instruction =>
      rw [Action.mapInside_plain]
      exact .same _ later
    | define signature body =>
      have room : ((Action.define signature body).mapInside mergeRuns).alone =
          ⟨.define signature (mergePushes body), (Action.define signature body).width,
            (Action.define signature body).recordCount⟩ := by
        rw [Action.alone, Action.width_mapInside, Action.mapInside_define]
        rfl
      rw [room]
      exact .define later
    | marker marker =>
      rw [Action.mapInside_marker]
      exact .same _ later
  | run values rest some stops ih =>
    have ends : before.inRun = false ∧ before'.inRun = false := by
      rcases apart with begins | ends
      · obtain ⟨value, values, rfl⟩ := List.exists_cons_of_ne_nil some
        cases begins _ rfl
      · exact ends
    obtain ⟨bytes, records, inRun⟩ := before
    obtain ⟨bytes', records', inRun'⟩ := before'
    obtain ⟨rfl, rfl⟩ : inRun = false ∧ inRun' = false := ends
    obtain ⟨rfl, rfl⟩ := Point.mk.inj same
    have room := point_through_joinRun bytes records values
    rw [joinRun_end some] at room
    have later := ih _ room.symm (.inl stops)
    rw [← point_through_pieces] at later
    rw [← point_through_pieces, ← point_through_pieces] at room
    rw [mergePushes_run some stops, ← List.singleton_append, pieces_append, pieces_append]
    exact .group (.singles _ values) (.pushOf some _) room.symm later

theorem regroups_mergePushes (actions : List Action) :
    Regroups ⟨0, 0⟩ (Extent.start.pieces actions) (Extent.start.pieces (mergePushes actions)) :=
  Extent.start.regroups_mergePushes actions rfl (.inr ⟨rfl, rfl⟩)

/-- What does not depend on the grouping of pushes holds of merged pushes as it does of the sequence. -/
theorem mergePushes_iff_of_regroups (holds : List Action → Prop)
    (keeps : ∀ {actions others : List Action},
      Regroups ⟨0, 0⟩ (Extent.start.pieces actions) (Extent.start.pieces others) →
        holds actions → holds others)
    (actions : List Action) : holds (mergePushes actions) ↔ holds actions :=
  ⟨keeps (regroups_mergePushes actions).symm, keeps (regroups_mergePushes actions)⟩

/-! ### Labels and branches -/

theorem AllPushes.marksOf_eq {β : Type} {view : Action → Option β}
    (blind : ∀ action, action.pushed ≠ [] → view action = none) {pieces : List Piece}
    (pushes : AllPushes pieces) (position : Nat) : marksOf view position pieces = [] := by
  induction pieces generalizing position with
  | nil => rfl
  | cons piece rest ih =>
    rw [marksOf, blind piece.action (pushes piece List.mem_cons_self),
      ih fun other inside => pushes other (List.mem_cons_of_mem _ inside)]
    rfl

/-- What is seen neither of pushes nor of the code inside, is where it was. -/
theorem Regroups.marksOf_eq {β : Type} {view : Action → Option β}
    (blind : ∀ action, action.pushed ≠ [] → view action = none)
    (blind' : ∀ signature body, view (.define signature body) = none) {point : Point}
    {pieces others : List Piece} (regroups : Regroups point pieces others) :
    marksOf view point.bytes pieces = marksOf view point.bytes others := by
  induction regroups with
  | nil point => rfl
  | same piece _ ih => exact congrArg (_ ++ ·) ih
  | define _ ih =>
    rw [marksOf, marksOf, blind', blind']
    exact ih
  | group pushes pushes' room _ ih =>
    rw [marksOf_append, marksOf_append, pushes.marksOf_eq blind, pushes'.marksOf_eq blind,
      ← Point.bytes_through, ← Point.bytes_through, ← room, ih]

theorem Regroups.labelMarks_eq {pieces others : List Piece}
    (regroups : Regroups ⟨0, 0⟩ pieces others) : labelMarks pieces = labelMarks others :=
  regroups.marksOf_eq (fun _ some => (Action.unseen_of_pushed some).1) fun _ _ => rfl

theorem Regroups.branchMarks_eq {pieces others : List Piece}
    (regroups : Regroups ⟨0, 0⟩ pieces others) : branchMarks pieces = branchMarks others :=
  regroups.marksOf_eq (fun _ some => (Action.unseen_of_pushed some).2.1) fun _ _ => rfl

/-- Only the rows of labels decide where labels are. -/
theorem labelPositions_eq (rows : List (Action × Nat)) :
    labelPositions rows = labelPositions ((labelRows rows).map fun mark =>
      (.marker (.label mark.1), mark.2)) := by
  unfold labelPositions
  generalize (∅ : Std.TreeMap Nat Nat) = placed
  induction rows generalizing placed with
  | nil => rfl
  | cons row rest ih =>
    obtain ⟨action, position⟩ := row
    rw [List.foldlM_cons, labelRows, List.filterMap_cons]
    cases isLabel : action.label? with
    | none =>
      have skips : placeLabel placed (action, position) = .ok placed := by
        rw [placeLabel, isLabel]
      rw [skips]
      exact ih placed
    | some label =>
      rw [(Action.label?_eq_some_iff action).mp isLabel]
      exact congrArg (placeLabel placed _ >>= ·) (funext ih)

/-- **The labels of merged pushes are where they were.** -/
theorem labelPositions_mergePushes (actions : List Action) :
    labelPositions ((mergePushes actions).zip (positions (mergePushes actions))) =
      labelPositions (actions.zip (positions actions)) := by
  have marks : ∀ actions : List Action, labelRows (actions.zip (positions actions)) =
      labelMarks (Extent.start.pieces actions) := by
    intro actions
    rw [positions_eq]
    exact filterMap_places Action.label? (fun _ => rfl) Extent.start 0 actions
  rw [labelPositions_eq, marks, ← (regroups_mergePushes actions).labelMarks_eq, ← marks,
    ← labelPositions_eq]

/-! ### Blocks -/

theorem AllPushes.closes_append_iff {front : List Piece} (pushes : AllPushes front) {point : Point}
    {rest : List Piece} {sized : List Action} {stack : List Pending} :
    Closes point (front ++ rest) sized stack ↔
      ∃ later, sized = front.map Piece.action ++ later ∧
        Closes (point.through front) rest later stack := by
  induction front generalizing point sized with
  | nil => exact ⟨fun closes => ⟨sized, rfl, closes⟩, fun ⟨_, same, closes⟩ => same ▸ closes⟩
  | cons piece front ih =>
    have flat := Action.flat_of_pushed (pushes piece List.mem_cons_self)
    have inner := @ih (fun other inside => pushes other (List.mem_cons_of_mem _ inside))
    constructor
    · intro closes
      obtain ⟨_, rfl, closes'⟩ := closes.cons_flat flat
      obtain ⟨later, rfl, closes''⟩ := inner.mp closes'
      exact ⟨later, rfl, closes''⟩
    · rintro ⟨later, rfl, closes⟩
      exact .flat flat (inner.mpr ⟨later, rfl, closes⟩)

/-- **Blocks that are closed stay closed when pushes are grouped otherwise**, and keep their sizes if
they have them. -/
theorem Regroups.closes {point : Point} {pieces others : List Piece}
    (regroups : Regroups point pieces others) {sized : List Action} {stack : List Pending}
    (closes : Closes point pieces sized stack) :
    ∃ sized', Closes point others sized' stack ∧
      (sized = pieces.map Piece.action → sized' = others.map Piece.action) := by
  induction regroups generalizing sized stack with
  | nil point =>
    cases closes
    exact ⟨[], .nil point, fun _ => rfl⟩
  | same piece _ ih =>
    cases closes with
    | flat flat later =>
      obtain ⟨sized', closes, keeps⟩ := ih later
      exact ⟨_, .flat flat closes, fun own => congrArg (_ :: ·) (keeps (List.cons.inj own).2)⟩
    | opening opens unsized spanned later =>
      obtain ⟨sized', closes, keeps⟩ := ih later
      refine ⟨_, .opening opens unsized spanned closes, fun own => ?_⟩
      obtain ⟨first, own⟩ := List.cons.inj own
      rw [first, keeps own, List.map_cons]
    | closing isClosing later =>
      obtain ⟨sized', closes, keeps⟩ := ih later
      exact ⟨_, .closing isClosing closes, fun own => congrArg (_ :: ·) (keeps (List.cons.inj own).2)⟩
  | define _ ih =>
    obtain ⟨later, rfl, closes'⟩ := closes.cons_flat ⟨rfl, rfl⟩
    obtain ⟨sized', closes, keeps⟩ := ih closes'
    exact ⟨_, .flat ⟨rfl, rfl⟩ closes, fun own => congrArg (_ :: ·) (keeps (List.cons.inj own).2)⟩
  | group pushes pushes' room _ ih =>
    obtain ⟨later, rfl, closes'⟩ := pushes.closes_append_iff.mp closes
    obtain ⟨sized', closes, keeps⟩ := ih closes'
    refine ⟨_, pushes'.closes_append_iff.mpr ⟨sized', rfl, room ▸ closes⟩, fun own => ?_⟩
    rw [List.map_append, List.append_cancel_left_eq] at own
    rw [keeps own, List.map_append]

/-! ### Passes that only adjust -/

/-- The code at a path of merged pushes. -/
theorem codeAt?_mergePushes (path : List Nat) (actions : List Action) :
    codeAt? path (mergePushes actions) = (codeAt? path actions).map mergePushes :=
  codeAt?_of_bodies bodiesOf_mergePushes path actions

theorem everyLevel_mergePushes_iff {holds : List Action → Prop} {actions : List Action} :
    EveryLevel holds (mergePushes actions) ↔
      EveryLevel (fun code => holds (mergePushes code)) actions := by
  rw [everyLevel_iff_codeAt, everyLevel_iff_codeAt]
  refine forall_congr' fun path => ?_
  rw [codeAt?_mergePushes]
  constructor
  · intro every code found
    exact every _ (congrArg (Option.map mergePushes) found)
  · intro every code found
    obtain ⟨own, isOwn, rfl⟩ := Option.map_eq_some_iff.mp found
    exact every own isOwn

/-- **A pass that only adjusts instructions, and that neither fails nor adjusts otherwise because pushes
have been merged, has the merged result of the sequence.** -/
theorem tryLevels_mergePushes {ε : Type} {pass : List Action → Except ε (List Action)}
    {cast : Instruction → Instruction} (adjusts : Adjusts pass cast) (spares : SparesPushes cast)
    (blind : ∀ actions, (∃ result, pass (recastAll cast actions) = .ok result) ↔
      ∃ result, pass actions = .ok result)
    (keeps : ∀ code, pass code = .ok code → pass (mergePushes code) = .ok (mergePushes code))
    (succeeds : ∀ code, (∃ result, pass (mergePushes code) = .ok result) ↔
      ∃ result, pass code = .ok result) (actions : List Action) :
    (tryLevels pass (mergePushes actions)).toOption =
      (tryLevels pass actions).toOption.map mergePushes := by
  have merges : ∀ actions : List Action,
      mergePushes (recastAll cast actions) = recastAll cast (mergePushes actions) :=
    mapLevels_recastAll spares.mergeRuns
  have alike : (∃ result, tryLevels pass (mergePushes actions) = .ok result) ↔
      ∃ result, tryLevels pass actions = .ok result := by
    rw [tryLevels_succeeds_iff adjusts blind, tryLevels_succeeds_iff adjusts blind,
      everyLevel_mergePushes_iff]
    simp only [succeeds]
  cases passed : tryLevels pass actions with
  | ok result =>
    obtain ⟨same, fixed⟩ := (tryLevels_adjusts adjusts).mp passed
    have merged : tryLevels pass (mergePushes actions) = .ok (mergePushes result) := by
      refine (tryLevels_adjusts adjusts).mpr ⟨by rw [← merges, same, merges], ?_⟩
      exact everyLevel_mergePushes_iff.mpr
        ⟨keeps _ fixed.1, allCodeHolds_of_imp keeps fixed.2⟩
    rw [merged]
    rfl
  | error fault =>
    cases merged : tryLevels pass (mergePushes actions) with
    | ok result =>
      obtain ⟨result, succeeded⟩ := alike.mp ⟨result, merged⟩
      rw [passed] at succeeded
      cases succeeded
    | error other => rfl

theorem sparesPushes_unaimed : SparesPushes Instruction.unaimed :=
  sparesPushes_of_pushed (fun _ => rfl) (fun _ => rfl) fun instruction => by
    cases instruction <;> rfl

theorem sparesPushes_unsized : SparesPushes Instruction.unsized :=
  sparesPushes_of_pushed (fun _ => rfl) (fun _ => rfl) fun instruction => by
    cases instruction <;> rfl

/-- **The branches of merged pushes have the offsets that they have in the sequence**, and they have none
if it has none. -/
theorem resolveBranches_mergePushes (actions : List Action) :
    (resolveBranches (mergePushes actions)).toOption =
      (resolveBranches actions).toOption.map mergePushes := by
  -- The marks of labels and branches are the same, and they decide what branches can reach.
  have aimed := mergePushes_iff_of_regroups (fun code => Aimed (Extent.start.pieces code))
    fun regroups aimed => ⟨regroups.labelMarks_eq ▸ aimed.once,
      regroups.labelMarks_eq ▸ regroups.branchMarks_eq ▸ aimed.hits⟩
  have reachable := mergePushes_iff_of_regroups (fun code => Reachable (Extent.start.pieces code))
    fun regroups reachable => ⟨regroups.labelMarks_eq ▸ reachable.once,
      regroups.labelMarks_eq ▸ regroups.branchMarks_eq ▸ reachable.near⟩
  refine tryLevels_mergePushes adjusts_resolveOwnBranches sparesPushes_unaimed resolveOwnBranches_blind
    (fun code fixed => ?_) (fun code => ?_) actions
  · refine resolveOwnBranches_ok_iff.mpr ⟨rfl, (aimed code).mpr ?_⟩
    exact (resolveOwnBranches_ok_iff.mp fixed).2
  · rw [resolveOwnBranches_succeeds_iff, resolveOwnBranches_succeeds_iff, ← reachable_iff,
      ← reachable_iff, reachable]

/-- **The blocks of merged pushes have the sizes and the skip counts that they have in the
sequence**, and they have none if it has none. -/
theorem measureBlocks_mergePushes (actions : List Action) :
    (measureBlocks (mergePushes actions)).toOption =
      (measureBlocks actions).toOption.map mergePushes := by
  have measured := mergePushes_iff_of_regroups Measured fun regroups measured => by
    obtain ⟨sized, closes, keeps⟩ := regroups.closes measured
    rw [keeps (Extent.map_action_pieces _ _).symm, Extent.map_action_pieces] at closes
    exact closes
  have succeeds := mergePushes_iff_of_regroups
    (fun code => ∃ result, measureOwnBlocks code = .ok result) fun regroups ⟨result, success⟩ => by
    obtain ⟨sized, closes, -⟩ := regroups.closes (measureOwnBlocks_ok_iff.mp success)
    exact ⟨sized, measureOwnBlocks_ok_iff.mpr closes⟩
  refine tryLevels_mergePushes adjusts_measureOwnBlocks sparesPushes_unsized
    measureOwnBlocks_succeeds_iff (fun code fixed => ?_) succeeds actions
  refine measureOwnBlocks_ok_iff_measured.mpr ⟨rfl, (measured code).mpr ?_⟩
  exact (measureOwnBlocks_ok_iff_measured.mp fixed).2

end ActionCode
