/-
**What joining keeps.**

* **`filterMap_fuse`**, `filterMap_splitPushes`: what is seen of actions that push nothing.
* **`LabelsBefore.fuse`**: labels come right before real actions.
* `branchLabels`: the labels of branches.
* **`Orderly.of_lists`**: a sequence is orderly if it has the labels and the branches of one that is.
-/

import ActionCode.Proofs.Labels.Numbering
import ActionCode.Proofs.Levels.Paths
import ActionCode.Proofs.Merging.Levels

namespace ActionCode

/-! ### Views of actions that push nothing -/

theorem filterMap_joinRun {β : Type} {view : Action → Option β}
    (blind : ∀ action, action.pushed ≠ [] → view action = none) {values : List PushValue}
    {later : List Action} (merged : Merged later) :
    (joinRun values later).filterMap view = later.filterMap view := by
  have silent : ∀ {values : List PushValue}, values ≠ [] → view (pushOf values) = none :=
    fun some => blind _ (by rwa [pushed_pushOf])
  by_cases empty : values = []
  · rw [empty, joinRun_nil]
  · rcases later with _ | ⟨next, rest⟩
    · rw [joinRun_end empty, List.filterMap_cons, silent empty]
    · by_cases apart : next.pushed = []
      · rw [joinRun_apart empty apart, List.filterMap_cons, silent empty]
      · have both : values ++ next.pushed ≠ [] := fun equal =>
          empty (List.append_eq_nil_iff.mp equal).1
        rw [joinRun_pushed values apart (merged.head apart), List.filterMap_cons, silent both,
          List.filterMap_cons, blind next apart]

/-- What is seen of actions that push nothing is seen after splitting. -/
theorem filterMap_splitPushes {β : Type} {view : Action → Option β}
    (blind : ∀ action, action.pushed ≠ [] → view action = none) (actions : List Action) :
    (splitPushes actions).filterMap view = actions.filterMap view := by
  induction actions with
  | nil => rfl
  | cons action rest ih =>
    rw [splitPushes_cons, List.filterMap_append, ih]
    by_cases none : action.pushed = []
    · rw [Action.splitPush_of_unpushed none, List.filterMap_cons, List.filterMap_cons]
      cases view action <;> rfl
    · rw [Action.splitPush_of_pushed none, List.filterMap_cons_none (blind action none),
        List.filterMap_eq_nil_iff.mpr, List.nil_append]
      intro part inside
      obtain ⟨value, _, rfl⟩ := List.mem_map.mp inside
      exact blind _ (List.cons_ne_nil _ _)

/-- **What is seen of actions that push nothing is seen after joining.** -/
theorem filterMap_fuse {β : Type} {view : Action → Option β}
    (blind : ∀ action, action.pushed ≠ [] → view action = none) (actions : List Action) :
    (fuse actions).filterMap view = actions.filterMap view := by
  induction actions with
  | nil => rfl
  | cons action rest ih =>
    by_cases empty : action.pushed = []
    · rw [fuse_unpushed empty, List.filterMap_cons, List.filterMap_cons, ih]
    · rw [fuse_pushed empty, filterMap_joinRun blind (merged_fuse rest), ih, List.filterMap_cons,
        blind action empty]

/-- After joining, an action is one that pushes nothing, or a push of some literals. -/
theorem mem_fuse {actions : List Action} {action : Action} (inside : action ∈ fuse actions) :
    action ∈ actions ∨ action = pushOf action.pushed ∧ action.pushed ≠ [] := by
  by_cases empty : action.pushed = []
  · have seen : action ∈ (fuse actions).filterMap fun action =>
        if action.pushed = [] then some action else none :=
      List.mem_filterMap.mpr ⟨action, inside, if_pos empty⟩
    rw [filterMap_fuse fun action some => if_neg some] at seen
    obtain ⟨other, member, same⟩ := List.mem_filterMap.mp seen
    by_cases silent : other.pushed = []
    · rw [if_pos silent] at same
      cases same
      exact .inl member
    · rw [if_neg silent] at same
      cases same
  · exact .inr ⟨(merged_fuse actions).own action inside empty, empty⟩

/-- The labels of branches, in order. -/
def branchLabels (actions : List Action) : List (Option Label) :=
  actions.filterMap fun action => action.branch?.map Branch.label

theorem Action.unseen_of_pushed {action : Action} (some : action.pushed ≠ []) :
    action.label? = none ∧ action.branch? = none ∧ action.body? = none ∧
      action.isMarker = false := by
  obtain ⟨_, rfl⟩ | ⟨_, _, rfl⟩ := action.eq_of_pushed some <;> exact ⟨rfl, rfl, rfl, rfl⟩

theorem labels_fuse (actions : List Action) :
    (fuse actions).filterMap Action.label? = actions.filterMap Action.label? :=
  filterMap_fuse (fun _ some => (Action.unseen_of_pushed some).1) actions

theorem branchLabels_fuse (actions : List Action) :
    branchLabels (fuse actions) = branchLabels actions :=
  filterMap_fuse (fun _ some => by rw [(Action.unseen_of_pushed some).2.1]; rfl) actions

theorem bodiesOf_fuse (actions : List Action) : bodiesOf (fuse actions) = bodiesOf actions :=
  filterMap_fuse (fun _ some => (Action.unseen_of_pushed some).2.2.1) actions

theorem branchIds_eq_labels (actions : List Action) :
    branchIds actions = (branchLabels actions).filterMap fun label => label.map Label.id := by
  rw [branchIds, branchLabels, List.filterMap_filterMap, List.map_filterMap]
  refine List.filterMap_congr fun action _ => ?_
  cases action.branch? with
  | none => rfl
  | some branch => cases branch.label <;> rfl

/-! ### Labels before real actions -/

/-- A sequence begins with a marker. -/
def Marking : List Action → Prop
  | [] => False
  | action :: _ => action.isMarker = true

theorem labelsBefore_cons_iff {action : Action} {rest : List Action} :
    LabelsBefore (action :: rest) ↔
      (action.label? ≠ none → ¬ Marking rest) ∧ LabelsBefore rest := by
  cases rest with
  | nil => exact ⟨fun _ => ⟨fun _ => id, .nil⟩, fun _ => .singleton _⟩
  | cons next rest =>
    unfold LabelsBefore
    rw [List.isChain_cons_cons]
    exact and_congr_left' (imp_congr_right fun _ => Bool.not_eq_true _ ▸ Iff.rfl)

theorem marking_joinRun {values : List PushValue} (some : values ≠ []) {later : List Action}
    (merged : Merged later) : ¬ Marking (joinRun values later) := by
  have silent : ∀ {values : List PushValue}, values ≠ [] →
      (pushOf values).isMarker = false := fun some =>
    (Action.unseen_of_pushed (by rwa [pushed_pushOf])).2.2.2
  intro marking
  rcases later with _ | ⟨next, rest⟩
  · rw [joinRun_end some] at marking
    exact Bool.false_ne_true ((silent some).symm.trans marking)
  · by_cases apart : next.pushed = []
    · rw [joinRun_apart some apart] at marking
      exact Bool.false_ne_true ((silent some).symm.trans marking)
    · have both : values ++ next.pushed ≠ [] := fun equal =>
        some (List.append_eq_nil_iff.mp equal).1
      rw [joinRun_pushed values apart (merged.head apart)] at marking
      exact Bool.false_ne_true ((silent both).symm.trans marking)

theorem marking_fuse {actions : List Action} (marking : Marking (fuse actions)) :
    Marking actions := by
  cases actions with
  | nil => exact marking
  | cons action rest =>
    by_cases empty : action.pushed = []
    · rw [fuse_unpushed empty] at marking
      exact marking
    · rw [fuse_pushed empty] at marking
      exact absurd marking (marking_joinRun empty (merged_fuse rest))

theorem LabelsBefore.joinRun {values : List PushValue} {later : List Action}
    (merged : Merged later) (before : LabelsBefore later) :
    LabelsBefore (ActionCode.joinRun values later) := by
  have unlabelled : ∀ {values : List PushValue}, values ≠ [] →
      (pushOf values).label? = none := fun some =>
    (Action.unseen_of_pushed (by rwa [pushed_pushOf])).1
  by_cases empty : values = []
  · rw [empty, joinRun_nil]
    exact before
  · rcases later with _ | ⟨next, rest⟩
    · rw [joinRun_end empty]
      exact .singleton _
    · by_cases apart : next.pushed = []
      · rw [joinRun_apart empty apart]
        exact labelsBefore_cons_iff.mpr ⟨fun label => absurd (unlabelled empty) label, before⟩
      · have both : values ++ next.pushed ≠ [] := fun equal =>
          empty (List.append_eq_nil_iff.mp equal).1
        rw [joinRun_pushed values apart (merged.head apart)]
        exact labelsBefore_cons_iff.mpr ⟨fun label => absurd (unlabelled both) label,
          (labelsBefore_cons_iff.mp before).2⟩

/-- **Labels come right before real actions after joining**, or last. -/
theorem LabelsBefore.fuse {actions : List Action} (before : LabelsBefore actions) :
    LabelsBefore (ActionCode.fuse actions) := by
  induction actions with
  | nil => exact .nil
  | cons action rest ih =>
    obtain ⟨first, later⟩ := labelsBefore_cons_iff.mp before
    by_cases empty : action.pushed = []
    · rw [fuse_unpushed empty]
      exact labelsBefore_cons_iff.mpr ⟨fun label marking => first label (marking_fuse marking),
        ih later⟩
    · rw [fuse_pushed empty]
      exact (ih later).joinRun (merged_fuse rest)

/-! ### Orderly sequences -/

theorem mem_branchLabels_iff {pieces : List Piece} {label : Option Label} :
    label ∈ branchLabels (pieces.map Piece.action) ↔
      ∃ mark ∈ branchMarks pieces, mark.1.label = label := by
  have marks : branchLabels (pieces.map Piece.action) =
      (branchMarks pieces).map fun mark => mark.1.label := by
    have firsts : ((branchMarks pieces).map Prod.fst).map Branch.label =
        (branchMarks pieces).map fun mark => mark.1.label := List.map_map
    rw [← firsts, branchMarks, map_fst_marksOf, List.map_filterMap, branchLabels,
      List.filterMap_map]
    rfl
  rw [marks, List.mem_map]

theorem map_fst_labelMarks (pieces : List Piece) :
    (labelMarks pieces).map Prod.fst = (pieces.map Piece.action).filterMap Action.label? := by
  rw [labelMarks, map_fst_marksOf, List.filterMap_map]
  rfl

/-- **A sequence is orderly if its branches go to their labels**, and it has the labels and the
branches of an orderly one. -/
theorem Orderly.of_lists {pieces others : List Piece} (orderly : Orderly pieces)
    (solid : AllSolid others) (before : LabelsBefore (others.map Piece.action))
    (aimed : Aimed others)
    (labels : (others.map Piece.action).filterMap Action.label? =
      (pieces.map Piece.action).filterMap Action.label?)
    (branches : branchLabels (others.map Piece.action) =
      branchLabels (pieces.map Piece.action)) : Orderly others where
  solid := solid
  before := before
  aimed := aimed
  labelled := by
    intro mark inside
    have seen := mem_branchLabels_iff.mpr ⟨mark, inside, rfl⟩
    rw [branches] at seen
    obtain ⟨other, inside', same⟩ := mem_branchLabels_iff.mp seen
    rw [← same]
    exact orderly.labelled other inside'
  used := by
    intro mark inside
    have seen := List.mem_map_of_mem (f := Prod.fst) inside
    rw [map_fst_labelMarks, labels, ← map_fst_labelMarks] at seen
    obtain ⟨other, inside', same⟩ := List.mem_map.mp seen
    obtain ⟨branch, isBranch, goes⟩ := orderly.used other inside'
    have labelled := mem_branchLabels_iff.mpr ⟨branch, isBranch, goes⟩
    rw [← branches, same] at labelled
    exact mem_branchLabels_iff.mp labelled

/-- The listing of a sequence is orderly. -/
theorem orderly_listed {pieces : List Piece} (real : AllReal pieces)
    (finishable : Finishable pieces) (nextLabel : Nat) : Orderly (listed nextLabel pieces) where
  solid := (labelled_listed real finishable.fit nextLabel).solid
  before := (labelled_listed real finishable.fit nextLabel).labelsBefore
  aimed := aimed_listed real finishable nextLabel
  labelled _ inside := labelled_of_mem_listed real finishable.fit inside
  used _ inside := used_of_mem_listed real finishable.fit inside

/-! ### Merged sequences -/

/-- What changes no push keeps pushes merged. -/
theorem Spares.merged_iff {change : Action → Action} (spares : Spares change)
    {actions : List Action} : Merged (actions.map change) ↔ Merged actions := by
  constructor
  · intro merged
    refine ⟨?_, fun action inside some => ?_⟩
    · refine ((List.isChain_map _).mp merged.apart).imp fun first second apart => ?_
      rwa [spares.pushed, spares.pushed] at apart
    · have own := merged.own (change action) (List.mem_map_of_mem inside)
        (by rwa [spares.pushed])
      rwa [spares.same action some] at own
  · intro merged
    refine ⟨?_, fun action inside some => ?_⟩
    · refine (List.isChain_map _).mpr (merged.apart.imp fun first second apart => ?_)
      rwa [spares.pushed, spares.pushed]
    · obtain ⟨other, member, rfl⟩ := List.mem_map.mp inside
      rw [spares.pushed] at some
      rw [spares.same other some]
      exact merged.own other member some

end ActionCode
