/-
**Counts do not depend on how pushes are grouped.**

* `passesRuns_simulate`: the stack after one push of some literals is that after a run of their single
  pushes.
* `mapLevels_comm`: two passes that commute on a sequence, and go past each other's changes of the code
  inside, commute at every level.
* **`examine_mergePushes`**: to merge pushes before counts are looked for is to merge them after that.
-/

import ActionCode.Proofs.Counts.Alone
import ActionCode.Proofs.Counts.Examining
import ActionCode.Proofs.Flow.Runs

namespace ActionCode

/-! ### The stack after a run -/

/-- **The stack after one push of some literals is that after a run of their single pushes.** -/
theorem passesRuns_simulate : PassesRuns simulate where
  push _ _ := rfl
  list _ _ := rfl
  run _ _ := rfl
  other slots action other := (view_simulate (fun _ _ => rfl) slots action).trans other

theorem simulate_plain (slots : Slots) (instruction : Instruction) :
    ∃ left, (simulate slots (.plain instruction)).action = .plain left := by
  cases instruction with
  | counted op count =>
    unfold simulate
    dsimp only
    cases popCounted op slots <;> exact ⟨_, rfl⟩
  | _ => exact ⟨_, rfl⟩

/-- Following the stack does not see the code inside. -/
theorem transparent_mapInside (pass : List Action → List Action) :
    Transparent simulate (Action.mapInside pass) where
  examined slots action := by
    cases action with
    | plain instruction =>
      obtain ⟨left, equal⟩ := simulate_plain slots instruction
      rw [Action.mapInside_plain, equal, Action.mapInside_plain, ← equal]
    | define signature body =>
      rw [Action.mapInside_define]
      show _ = Observation.mk _ (Action.mapInside pass (.define signature body)) _
      rw [Action.mapInside_define]
      rfl
    | marker found =>
      rw [Action.mapInside_marker]
      show _ = Observation.mk _ (Action.mapInside pass (.marker found)) _
      rw [Action.mapInside_marker]
      rfl
  flow labels index action := by
    cases action with
    | plain instruction => rw [Action.mapInside_plain]
    | define signature body => rw [Action.mapInside_define]; rfl
    | marker found => rw [Action.mapInside_marker]
  label action := by
    cases action with
    | plain instruction => rw [Action.mapInside_plain]
    | define signature body => rw [Action.mapInside_define]; rfl
    | marker found => rw [Action.mapInside_marker]

/-! ### Two passes over every level -/

/-- **Two passes commute at every level** if they do on a sequence, and each goes past what the other
does to the code inside. -/
theorem mapLevels_comm {first second : List Action → List Action}
    (commute : ∀ actions, first (second actions) = second (first actions))
    (past : ∀ actions, first (actions.map (Action.mapInside second)) =
      (first actions).map (Action.mapInside second))
    (past' : ∀ actions, second (actions.map (Action.mapInside first)) =
      (second actions).map (Action.mapInside first)) (actions : List Action) :
    mapLevels first (mapLevels second actions) = mapLevels second (mapLevels first actions) := by
  induction actions using induction_on_levels with
  | step actions inner =>
    have inside : (actions.map (Action.mapInside second)).map (Action.mapInside first) =
        (actions.map (Action.mapInside first)).map (Action.mapInside second) := by
      rw [List.map_map, List.map_map]
      refine List.map_congr_left fun action member => ?_
      rw [Function.comp_apply, Function.comp_apply]
      cases action with
      | plain instruction =>
        rw [Action.mapInside_plain, Action.mapInside_plain, Action.mapInside_plain]
      | define signature body =>
        have code := inner body (List.mem_filterMap.mpr ⟨_, member, rfl⟩)
        rw [Action.mapInside_define, Action.mapInside_define, Action.mapInside_define,
          Action.mapInside_define, code]
      | marker found =>
        rw [Action.mapInside_marker, Action.mapInside_marker, Action.mapInside_marker]
    rw [mapLevels_eq second actions, mapLevels_eq first, ← past', inside, commute, past,
      ← mapLevels_eq first actions, ← mapLevels_eq second]

theorem Spares.mergeRuns {change : Action → Action} (spares : Spares change)
    (actions : List Action) :
    ActionCode.mergeRuns (actions.map change) = (ActionCode.mergeRuns actions).map change := by
  have merged := spares.map_mergeRunsFrom #[] #[] actions
  rw [List.map_toArray, List.map_nil] at merged
  rw [ActionCode.mergeRuns, ActionCode.mergeRuns, merged, Array.toList_map]

/-! ### Counts -/

/-- One sequence with its counts, whose code has been examined. -/
def examineOwn (seedSlots : Nat) (actions : List Action) : List Action :=
  (traverse simulate (Slots.unknowns seedSlots) actions).actions

/-- **To find counts is a pass over every level.** -/
theorem examine_eq_mapLevels (actions : List Action) (seedSlots : Nat) :
    (examine actions seedSlots).actions = mapLevels (examineOwn seedSlots) actions := by
  induction actions using induction_on_levels with
  | step actions inner =>
    have inside : actions.map (Action.examinedInside seedSlots) =
        actions.map (Action.mapInside (examineOwn seedSlots)) := by
      refine List.map_congr_left fun action member => ?_
      rw [Action.examinedInside]
      cases action with
      | plain instruction => rw [examineCode_plain, Action.mapInside_plain]
      | define signature body =>
        rw [examineCode_define, Action.mapInside_define,
          inner body (List.mem_filterMap.mpr ⟨_, member, rfl⟩)]
      | marker found => rw [examineCode_marker, Action.mapInside_marker]
    rw [actions_examine, inside, mapLevels_eq]
    rfl

/-- **Counts do not depend on how pushes are grouped.** Pushes that are merged before counts are looked
for give the sequence that they give when they are merged afterwards, at every level and wherever control
goes; and looking for counts changes no nesting, so that both are tested alike. -/
theorem examine_mergePushes (actions : List Action) (seedSlots : Nat) :
    nesting (examine actions seedSlots).actions = nesting actions ∧
    (examine (mergePushes actions) seedSlots).actions =
      mergePushes (examine actions seedSlots).actions := by
  constructor
  · calc nesting (examine actions seedSlots).actions
        = nesting (recastAll Instruction.essence (examine actions seedSlots).actions) :=
          (nestingFrom_recastAll Instruction.essence 0 _).symm
      _ = nesting (recastAll Instruction.essence actions) := by
          rw [recastAll_examine dropsCounts_essence]
      _ = nesting actions := nestingFrom_recastAll Instruction.essence 0 actions
  · rw [examine_eq_mapLevels, examine_eq_mapLevels]
    refine mapLevels_comm (traverse_mergeRuns passesRuns_simulate (Slots.unknowns seedSlots))
      (fun code => ?_) (spares_mapInside (examineOwn seedSlots)).mergeRuns actions
    exact congrArg Traversal.actions
      ((transparent_mapInside mergeRuns).traverse (Slots.unknowns seedSlots) code)

end ActionCode
