/-
**Every pass ignores what it works out itself.**

* `Action.transfer`: an action of which one cast has been applied, and another to all code inside.
* **`tryLevels_recastAll`**, **`mapLevels_recastAll`**: a pass that takes one cast to another on a
  sequence does so at every level.
* `SparesPushes.mergeRuns`: joining pushes goes past every change of other instructions.
* `transfers_resolveOwnBranches`: the offsets of labelled branches do not count, neither for what
  becomes of a sequence nor for a fault.
-/

import ActionCode.Proofs.Derived.Trimming

namespace ActionCode

/-! ### One cast becomes another -/

/-- An action after one cast, with another applied to all code inside. -/
def Action.transfer (before after : Instruction → Instruction) : Action → Action
  | .plain instruction => .plain (before instruction)
  | .define signature body => .define signature (recastAll after body)
  | .marker found => .marker found

variable {before after : Instruction → Instruction}

/-- A pass takes one cast to another, on a level whose code has been taken to the other. -/
def Transfers {ε : Type} (pass : List Action → Except ε (List Action))
    (before after : Instruction → Instruction) : Prop :=
  ∀ actions, pass (actions.map (Action.transfer before after)) =
    (pass actions).map (recastAll after)

mutual

theorem Action.tryInside_recast {ε : Type} {pass : List Action → Except ε (List Action)}
    (transfers : Transfers pass before after) :
    ∀ action : Action, (action.recast before).tryInside pass =
      (action.tryInside pass).map (Action.transfer before after)
  | .plain instruction => by
    rw [Action.recast, Action.tryInside, Action.tryInside]
    rfl
  | .define signature body => by
    have inner := tryInsideFrom_recastAll transfers #[] body
    rw [List.map_toArray, List.map_nil] at inner
    rw [Action.recast, Action.tryInside, Action.tryInside, inner]
    cases tryInsideFrom pass #[] body with
    | error fault => rfl
    | ok inner =>
      have own := transfers inner.toList
      dsimp only [Except.map]
      rw [Array.toList_map, own]
      cases pass inner.toList with
      | error fault => rfl
      | ok result => rfl
  | .marker marker => by
    rw [Action.recast, Action.tryInside]
    rfl

theorem tryInsideFrom_recastAll {ε : Type} {pass : List Action → Except ε (List Action)}
    (transfers : Transfers pass before after) :
    ∀ (done : Array Action) (actions : List Action),
      tryInsideFrom pass (done.map (Action.transfer before after)) (recastAll before actions) =
        (tryInsideFrom pass done actions).map fun inner =>
          inner.map (Action.transfer before after)
  | done, [] => by
    rw [recastAll, tryInsideFrom, tryInsideFrom]
    rfl
  | done, action :: rest => by
    rw [recastAll, tryInsideFrom, tryInsideFrom, Action.tryInside_recast transfers action]
    cases action.tryInside pass with
    | error fault => rfl
    | ok first =>
      dsimp only [Except.map]
      rw [← Array.map_push]
      exact tryInsideFrom_recastAll transfers (done.push first) rest

end

/-- **A pass that takes one cast to another does so at every level.** -/
theorem tryLevels_recastAll {ε : Type} {pass : List Action → Except ε (List Action)}
    (transfers : Transfers pass before after) (actions : List Action) :
    tryLevels pass (recastAll before actions) = (tryLevels pass actions).map (recastAll after) := by
  have inner := tryInsideFrom_recastAll transfers #[] actions
  rw [List.map_toArray, List.map_nil] at inner
  unfold tryLevels
  rw [inner]
  cases tryInsideFrom pass #[] actions with
  | error fault => rfl
  | ok inner =>
    dsimp only [Except.map]
    rw [Array.toList_map]
    exact transfers inner.toList

/-! ### Rooms -/

variable (keeps : Keeps before) (keeps' : Keeps after)

include keeps keeps' in
theorem advance_transfer (extent : Extent) (action : Action) :
    extent.advance (action.transfer before after) = extent.advance action := by
  cases action with
  | plain instruction => exact keeps.advance_recastShell extent (.plain instruction)
  | define signature body =>
    have same := keeps'.advance_recast extent (.define signature body)
    rwa [Action.recast] at same
  | marker marker => rfl

include keeps in
theorem isPush_transfer (action : Action) :
    (action.transfer before after).isPush = action.isPush := by
  cases action with
  | plain instruction => exact isPush_recastShell keeps (.plain instruction)
  | define signature body => rfl
  | marker marker => rfl

include keeps keeps' in
theorem placesFrom_transfer (extent : Extent) (runStart : Nat) (actions : List Action) :
    placesFrom extent runStart (actions.map (Action.transfer before after)) =
      placesFrom extent runStart actions := by
  induction actions generalizing extent runStart with
  | nil => rfl
  | cons action rest ih =>
    rw [List.map_cons, placesFrom, placesFrom, isPush_transfer keeps,
      advance_transfer keeps keeps', ih]

/-! ### Merging -/

theorem Spares.isPush {change : Action → Action} (spares : Spares change) (action : Action) :
    (change action).isPush = action.isPush := by
  by_cases none : action.pushed = []
  · rw [Action.isPush_of_unpushed none,
      Action.isPush_of_unpushed ((spares.pushed action).trans none)]
  · rw [spares.same action none]

theorem mergeRunsFrom_other {action : Action} (other : action.isPush = false)
    (run : Array PushValue) (done : Array Action) (rest : List Action) :
    mergeRunsFrom run done (action :: rest) =
      mergeRunsFrom #[] ((flushRun run done).push action) rest := by
  cases action with
  | plain instruction =>
    cases instruction with
    | push value => cases other
    | _ => rfl
  | define signature body => rfl
  | marker marker => rfl

/-- What changes no push goes past merging. -/
theorem Spares.map_mergeRunsFrom {change : Action → Action} (spares : Spares change)
    (run : Array PushValue) (done : Array Action) (actions : List Action) :
    mergeRunsFrom run (done.map change) (actions.map change) =
      (mergeRunsFrom run done actions).map change := by
  have flushed : ∀ (run : Array PushValue) (done : Array Action),
      flushRun run (done.map change) = (flushRun run done).map change := by
    intro run done
    apply Array.toList_inj.mp
    rw [toList_flushRun, Array.toList_map, Array.toList_map, toList_flushRun, List.map_append,
      spares.map_joinRun]
    rfl
  induction actions generalizing run done with
  | nil => exact flushed run done
  | cons action rest ih =>
    rw [List.map_cons]
    rcases action.push_or_other with ⟨value, rfl⟩ | other
    · rw [spares.same (.plain (.push value)) (List.cons_ne_nil value [])]
      exact ih (run.push value) done
    · rw [mergeRunsFrom_other other, mergeRunsFrom_other ((spares.isPush action).trans other),
        flushed, ← Array.map_push, ih]

theorem SparesPushes.mergeRuns {cast : Instruction → Instruction} (spares : SparesPushes cast)
    (actions : List Action) :
    ActionCode.mergeRuns (recastAll cast actions) =
      recastAll cast (ActionCode.mergeRuns actions) := by
  have merged := spares.recast.map_mergeRunsFrom #[] #[] actions
  rw [List.map_toArray, List.map_nil] at merged
  rw [recastAll_eq_map, recastAll_eq_map, ActionCode.mergeRuns, ActionCode.mergeRuns, merged,
    Array.toList_map]

mutual

theorem Action.mapInside_recast {pass : List Action → List Action}
    {cast : Instruction → Instruction}
    (passes : ∀ actions, pass (recastAll cast actions) = recastAll cast (pass actions)) :
    ∀ action : Action, (action.recast cast).mapInside pass = (action.mapInside pass).recast cast
  | .plain instruction => by
    rw [Action.recast, Action.mapInside, Action.mapInside, Action.recast]
  | .define signature body => by
    have inner := map_mapInside_recast passes body
    rw [Action.recast, Action.mapInside_define, Action.mapInside_define, Action.recast,
      mapLevels_eq, mapLevels_eq, ← passes, recastAll_eq_map, recastAll_eq_map, List.map_map,
      List.map_map]
    exact congrArg (fun code => Action.define signature (pass code)) inner
  | .marker marker => by
    rw [Action.recast, Action.mapInside, Action.recast]

theorem map_mapInside_recast {pass : List Action → List Action} {cast : Instruction → Instruction}
    (passes : ∀ actions, pass (recastAll cast actions) = recastAll cast (pass actions)) :
    ∀ actions : List Action,
      actions.map (Action.mapInside pass ∘ Action.recast cast) =
        actions.map (Action.recast cast ∘ Action.mapInside pass)
  | [] => rfl
  | action :: rest => by
    rw [List.map_cons, List.map_cons, map_mapInside_recast passes rest]
    exact congrArg (· :: _) (Action.mapInside_recast passes action)

end

/-- A pass that a cast goes past on every level is one that it goes past at every level. -/
theorem mapLevels_recastAll {pass : List Action → List Action} {cast : Instruction → Instruction}
    (passes : ∀ actions, pass (recastAll cast actions) = recastAll cast (pass actions))
    (actions : List Action) :
    mapLevels pass (recastAll cast actions) = recastAll cast (mapLevels pass actions) := by
  rw [mapLevels_eq, mapLevels_eq, ← passes, recastAll_eq_map, recastAll_eq_map, List.map_map,
    List.map_map, map_mapInside_recast passes]

mutual

theorem Action.nesting_recast (cast : Instruction → Instruction) :
    ∀ action : Action, (action.recast cast).nesting = action.nesting
  | .plain _ => by
    rw [Action.recast, Action.nesting, Action.nesting]
    · exact fun _ _ equal => by cases equal
    · exact fun _ _ equal => by cases equal
  | .define _ body => by
    rw [Action.recast, Action.nesting, Action.nesting, nestingFrom_recastAll cast 0 body]
  | .marker _ => by
    rw [Action.recast]

theorem nestingFrom_recastAll (cast : Instruction → Instruction) :
    ∀ (deepest : Nat) (actions : List Action),
      nestingFrom deepest (recastAll cast actions) = nestingFrom deepest actions
  | deepest, [] => by
    rw [recastAll]
  | deepest, action :: rest => by
    rw [recastAll, nestingFrom, nestingFrom, Action.nesting_recast cast action,
      nestingFrom_recastAll cast _ rest]

end

/-! ### Branches -/

/-- **A labelled branch is resolved whatever its offset.** -/
theorem resolveRow_transfer (placed : Std.TreeMap Nat Nat) (action : Action) (position : Nat) :
    resolveRow placed (action.transfer Instruction.essence Instruction.measurable, position) =
      (resolveRow placed (action, position)).map (Action.recast Instruction.measurable) := by
  cases action with
  | plain instruction =>
    cases instruction with
    | branch jump =>
      obtain ⟨conditional, offset, label⟩ := jump
      cases label with
      | none =>
        show Except.ok _ = Except.ok (Action.recast _ _)
        rw [Action.recast]
        rfl
      | some label =>
        have same : Branch.resolve placed position ⟨conditional, 0, some label⟩ =
          Branch.resolve placed position ⟨conditional, offset, some label⟩ := rfl
        have essence : (Action.plain (.branch ⟨conditional, offset, some label⟩)).transfer
            Instruction.essence Instruction.measurable =
          .plain (.branch ⟨conditional, 0, some label⟩) := rfl
        rw [essence, resolveRow_branch, resolveRow_branch, same]
        cases Branch.resolve placed position ⟨conditional, offset, some label⟩ with
        | error fault => rfl
        | ok resolved =>
          show Except.ok _ = Except.ok (Action.recast _ _)
          rw [Action.recast]
          rfl
    | _ =>
      show Except.ok _ = Except.ok (Action.recast _ _)
      rw [Action.recast]
      rfl
  | define signature body =>
    show Except.ok _ = Except.ok (Action.recast _ _)
    rw [Action.recast]
    rfl
  | marker found =>
    show Except.ok _ = Except.ok (Action.recast _ _)
    rw [Action.recast]
    rfl

/-- A checked step goes past a change of rows. -/
theorem mapM_map_rows {ε α β γ : Type} {step : α → Except ε β} {step' : γ → Except ε β}
    {change : α → γ} {change' : β → β}
    (steps : ∀ value, step' (change value) = (step value).map change') (values : List α) :
    (values.map change).mapM step' = (values.mapM step).map (List.map change') := by
  induction values with
  | nil => rfl
  | cons value rest ih =>
    rw [List.map_cons, List.mapM_cons, List.mapM_cons, steps, ih]
    cases step value with
    | error fault => rfl
    | ok first =>
      cases rest.mapM step with
      | error fault => rfl
      | ok later => rfl

theorem placeLabel_transfer (placed : Std.TreeMap Nat Nat) (action : Action) (position : Nat) :
    placeLabel placed (action.transfer before after, position) =
      placeLabel placed (action, position) := by
  cases action <;> rfl

/-- Resolving takes an essence to what measuring works on. -/
theorem transfers_resolveOwnBranches :
    Transfers resolveOwnBranches Instruction.essence Instruction.measurable := by
  intro actions
  have rows : (actions.map (Action.transfer Instruction.essence Instruction.measurable)).zip
      (positions (actions.map (Action.transfer Instruction.essence Instruction.measurable))) =
      (actions.zip (positions actions)).map
        (Prod.map (Action.transfer Instruction.essence Instruction.measurable) id) := by
    rw [positions_eq, positions_eq, placesFrom_transfer keeps_essence keeps_measurable,
      List.zip_map_left]
  have labels : ∀ rows : List (Action × Nat),
      labelPositions (rows.map
        (Prod.map (Action.transfer Instruction.essence Instruction.measurable) id)) =
        labelPositions rows := by
    intro rows
    unfold labelPositions
    rw [List.foldlM_map]
    refine congrArg (fun step => rows.foldlM step ∅) ?_
    funext placed row
    exact placeLabel_transfer placed row.1 row.2
  unfold resolveOwnBranches
  dsimp only
  rw [rows, labels]
  cases labelPositions (actions.zip (positions actions)) with
  | error fault => rfl
  | ok placed =>
    have step : ((actions.zip (positions actions)).map
        (Prod.map (Action.transfer Instruction.essence Instruction.measurable) id)).mapM
          (resolveRow placed) =
        ((actions.zip (positions actions)).mapM (resolveRow placed)).map
          (List.map (Action.recast Instruction.measurable)) :=
      mapM_map_rows (fun row : Action × Nat => resolveRow_transfer placed row.1 row.2) _
    show List.mapM _ _ = Except.map _ (List.mapM _ _)
    rw [step]
    refine congrArg (fun change => Except.map change _) ?_
    funext results
    exact (recastAll_eq_map _ _).symm

end ActionCode
