/-
**Neighbouring pushes share a record, at every level.**

* `mapLevels_eq`: a pass over every level is the pass after itself over all code inside.
* `nesting_mapLevels`: a pass that keeps the nesting of sequences keeps it at every level.
* `Spares`: what changes no push goes past joining and splitting.
* **`mergePushes_splitPushes`**: a sequence that is merged at every level comes back from its single
  pushes.
-/

import ActionCode.Proofs.Merging.Runs
import ActionCode.Proofs.Levels.Settling

namespace ActionCode

/-! ### Passes without faults -/

theorem toList_mapInsideFrom (pass : List Action → List Action) (done : Array Action)
    (actions : List Action) :
    (mapInsideFrom pass done actions).toList = done.toList ++ actions.map (Action.mapInside pass) := by
  induction actions generalizing done with
  | nil =>
    rw [mapInsideFrom, List.map_nil, List.append_nil]
  | cons action rest ih =>
    rw [mapInsideFrom, ih, Array.toList_push, List.append_assoc]
    rfl

/-- **A pass over every level is the pass, after itself over all code inside.** -/
theorem mapLevels_eq (pass : List Action → List Action) (actions : List Action) :
    mapLevels pass actions = pass (actions.map (Action.mapInside pass)) := by
  rw [mapLevels, toList_mapInsideFrom]
  rfl

theorem Action.mapInside_define (pass : List Action → List Action) (signature : Signature)
    (body : List Action) :
    (Action.define signature body).mapInside pass = .define signature (mapLevels pass body) := by
  rw [Action.mapInside, mapLevels]

theorem Action.mapInside_plain (pass : List Action → List Action) (instruction : Instruction) :
    (Action.plain instruction).mapInside pass = .plain instruction := by
  rw [mapInside]

theorem Action.mapInside_marker (pass : List Action → List Action) (found : Marker) :
    (Action.marker found).mapInside pass = .marker found := by
  rw [mapInside]

mutual

theorem Action.nesting_mapInside {pass : List Action → List Action}
    (keeps : ∀ actions, nesting (pass actions) = nesting actions) :
    ∀ action : Action, (action.mapInside pass).nesting = action.nesting
  | .plain instruction => by rw [Action.mapInside_plain]
  | .define signature body => by
    rw [Action.mapInside_define, Action.nesting, Action.nesting]
    exact congrArg (· + 1) (nesting_mapLevels keeps body)
  | .marker found => by rw [Action.mapInside_marker]

theorem nestingFrom_mapInside {pass : List Action → List Action}
    (keeps : ∀ actions, nesting (pass actions) = nesting actions) :
    ∀ (deepest : Nat) (actions : List Action),
      nestingFrom deepest (actions.map (Action.mapInside pass)) = nestingFrom deepest actions
  | deepest, [] => rfl
  | deepest, action :: rest => by
    rw [List.map_cons, nestingFrom, nestingFrom, Action.nesting_mapInside keeps,
      nestingFrom_mapInside keeps]

/-- A pass that keeps the nesting of a sequence keeps it at every level. -/
theorem nesting_mapLevels {pass : List Action → List Action}
    (keeps : ∀ actions, nesting (pass actions) = nesting actions) :
    ∀ actions : List Action, nesting (mapLevels pass actions) = nesting actions
  | actions => by
    rw [mapLevels_eq, keeps]
    exact nestingFrom_mapInside keeps 0 actions

end

/-! ### Changes that spare pushes -/

/-- A change of actions does not change what is pushed. -/
structure Spares (change : Action → Action) : Prop where
  pushed : ∀ action, (change action).pushed = action.pushed
  same : ∀ action, action.pushed ≠ [] → change action = action

variable {change : Action → Action}

theorem Spares.pushOf (spares : Spares change) {values : List PushValue} (some : values ≠ []) :
    change (pushOf values) = ActionCode.pushOf values :=
  spares.same _ (by rwa [pushed_pushOf])

theorem Spares.map_joinRun (spares : Spares change) (values : List PushValue)
    (later : List Action) :
    (joinRun values later).map change = joinRun values (later.map change) := by
  by_cases none : values = []
  · rw [none, joinRun_nil, joinRun_nil]
  · rcases later with _ | ⟨next, rest⟩
    · rw [List.map_nil, joinRun_end none, List.map_singleton, spares.pushOf none]
    · have kept := spares.pushed next
      unfold joinRun
      rw [if_neg none, if_neg none, List.map_cons]
      dsimp only
      by_cases apart : next.pushed = []
      · rw [if_pos apart, if_pos (kept.trans apart), List.map_cons, List.map_cons,
          spares.pushOf none]
      · have both : values ++ next.pushed ≠ [] := fun equal =>
          none (List.append_eq_nil_iff.mp equal).1
        rw [if_neg apart, if_neg (fun equal => apart (kept.symm.trans equal)), List.map_cons,
          spares.pushOf both, kept]

/-- What changes no push goes past joining. -/
theorem Spares.map_fuse (spares : Spares change) (actions : List Action) :
    (fuse actions).map change = fuse (actions.map change) := by
  induction actions with
  | nil => rfl
  | cons action rest ih =>
    have kept := spares.pushed action
    rw [List.map_cons]
    by_cases none : action.pushed = []
    · rw [fuse_unpushed none, fuse_unpushed (kept.trans none), List.map_cons, ih]
    · rw [fuse_pushed none, fuse_pushed fun equal => none (kept.symm.trans equal),
        spares.map_joinRun, ih, kept]

/-- What changes no push goes past splitting. -/
theorem Spares.map_splitPushes (spares : Spares change) (actions : List Action) :
    (splitPushes actions).map change = splitPushes (actions.map change) := by
  induction actions with
  | nil => rfl
  | cons action rest ih =>
    have kept := spares.pushed action
    rw [List.map_cons, splitPushes_cons, splitPushes_cons, List.map_append, ih]
    refine congrArg (· ++ _) ?_
    by_cases none : action.pushed = []
    · rw [Action.splitPush_of_unpushed none, Action.splitPush_of_unpushed (kept.trans none)]
      rfl
    · rw [Action.splitPush_of_pushed none,
        Action.splitPush_of_pushed fun equal => none (kept.symm.trans equal), kept, List.map_map]
      refine List.map_congr_left fun value _ => ?_
      exact spares.same _ (List.cons_ne_nil value [])

/-- A pass over all code inside changes no push. -/
theorem spares_mapInside (pass : List Action → List Action) : Spares (Action.mapInside pass) where
  pushed action := by
    cases action with
    | plain instruction =>
      rw [Action.mapInside]
    | define signature body =>
      rw [Action.mapInside]
      rfl
    | marker marker =>
      rw [Action.mapInside]
  same action some := by
    cases action with
    | plain instruction =>
      rw [Action.mapInside]
    | define signature body => exact absurd rfl some
    | marker marker => exact absurd rfl some

/-- A cast that leaves pushes as they are, and makes none. -/
structure SparesPushes (cast : Instruction → Instruction) : Prop where
  push : ∀ value, cast (.push value) = .push value
  list : ∀ values, cast (.pushList values) = .pushList values
  other : ∀ instruction, (Action.plain instruction).pushed = [] →
    (Action.plain (cast instruction)).pushed = []

theorem SparesPushes.recast {cast : Instruction → Instruction} (spares : SparesPushes cast) :
    Spares (Action.recast cast) where
  pushed action := by
    cases action with
    | plain instruction =>
      rw [Action.recast]
      cases instruction with
      | push value => rw [spares.push]
      | pushList values => rw [spares.list]
      | _ => exact spares.other _ rfl
    | define signature body =>
      rw [Action.recast]
      rfl
    | marker marker =>
      rw [Action.recast]
  same action some := by
    cases action with
    | plain instruction =>
      rw [Action.recast]
      cases instruction with
      | push value => rw [spares.push]
      | pushList values => rw [spares.list]
      | _ => exact absurd rfl some
    | define signature body => exact absurd rfl some
    | marker marker => exact absurd rfl some

theorem recastAll_eq_map (cast : Instruction → Instruction) (actions : List Action) :
    recastAll cast actions = actions.map (Action.recast cast) := by
  induction actions with
  | nil => rw [recastAll, List.map_nil]
  | cons action rest ih => rw [recastAll, List.map_cons, ih]

theorem SparesPushes.recastAll_fuse {cast : Instruction → Instruction} (spares : SparesPushes cast)
    (actions : List Action) : recastAll cast (fuse actions) = fuse (recastAll cast actions) := by
  rw [recastAll_eq_map, recastAll_eq_map, spares.recast.map_fuse]

theorem sparesPushes_of_pushed {cast : Instruction → Instruction}
    (push : ∀ value, cast (.push value) = .push value)
    (list : ∀ values, cast (.pushList values) = .pushList values)
    (pushed : ∀ instruction, (Action.plain (cast instruction)).pushed =
      (Action.plain instruction).pushed) : SparesPushes cast :=
  ⟨push, list, fun instruction none => (pushed instruction).trans none⟩

theorem sparesPushes_blank : SparesPushes Instruction.blank :=
  sparesPushes_of_pushed (fun _ => rfl) (fun _ => rfl) fun instruction => by
    cases instruction <;> rfl

/-! ### Every level -/

mutual

theorem Action.mapInside_mergeRuns_split : ∀ action : Action,
    (action.mapInside splitPushes).mapInside mergeRuns = action.mapInside fuse
  | .plain instruction => by rw [Action.mapInside, Action.mapInside, Action.mapInside]
  | .define signature body => by
    rw [Action.mapInside_define, Action.mapInside_define, Action.mapInside_define,
      mapLevels_eq splitPushes, mapLevels_eq mergeRuns, mapLevels_eq fuse,
      (spares_mapInside mergeRuns).map_splitPushes, mergeRuns_splitPushes, List.map_map,
      map_mapInside_mergeRuns_split body]
  | .marker marker => by rw [Action.mapInside, Action.mapInside, Action.mapInside]

theorem map_mapInside_mergeRuns_split : ∀ actions : List Action,
    actions.map (Action.mapInside mergeRuns ∘ Action.mapInside splitPushes) =
      actions.map (Action.mapInside fuse)
  | [] => rfl
  | action :: rest => by
    rw [List.map_cons, List.map_cons, Function.comp, Action.mapInside_mergeRuns_split action,
      ← map_mapInside_mergeRuns_split rest]

end

mutual

theorem Action.mapInside_fuse : ∀ {action : Action}, action.CodeHolds Merged →
    action.mapInside fuse = action
  | .plain instruction, _ => by rw [Action.mapInside]
  | .define signature body, merged => by
    rw [Action.CodeHolds] at merged
    rw [Action.mapInside_define, mapLevels_eq, map_mapInside_fuse merged.2, merged.1.fuse_eq]
  | .marker marker, _ => by rw [Action.mapInside]

theorem map_mapInside_fuse : ∀ {actions : List Action}, AllCodeHolds Merged actions →
    actions.map (Action.mapInside fuse) = actions
  | [], _ => rfl
  | action :: rest, merged => by
    rw [AllCodeHolds] at merged
    rw [List.map_cons, Action.mapInside_fuse merged.1, map_mapInside_fuse merged.2]

end

/-- **A sequence that is merged at every level comes back from its single pushes.** -/
theorem mergePushes_splitPushes {actions : List Action} (merged : EveryLevel Merged actions) :
    mergePushes (mapLevels splitPushes actions) = actions := by
  rw [mergePushes, mapLevels_eq mergeRuns, mapLevels_eq splitPushes,
    (spares_mapInside mergeRuns).map_splitPushes, mergeRuns_splitPushes, List.map_map,
    map_mapInside_mergeRuns_split, map_mapInside_fuse merged.2, merged.1.fuse_eq]

/-- The pushes of a listing are joined after those of all code inside. -/
theorem mergePushes_of_splitPushes (actions : List Action) :
    mergePushes (splitPushes actions) = fuse (actions.map (Action.mapInside mergeRuns)) := by
  rw [mergePushes, mapLevels_eq, (spares_mapInside mergeRuns).map_splitPushes,
    mergeRuns_splitPushes]

end ActionCode
