/-
**Merging on either side of a place.**

* **`mergeRuns_append`**, **`mergePushes_append`**: two sequences are merged one after the other, if no
  single push ends the first and begins the second.
* `filterMap_mergeRuns`: what is seen of actions that push nothing.
* **`bodiesOf_mergePushes`**: the code of definitions is merged.
-/

import ActionCode.Proofs.Derived.Passes
import ActionCode.Proofs.Merging.Keeping

namespace ActionCode

/-! ### One level -/

/-- No single push ends a sequence and begins another. -/
def Parted (front back : List Action) : Prop :=
  ∀ last ∈ front.getLast?, ∀ first ∈ back.head?, ¬ (last.isPush = true ∧ first.isPush = true)

theorem parted_cons {action : Action} (other : action.isPush = false) (front rest : List Action) :
    Parted front (action :: rest) := by
  intro last _ first isFirst
  obtain rfl := Option.some.inj isFirst
  exact fun both => Bool.false_ne_true (other.symm.trans both.2)

theorem parted_single {action : Action} (other : action.isPush = false) (back : List Action) :
    Parted [action] back := by
  intro last isLast first _
  obtain rfl := Option.some.inj isLast
  exact fun both => Bool.false_ne_true (other.symm.trans both.1)

theorem Parted.tail {action : Action} {front back : List Action}
    (parted : Parted (action :: front) back) : Parted front back := by
  intro last isLast first isFirst
  refine parted last ?_ first isFirst
  cases front with
  | nil => cases isLast
  | cons next rest => rwa [List.getLast?_cons_cons]

/-- What was done before stays in front. -/
theorem mergeRunsFrom_done (run : Array PushValue) (done : Array Action) (actions : List Action) :
    (mergeRunsFrom run done actions).toList =
      done.toList ++ (mergeRunsFrom run #[] actions).toList := by
  induction actions generalizing run done with
  | nil => rw [mergeRunsFrom, mergeRunsFrom, toList_flushRun, toList_flushRun]; rfl
  | cons action rest ih =>
    obtain ⟨value, rfl⟩ | other := action.push_or_other
    · rw [mergeRunsFrom, mergeRunsFrom, ih]
    · rw [mergeRunsFrom_other other, mergeRunsFrom_other other, ih, ih _ (Array.push _ _),
        Array.toList_push, Array.toList_push, toList_flushRun, toList_flushRun]
      simp only [List.nil_append, List.append_assoc]

/-- A run ends where no single push follows. -/
theorem mergeRunsFrom_flush (run : Array PushValue) {actions : List Action}
    (ended : run = #[] ∨ ∀ first ∈ actions.head?, first.isPush = false) :
    (mergeRunsFrom run #[] actions).toList = (flushRun run #[]).toList ++ mergeRuns actions := by
  obtain rfl | ended := ended
  · rfl
  · cases actions with
    | nil => exact (List.append_nil _).symm
    | cons action rest =>
      have other := ended action rfl
      rw [mergeRuns, mergeRunsFrom_other other, mergeRunsFrom_other other, mergeRunsFrom_done,
        mergeRunsFrom_done _ (Array.push (flushRun #[] #[]) action), Array.toList_push,
        Array.toList_push]
      simp only [toList_flushRun, List.append_assoc]
      rfl

theorem mergeRunsFrom_append {front back : List Action} (parted : Parted front back)
    (run : Array PushValue)
    (ended : front = [] → run = #[] ∨ ∀ first ∈ back.head?, first.isPush = false) :
    (mergeRunsFrom run #[] (front ++ back)).toList =
      (mergeRunsFrom run #[] front).toList ++ mergeRuns back := by
  induction front generalizing run with
  | nil => exact mergeRunsFrom_flush run (ended rfl)
  | cons action front ih =>
    obtain ⟨value, rfl⟩ | other := action.push_or_other
    · refine ih parted.tail (run.push value) fun empty => .inr fun first isFirst => ?_
      subst empty
      exact Bool.eq_false_iff.mpr fun isPush => parted _ rfl first isFirst ⟨rfl, isPush⟩
    · rw [List.cons_append, mergeRunsFrom_other other, mergeRunsFrom_other other,
        mergeRunsFrom_done, ih parted.tail #[] fun _ => .inl rfl, ← List.append_assoc,
        ← mergeRunsFrom_done]

/-- **Sequences are merged one after the other** if no single push ends the first and begins the
second. -/
theorem mergeRuns_append {front back : List Action} (parted : Parted front back) :
    mergeRuns (front ++ back) = mergeRuns front ++ mergeRuns back :=
  mergeRunsFrom_append parted #[] fun _ => .inl rfl

/-- An action that is no single push stays where it is. -/
theorem mergeRuns_cons {action : Action} (other : action.isPush = false) (rest : List Action) :
    mergeRuns (action :: rest) = action :: mergeRuns rest := by
  have alone : mergeRuns [action] = [action] := by
    rw [mergeRuns, mergeRunsFrom_other other]
    rfl
  rw [← List.singleton_append, mergeRuns_append (parted_single other rest), alone,
    List.singleton_append]

theorem splitPushes_mergeRunsFrom (run : Array PushValue) (done : Array Action)
    (actions : List Action) :
    splitPushes (mergeRunsFrom run done actions).toList =
      splitPushes done.toList ++
        (run.toList.map (fun value => .plain (.push value)) ++ splitPushes actions) := by
  have flushed : ∀ (run : Array PushValue) (done : Array Action),
      splitPushes (flushRun run done).toList =
        splitPushes done.toList ++ run.toList.map fun value => .plain (.push value) := by
    intro run done
    rw [toList_flushRun, splitPushes_append, splitPushes_joinRun .nil]
    exact congrArg _ (List.append_nil _)
  induction actions generalizing run done with
  | nil => exact (flushed run done).trans (congrArg _ (List.append_nil _).symm)
  | cons action rest ih =>
    obtain ⟨value, rfl⟩ | other := action.push_or_other
    · rw [mergeRunsFrom, ih, Array.toList_push, List.map_append, List.append_assoc]
      rfl
    · rw [mergeRunsFrom_other other, ih, Array.toList_push, splitPushes_append, flushed,
        splitPushes_cons, splitPushes_cons]
      simp only [List.append_assoc]
      rfl

/-- **Merged pushes are split as they were.** -/
theorem splitPushes_mergeRuns (actions : List Action) :
    splitPushes (mergeRuns actions) = splitPushes actions :=
  splitPushes_mergeRunsFrom #[] #[] actions

/-- What is seen of actions that push nothing is seen after merging. -/
theorem filterMap_mergeRuns {β : Type} {view : Action → Option β}
    (blind : ∀ action, action.pushed ≠ [] → view action = none) (actions : List Action) :
    (mergeRuns actions).filterMap view = actions.filterMap view := by
  rw [← filterMap_splitPushes blind, splitPushes_mergeRuns, filterMap_splitPushes blind]

/-! ### Every level -/

theorem Action.isPush_mapInside (pass : List Action → List Action) (action : Action) :
    (action.mapInside pass).isPush = action.isPush := by
  cases action with
  | plain instruction => rw [mapInside]
  | define signature body => rw [mapInside]; rfl
  | marker found => rw [mapInside]

/-- **Sequences are merged one after the other** at every level. -/
theorem mergePushes_append {front back : List Action} (parted : Parted front back) :
    mergePushes (front ++ back) = mergePushes front ++ mergePushes back := by
  unfold mergePushes
  rw [mapLevels_eq, mapLevels_eq, mapLevels_eq, List.map_append, mergeRuns_append]
  intro last isLast first isFirst
  rw [List.getLast?_map] at isLast
  rw [List.head?_map] at isFirst
  obtain ⟨before, isBefore, rfl⟩ := Option.map_eq_some_iff.mp isLast
  obtain ⟨after, isAfter, rfl⟩ := Option.map_eq_some_iff.mp isFirst
  rw [Action.isPush_mapInside, Action.isPush_mapInside]
  exact parted before isBefore after isAfter

/-- An action that is no single push stays where it is, and its code is merged. -/
theorem mergePushes_cons {action : Action} (other : action.isPush = false) (rest : List Action) :
    mergePushes (action :: rest) = action.mapInside mergeRuns :: mergePushes rest := by
  unfold mergePushes
  rw [mapLevels_eq, mapLevels_eq, List.map_cons,
    mergeRuns_cons ((Action.isPush_mapInside _ action).trans other)]

theorem mergePushes_split {action : Action} (other : action.isPush = false)
    (front back : List Action) :
    mergePushes (front ++ action :: back) =
      mergePushes front ++ action.mapInside mergeRuns :: mergePushes back := by
  rw [mergePushes_append (parted_cons other front back), mergePushes_cons other]

theorem Action.body?_mapInside (pass : List Action → List Action) (action : Action) :
    (action.mapInside pass).body? = action.body?.map (mapLevels pass) := by
  cases action with
  | plain instruction => rw [mapInside]; rfl
  | define signature body => rw [mapInside_define]; rfl
  | marker found => rw [mapInside]; rfl

/-- **The code of definitions is merged.** -/
theorem bodiesOf_mergePushes (actions : List Action) :
    bodiesOf (mergePushes actions) = (bodiesOf actions).map mergePushes := by
  rw [mergePushes, mapLevels_eq, bodiesOf,
    filterMap_mergeRuns (fun _ some => (Action.unseen_of_pushed some).2.2.1), List.filterMap_map,
    bodiesOf, List.map_filterMap]
  exact List.filterMap_congr fun action _ => Action.body?_mapInside mergeRuns action

/-- Labels stay when pushes are merged. -/
theorem labels_mergePushes (actions : List Action) :
    (mergePushes actions).filterMap Action.label? = actions.filterMap Action.label? := by
  rw [mergePushes, mapLevels_eq,
    filterMap_mergeRuns (fun _ some => (Action.unseen_of_pushed some).1), List.filterMap_map]
  refine List.filterMap_congr fun action _ => ?_
  cases action with
  | plain instruction => rw [Function.comp_apply, Action.mapInside]
  | define signature body => rw [Function.comp_apply, Action.mapInside]; rfl
  | marker found => rw [Function.comp_apply, Action.mapInside]

end ActionCode
