/-
**Neighbouring pushes share a record.**

* `Action.pushed`, `pushOf`: the literals of a push, and the push of some literals.
* `joinRun`, `fuse`: literals in front of a sequence, and a sequence whose neighbouring pushes are
  joined.
* **`mergeRuns_splitPushes`**: to merge the single pushes of a sequence is to join its pushes.
* `Merged`: no two pushes are neighbours, and a single literal is pushed as such. **`merged_fuse`**,
  `Merged.fuse_eq`: joining gives such a sequence, and leaves it as it is.
-/

import ActionCode.Assembly.PushRuns
import ActionCode.Disassembly.Spans
import ActionCode.Proofs.Levels.Passes
import ActionCode.Proofs.Bytes.Sequences

namespace ActionCode

/-! ### Pushes -/

/-- The literals that an action pushes. -/
def Action.pushed : Action → List PushValue
  | .plain (.push value) => [value]
  | .plain (.pushList values) => values
  | _ => []

/-- The push of some literals. -/
def pushOf : List PushValue → Action
  | [value] => .plain (.push value)
  | values => .plain (.pushList values)

@[simp] theorem pushed_pushOf (values : List PushValue) : (pushOf values).pushed = values := by
  unfold pushOf
  split <;> rfl

theorem splitPush_pushOf {values : List PushValue} (some : values ≠ []) :
    (pushOf values).splitPush = values.map fun value => .plain (.push value) := by
  rcases values with _ | ⟨value, _ | ⟨next, rest⟩⟩
  · exact absurd rfl some
  · rfl
  · rfl

/-- An action with literals is a push of one literal or of a list. -/
theorem Action.eq_of_pushed {action : Action} (some : action.pushed ≠ []) :
    (∃ value, action = .plain (.push value)) ∨
      ∃ values, values ≠ [] ∧ action = .plain (.pushList values) := by
  cases action with
  | plain instruction =>
    cases instruction with
    | push value => exact .inl ⟨value, rfl⟩
    | pushList values => exact .inr ⟨values, some, rfl⟩
    | _ => exact absurd rfl some
  | _ => exact absurd rfl some

/-- An action with literals is split into their single pushes. -/
theorem Action.splitPush_of_pushed {action : Action} (some : action.pushed ≠ []) :
    action.splitPush = action.pushed.map fun value => .plain (.push value) := by
  obtain ⟨value, rfl⟩ | ⟨values, nonempty, rfl⟩ := action.eq_of_pushed some
  · rfl
  · obtain ⟨value, rest, rfl⟩ := List.exists_cons_of_ne_nil nonempty
    rfl

theorem Action.splitPush_of_unpushed {action : Action} (none : action.pushed = []) :
    action.splitPush = [action] := by
  cases action with
  | plain instruction =>
    cases instruction with
    | pushList values =>
      obtain rfl : values = [] := none
      rfl
    | _ => rfl
  | _ => rfl

/-- An action is split into itself, or into single pushes of its literals. -/
theorem Action.mem_splitPush_iff {part action : Action} :
    part ∈ action.splitPush ↔
      part = action ∧ action.pushed = [] ∨ ∃ value ∈ action.pushed, part = .plain (.push value) := by
  by_cases none : action.pushed = []
  · simp [splitPush_of_unpushed none, none]
  · simp [splitPush_of_pushed none, none, eq_comm]

theorem Action.isMarker_splitPush {action : Action} (real : action.isMarker = false) :
    ∀ part ∈ action.splitPush, part.isMarker = false := by
  intro part inside
  obtain ⟨rfl, _⟩ | ⟨value, _, rfl⟩ := mem_splitPush_iff.mp inside
  · exact real
  · rfl

theorem Action.isPush_of_unpushed {action : Action} (none : action.pushed = []) :
    action.isPush = false := by
  rcases action.push_or_other with ⟨value, rfl⟩ | other
  · cases none
  · exact other

theorem splitPushes_cons (action : Action) (rest : List Action) :
    splitPushes (action :: rest) = action.splitPush ++ splitPushes rest := List.flatMap_cons

theorem splitPushes_singleton (action : Action) : splitPushes [action] = action.splitPush :=
  List.append_nil _

theorem splitPushes_append (front back : List Action) :
    splitPushes (front ++ back) = splitPushes front ++ splitPushes back := List.flatMap_append

/-- **A sequence of single pushes** has the actions that push nothing, and the single literals. -/
theorem mem_splitPushes_iff {part : Action} {actions : List Action} :
    part ∈ splitPushes actions ↔
      part ∈ actions ∧ part.pushed = [] ∨
        ∃ action ∈ actions, ∃ value ∈ action.pushed, part = .plain (.push value) := by
  unfold splitPushes
  simp only [List.mem_flatMap, Action.mem_splitPush_iff, and_or_left, exists_or]
  refine or_congr_left ⟨?_, fun ⟨inside, unpushed⟩ => ⟨part, inside, rfl, unpushed⟩⟩
  rintro ⟨action, inside, rfl, unpushed⟩
  exact ⟨inside, unpushed⟩

theorem mem_splitPushes_of_unpushed {action : Action} {actions : List Action}
    (inside : action ∈ actions) (none : action.pushed = []) : action ∈ splitPushes actions :=
  mem_splitPushes_iff.mpr (.inl ⟨inside, none⟩)

/-! ### Joining -/

/-- Literals in front of a sequence, in one record with those that it begins with. -/
def joinRun (values : List PushValue) (later : List Action) : List Action :=
  if values = [] then later
  else match later with
    | [] => [pushOf values]
    | next :: rest =>
      if next.pushed = [] then pushOf values :: next :: rest
      else pushOf (values ++ next.pushed) :: rest

/-- A sequence whose neighbouring pushes are joined. -/
def fuse : List Action → List Action
  | [] => []
  | action :: rest =>
    if action.pushed = [] then action :: fuse rest else joinRun action.pushed (fuse rest)

theorem joinRun_nil (later : List Action) : joinRun [] later = later := rfl

theorem joinRun_end {values : List PushValue} (some : values ≠ []) :
    joinRun values [] = [pushOf values] := if_neg some

theorem joinRun_apart {values : List PushValue} (some : values ≠ []) {next : Action}
    (none : next.pushed = []) (rest : List Action) :
    joinRun values (next :: rest) = pushOf values :: next :: rest := by
  rw [joinRun, if_neg some]
  exact if_pos none

theorem joinRun_pushed (values : List PushValue) {next : Action} (more : next.pushed ≠ [])
    (own : next = pushOf next.pushed) (rest : List Action) :
    joinRun values (next :: rest) = pushOf (values ++ next.pushed) :: rest := by
  by_cases none : values = []
  · rw [none, joinRun_nil, List.nil_append, ← own]
  · rw [joinRun, if_neg none]
    exact if_neg more

theorem fuse_unpushed {action : Action} (none : action.pushed = []) (rest : List Action) :
    fuse (action :: rest) = action :: fuse rest := if_pos none

theorem fuse_pushed {action : Action} (some : action.pushed ≠ []) (rest : List Action) :
    fuse (action :: rest) = joinRun action.pushed (fuse rest) := if_neg some

/-! ### Merged sequences -/

/-- No two pushes are neighbours, and a single literal is pushed as such. -/
structure Merged (actions : List Action) : Prop where
  apart : actions.IsChain fun first second => first.pushed = [] ∨ second.pushed = []
  own : ∀ action ∈ actions, action.pushed ≠ [] → action = pushOf action.pushed

theorem Merged.nil : Merged [] := ⟨.nil, fun _ inside => by cases inside⟩

theorem Merged.tail {action : Action} {rest : List Action} (merged : Merged (action :: rest)) :
    Merged rest :=
  ⟨merged.apart.tail, fun other inside => merged.own other (List.mem_cons_of_mem _ inside)⟩

theorem Merged.head {action : Action} {rest : List Action} (merged : Merged (action :: rest))
    (some : action.pushed ≠ []) : action = pushOf action.pushed :=
  merged.own action List.mem_cons_self some

/-- An action without literals goes before a merged sequence. -/
theorem Merged.cons {action : Action} (none : action.pushed = []) {rest : List Action}
    (merged : Merged rest) : Merged (action :: rest) where
  apart := merged.apart.cons fun _ _ => .inl none
  own other inside some := by
    rcases List.mem_cons.mp inside with rfl | inside
    · exact absurd none some
    · exact merged.own other inside some

/-- A push goes before a merged sequence that begins with none. -/
theorem Merged.push {values : List PushValue} {rest : List Action} (merged : Merged rest)
    (first : ∀ next ∈ rest.head?, next.pushed = []) : Merged (pushOf values :: rest) where
  apart := merged.apart.cons fun next isNext => .inr (first next isNext)
  own other inside some := by
    rcases List.mem_cons.mp inside with rfl | inside
    · rw [pushed_pushOf]
    · exact merged.own other inside some

/-- After a push of a merged sequence comes none. -/
theorem Merged.first {action : Action} {rest : List Action} (merged : Merged (action :: rest))
    (some : action.pushed ≠ []) : ∀ next ∈ rest.head?, next.pushed = [] := by
  intro next isNext
  rcases rest with _ | ⟨other, rest⟩
  · cases isNext
  · cases isNext
    exact ((List.isChain_cons_cons.mp merged.apart).1).resolve_left some

theorem Merged.joinRun {later : List Action} (merged : Merged later) (values : List PushValue) :
    Merged (ActionCode.joinRun values later) := by
  by_cases none : values = []
  · rw [none, joinRun_nil]
    exact merged
  · rcases later with _ | ⟨next, rest⟩
    · rw [joinRun_end none]
      exact .push .nil fun _ inside => by cases inside
    · by_cases apart : next.pushed = []
      · rw [joinRun_apart none apart]
        refine merged.push fun other isFirst => ?_
        cases isFirst
        exact apart
      · rw [joinRun_pushed values apart (merged.head apart)]
        exact merged.tail.push (merged.first apart)

/-- **A sequence whose neighbouring pushes are joined is merged.** -/
theorem merged_fuse (actions : List Action) : Merged (fuse actions) := by
  induction actions with
  | nil => exact .nil
  | cons action rest ih =>
    by_cases none : action.pushed = []
    · rw [fuse_unpushed none]
      exact ih.cons none
    · rw [fuse_pushed none]
      exact ih.joinRun _

/-- **A merged sequence is left as it is.** -/
theorem Merged.fuse_eq {actions : List Action} (merged : Merged actions) : fuse actions = actions := by
  induction actions with
  | nil => rfl
  | cons action rest ih =>
    by_cases none : action.pushed = []
    · rw [fuse_unpushed none, ih merged.tail]
    · rw [fuse_pushed none, ih merged.tail]
      rcases rest with _ | ⟨next, rest⟩
      · rw [joinRun_end none, ← merged.head none]
      · rw [joinRun_apart none (merged.first none next rfl), ← merged.head none]

/-- In a merged sequence no single push follows another. -/
theorem Merged.spaced {actions : List Action} (merged : Merged actions) : Spaced actions := by
  refine merged.apart.imp fun first second apart both => ?_
  rcases apart with none | none
  · rw [Action.isPush_of_unpushed none] at both
    cases both.1
  · rw [Action.isPush_of_unpushed none] at both
    cases both.2

/-! ### Merging and splitting -/

theorem joinRun_append (front back : List PushValue) {later : List Action} (merged : Merged later) :
    joinRun (front ++ back) later = joinRun front (joinRun back later) := by
  by_cases none : back = []
  · rw [none, List.append_nil, joinRun_nil]
  · have some : front ++ back ≠ [] := fun equal => none (List.append_eq_nil_iff.mp equal).2
    have more : (pushOf back).pushed ≠ [] := by
      rw [pushed_pushOf]
      exact none
    rcases later with _ | ⟨next, rest⟩
    · rw [joinRun_end some, joinRun_end none, joinRun_pushed front more (by rw [pushed_pushOf]),
        pushed_pushOf]
    · by_cases apart : next.pushed = []
      · rw [joinRun_apart some apart, joinRun_apart none apart,
          joinRun_pushed front more (by rw [pushed_pushOf]), pushed_pushOf]
      · have own := merged.head apart
        have both : (pushOf (back ++ next.pushed)).pushed ≠ [] := by
          rw [pushed_pushOf]
          exact fun equal => none (List.append_eq_nil_iff.mp equal).1
        rw [joinRun_pushed _ apart own, joinRun_pushed _ apart own,
          joinRun_pushed front both (by rw [pushed_pushOf]), pushed_pushOf, List.append_assoc]

theorem toList_flushRun (run : Array PushValue) (done : Array Action) :
    (flushRun run done).toList = done.toList ++ joinRun run.toList [] := by
  unfold flushRun
  cases isRun : run.toList with
  | nil =>
    rw [joinRun_nil, List.append_nil]
  | cons value rest =>
    rw [joinRun_end (List.cons_ne_nil value rest)]
    cases rest <;> exact Array.toList_push

/-- A flushed run goes before an action without literals. -/
theorem joinRun_before {action : Action} (none : action.pushed = []) (values : List PushValue)
    (rest : List Action) :
    joinRun values (action :: rest) = joinRun values [] ++ action :: rest := by
  by_cases empty : values = []
  · rw [empty, joinRun_nil, joinRun_nil, List.nil_append]
  · rw [joinRun_apart empty none, joinRun_end empty, List.singleton_append]

theorem mergeRunsFrom_unpushed {action : Action} (none : action.pushed = [])
    (run : Array PushValue) (done : Array Action) (rest : List Action) :
    mergeRunsFrom run done (action :: rest) =
      mergeRunsFrom #[] ((flushRun run done).push action) rest := by
  cases action with
  | plain instruction =>
    cases instruction with
    | push value => cases none
    | _ => rfl
  | _ => rfl

theorem mergeRunsFrom_pushes (run : Array PushValue) (done : Array Action)
    (values : List PushValue) (rest : List Action) :
    mergeRunsFrom run done (values.map (fun value => .plain (.push value)) ++ rest) =
      mergeRunsFrom (run ++ values) done rest := by
  induction values generalizing run with
  | nil =>
    rw [Array.appendList_nil]
    rfl
  | cons value values ih =>
    show mergeRunsFrom (run.push value) done
      (values.map (fun value => .plain (.push value)) ++ rest) = _
    rw [ih, Array.appendList_cons]

/-- Merging the single pushes of a sequence after a run. -/
theorem toList_mergeRunsFrom (run : Array PushValue) (done : Array Action) (actions : List Action) :
    (mergeRunsFrom run done (splitPushes actions)).toList =
      done.toList ++ joinRun run.toList (fuse actions) := by
  induction actions generalizing run done with
  | nil => exact toList_flushRun run done
  | cons action rest ih =>
    rw [splitPushes_cons]
    by_cases none : action.pushed = []
    · rw [Action.splitPush_of_unpushed none, List.singleton_append, mergeRunsFrom_unpushed none, ih,
        fuse_unpushed none, joinRun_before none, Array.toList_push, toList_flushRun, joinRun_nil,
        List.append_assoc, List.append_assoc, List.singleton_append]
    · rw [Action.splitPush_of_pushed none, mergeRunsFrom_pushes, ih, fuse_pushed none,
        Array.toList_appendList, joinRun_append _ _ (merged_fuse rest)]

/-- **To merge the single pushes of a sequence is to join its pushes.** -/
theorem mergeRuns_splitPushes (actions : List Action) :
    mergeRuns (splitPushes actions) = fuse actions := by
  rw [mergeRuns, toList_mergeRunsFrom]
  rfl

theorem splitPushes_joinRun {values : List PushValue} {later : List Action} (merged : Merged later) :
    splitPushes (joinRun values later) =
      values.map (fun value => .plain (.push value)) ++ splitPushes later := by
  by_cases none : values = []
  · rw [none, joinRun_nil]
    rfl
  · rcases later with _ | ⟨next, rest⟩
    · rw [joinRun_end none, splitPushes_cons, splitPush_pushOf none]
    · by_cases apart : next.pushed = []
      · rw [joinRun_apart none apart, splitPushes_cons, splitPush_pushOf none]
      · have both : values ++ next.pushed ≠ [] := fun equal =>
          none (List.append_eq_nil_iff.mp equal).1
        rw [joinRun_pushed values apart (merged.head apart), splitPushes_cons,
          splitPush_pushOf both, splitPushes_cons, Action.splitPush_of_pushed apart, List.map_append,
          List.append_assoc]

/-- Joined pushes are split as they were. -/
theorem splitPushes_fuse (actions : List Action) :
    splitPushes (fuse actions) = splitPushes actions := by
  induction actions with
  | nil => rfl
  | cons action rest ih =>
    rw [splitPushes_cons]
    by_cases none : action.pushed = []
    · rw [fuse_unpushed none, splitPushes_cons, ih]
    · rw [fuse_pushed none, splitPushes_joinRun (merged_fuse rest), ih,
        Action.splitPush_of_pushed none]

end ActionCode
