/-
**A sequence falls into records.**

* **`induction_on_runs`**: what goes past every action that is no single push, and past every whole run
  of single pushes, holds of every sequence. **`induction_on_code`**: so at every level.
* `groups`: the actions of a sequence, record by record.
* `splitWhere`, `joinedAt`: a sequence whose pushes are split at the places that paths lead to, and the
  places where merging has joined some. **`splitWhere_mergePushes`**: splitting there gives back the
  sequence that was merged.
* **`faces_mergePushes`**: merged pushes are in records of the same bytes, and the same of them count.
-/

import ActionCode.Record
import ActionCode.Proofs.Merging.Sides
import ActionCode.Proofs.Sizes.Accounting

namespace ActionCode

/-! ### Runs -/

/-- No single push begins a sequence, so that a run before it is whole. -/
def Stops (rest : List Action) : Prop := ∀ action ∈ rest.head?, action.isPush = false

theorem Stops.nil : Stops [] := fun _ first => by cases first

theorem Stops.cons {action : Action} (other : action.isPush = false) (rest : List Action) :
    Stops (action :: rest) := by
  intro first isFirst
  cases isFirst
  exact other

/-- What no single push begins is parted from anything before it. -/
theorem Stops.parted {rest : List Action} (stops : Stops rest) (front : List Action) :
    Parted front rest := fun _ _ first isFirst both =>
  Bool.false_ne_true ((stops first isFirst).symm.trans both.2)

/-- **What goes past every action that is no single push, and past every whole run, holds of every
sequence.** -/
@[elab_as_elim]
theorem induction_on_runs {motive : List Action → Prop} (actions : List Action) (nil : motive [])
    (other : ∀ action rest, action.isPush = false → motive rest → motive (action :: rest))
    (run : ∀ (values : List PushValue) (rest : List Action), values ≠ [] → Stops rest → motive rest →
      motive (values.map (fun value => .plain (.push value)) ++ rest)) : motive actions := by
  -- The literals that have been passed wait for the end of their run.
  suffices general : ∀ values : List PushValue,
      motive (values.map (fun value => .plain (.push value)) ++ actions) from general []
  have ended : ∀ rest, Stops rest → motive rest → ∀ values : List PushValue,
      motive (values.map (fun value => .plain (.push value)) ++ rest) := by
    intro rest stops holds values
    by_cases empty : values = []
    · rw [empty]
      exact holds
    · exact run values rest empty stops holds
  induction actions with
  | nil => exact ended [] .nil nil
  | cons action rest ih =>
    obtain ⟨value, rfl⟩ | single := action.push_or_other
    · intro values
      have longer := ih (values ++ [value])
      rwa [List.map_append, List.append_assoc] at longer
    · exact ended _ (.cons single rest) (other action rest single (ih []))

theorem fuse_pushOf {values : List PushValue} (some : values ≠ []) :
    fuse [pushOf values] = [pushOf values] := by
  have more : (pushOf values).pushed ≠ [] := by rwa [pushed_pushOf]
  rw [fuse_pushed more, pushed_pushOf, fuse, joinRun_end some]

/-- A whole run becomes one push. -/
theorem mergeRuns_run {values : List PushValue} (some : values ≠ []) {rest : List Action}
    (stops : Stops rest) :
    mergeRuns (values.map (fun value => .plain (.push value)) ++ rest) =
      pushOf values :: mergeRuns rest := by
  have alone : splitPushes [pushOf values] = values.map fun value => .plain (.push value) := by
    rw [splitPushes_cons, splitPush_pushOf some]
    exact List.append_nil _
  rw [mergeRuns_append (stops.parted _), ← alone, mergeRuns_splitPushes, fuse_pushOf some,
    List.singleton_append]

/-! ### Records -/

/-- A record so many actions later. -/
def Record.shifted (distance : Nat) (record : Record) : Record :=
  { record with first := distance + record.first, stop := distance + record.stop }

/-- The record of an action that is no single push. -/
def Action.ownRecord (action : Action) : Record :=
  ⟨0, 1, action.width, if action.isMarker then .marker else .action⟩

/-- The record of some literals that are pushed one by one. -/
def runRecord (values : List PushValue) : Record :=
  ⟨0, values.length, headWidth + (values.map PushValue.width).sum, .pushRun⟩

theorem firstRecord?_other {action : Action} (other : action.isPush = false) (index : Nat)
    (rest : List Action) :
    firstRecord? index (action :: rest) = some (action.ownRecord.shifted index) := by
  cases action with
  | plain instruction =>
    cases instruction with
    | push value => cases other
    | _ => rfl
  | define signature body => rfl
  | marker marker =>
    rw [Action.ownRecord, Action.width]
    rfl

theorem firstRecord?_run {values : List PushValue} (some : values ≠ []) (index : Nat)
    {rest : List Action} (stops : Stops rest) :
    firstRecord? index (values.map (fun value => .plain (.push value)) ++ rest) =
      .some ((runRecord values).shifted index) := by
  obtain ⟨value, values, rfl⟩ := List.exists_cons_of_ne_nil some
  rw [List.map_cons, List.cons_append]
  show Option.some (Record.mk index (index + (pushRun 1 value.width (values.map _ ++ rest)).1)
    (headWidth + (pushRun 1 value.width (values.map _ ++ rest)).2) .pushRun) = _
  rw [pushRun_pushes stops, runRecord, Record.shifted, List.map_cons, List.sum_cons,
    List.length_cons, Nat.add_comm 1]
  rfl

theorem recordsFrom_step {index : Nat} {actions : List Action} {record : Record}
    (found : firstRecord? index actions = some record) (done : Array Record) :
    recordsFrom done index actions =
      recordsFrom (done.push record) record.stop (actions.drop (record.stop - index)) := by
  rw [recordsFrom]
  split
  · rename_i none
    rw [found] at none
    cases none
  · rename_i other isOther
    rw [found] at isOther
    cases isOther
    rfl

theorem recordsFrom_nil (done : Array Record) (index : Nat) : recordsFrom done index [] = done := by
  rw [recordsFrom]
  rfl

theorem recordsFrom_other {action : Action} (other : action.isPush = false) (done : Array Record)
    (index : Nat) (rest : List Action) :
    recordsFrom done index (action :: rest) =
      recordsFrom (done.push (action.ownRecord.shifted index)) (index + 1) rest := by
  rw [recordsFrom_step (firstRecord?_other other index rest)]
  show recordsFrom _ (index + 1) ((action :: rest).drop (index + 1 - index)) = _
  rw [Nat.add_sub_cancel_left]
  rfl

theorem recordsFrom_run {values : List PushValue} (some : values ≠ []) (done : Array Record)
    (index : Nat) {rest : List Action} (stops : Stops rest) :
    recordsFrom done index (values.map (fun value => .plain (.push value)) ++ rest) =
      recordsFrom (done.push ((runRecord values).shifted index)) (index + values.length) rest := by
  rw [recordsFrom_step (firstRecord?_run some index stops)]
  show recordsFrom _ (index + values.length)
    (List.drop (index + values.length - index) (values.map _ ++ rest)) = _
  rw [Nat.add_sub_cancel_left, List.drop_left' (List.length_map _)]

theorem Record.shifted_zero (record : Record) : record.shifted 0 = record := by
  rw [shifted, Nat.zero_add, Nat.zero_add]

theorem map_shifted_shifted (outer inner : Nat) (records : List Record) :
    (records.map (Record.shifted inner)).map (Record.shifted outer) =
      records.map (Record.shifted (outer + inner)) := by
  rw [List.map_map]
  refine List.map_congr_left fun record _ => ?_
  rw [Function.comp_apply, Record.shifted, Record.shifted, Record.shifted, Nat.add_assoc,
    Nat.add_assoc]

/-- The records of a sequence do not depend on what has been before, but for their indices. -/
theorem toList_recordsFrom (actions : List Action) (done : Array Record) (index : Nat) :
    (recordsFrom done index actions).toList =
      done.toList ++ (records actions).map (Record.shifted index) := by
  unfold records
  induction actions using induction_on_runs generalizing done index with
  | nil =>
    rw [recordsFrom_nil, recordsFrom_nil]
    exact (List.append_nil _).symm
  | other action rest other ih =>
    rw [recordsFrom_other other, recordsFrom_other other, ih, ih (Array.push _ _), Nat.zero_add,
      Array.toList_push, Array.toList_push, List.append_assoc, List.map_append, map_shifted_shifted]
    rfl
  | run values rest some stops ih =>
    rw [recordsFrom_run some _ _ stops, recordsFrom_run some _ _ stops, ih, ih (Array.push _ _),
      Nat.zero_add, Record.shifted_zero, Array.toList_push, Array.toList_push, List.append_assoc,
      List.map_append, map_shifted_shifted]
    rfl

theorem records_nil : records [] = [] := by
  rw [records, recordsFrom_nil]

theorem records_other {action : Action} (other : action.isPush = false) (rest : List Action) :
    records (action :: rest) = action.ownRecord :: (records rest).map (Record.shifted 1) := by
  rw [records, recordsFrom_other other, toList_recordsFrom]
  rfl

theorem records_run {values : List PushValue} (some : values ≠ []) {rest : List Action}
    (stops : Stops rest) :
    records (values.map (fun value => .plain (.push value)) ++ rest) =
      runRecord values :: (records rest).map (Record.shifted values.length) := by
  rw [records, recordsFrom_run some _ _ stops, toList_recordsFrom, Nat.zero_add, Array.toList_push,
    Record.shifted_zero]
  rfl

/-! ### Groups -/

/-- The actions that a record covers. -/
def Record.covered (actions : List Action) (record : Record) : List Action :=
  (actions.take record.stop).drop record.first

/-- The actions of a sequence, record by record. -/
def groups (actions : List Action) : List (List Action) :=
  (records actions).map (Record.covered actions)

theorem Record.covered_shifted (front rest : List Action) (record : Record) :
    (record.shifted front.length).covered (front ++ rest) = record.covered rest := by
  rw [covered, shifted, List.take_length_add_append, List.drop_length_add_append]
  rfl

/-- The groups behind the actions of the first record. -/
theorem groups_append (front : List Action) {rest : List Action} {first : Record}
    (whole : first.covered (front ++ rest) = front)
    (isRecords : records (front ++ rest) =
      first :: (records rest).map (Record.shifted front.length)) :
    groups (front ++ rest) = front :: groups rest := by
  rw [groups, isRecords, List.map_cons, whole, List.map_map, groups]
  exact congrArg (front :: ·) (List.map_congr_left fun record _ =>
    Record.covered_shifted front rest record)

theorem groups_nil : groups [] = [] := by
  rw [groups, records_nil]
  rfl

theorem groups_other {action : Action} (other : action.isPush = false) (rest : List Action) :
    groups (action :: rest) = [action] :: groups rest :=
  groups_append [action] rfl (records_other other rest)

theorem groups_run {values : List PushValue} (some : values ≠ []) {rest : List Action}
    (stops : Stops rest) :
    groups (values.map (fun value => .plain (.push value)) ++ rest) =
      (values.map fun value => .plain (.push value)) :: groups rest := by
  have isRecords := records_run some stops
  rw [← List.length_map (fun value => Action.plain (.push value))] at isRecords
  refine groups_append _ ?_ isRecords
  show List.drop 0 (List.take values.length _) = _
  rw [List.take_left' (List.length_map _)]
  rfl

/-! ### Bytes -/

/-- The bytes of a record, and whether it counts where records are counted. -/
def Record.face (record : Record) : Nat × Bool := (record.bytes, record.counted)

theorem map_face_shifted (distance : Nat) (records : List Record) :
    (records.map (Record.shifted distance)).map Record.face = records.map Record.face := by
  rw [List.map_map]
  rfl

theorem Action.face_ownRecord (action : Action) :
    action.ownRecord.face = (action.width, !action.isMarker) := by
  rw [ownRecord, Record.face, Record.counted]
  cases action.isMarker <;> rfl

theorem map_face_other {action : Action} (other : action.isPush = false) (rest : List Action) :
    (records (action :: rest)).map Record.face =
      (action.width, !action.isMarker) :: (records rest).map Record.face := by
  rw [records_other other, List.map_cons, map_face_shifted, Action.face_ownRecord]

theorem map_face_run {values : List PushValue} (some : values ≠ []) {rest : List Action}
    (stops : Stops rest) :
    (records (values.map (fun value => .plain (.push value)) ++ rest)).map Record.face =
      ((pushOf values).width, true) :: (records rest).map Record.face := by
  rw [records_run some stops, List.map_cons, map_face_shifted, width_pushOf some]
  rfl

/-- One push of some literals has the record of their run. -/
theorem map_face_pushOf {values : List PushValue} (some : values ≠ []) {rest : List Action}
    (stops : Stops rest) :
    (records (pushOf values :: rest)).map Record.face =
      ((pushOf values).width, true) :: (records rest).map Record.face := by
  rcases values with _ | ⟨value, _ | ⟨next, values⟩⟩
  · exact absurd rfl some
  · exact map_face_run (List.cons_ne_nil value []) stops
  · exact map_face_other rfl rest

/-! ### Every level -/

/-- A whole run becomes one push. -/
theorem mergePushes_run {values : List PushValue} (some : values ≠ []) {rest : List Action}
    (stops : Stops rest) :
    mergePushes (values.map (fun value => .plain (.push value)) ++ rest) =
      pushOf values :: mergePushes rest := by
  have single : (values.map fun value => Action.plain (.push value)).map
      (Action.mapInside mergeRuns) = values.map fun value => .plain (.push value) := by
    rw [List.map_map]
    exact List.map_congr_left fun value _ => Action.mapInside_plain mergeRuns (.push value)
  have stops' : Stops (rest.map (Action.mapInside mergeRuns)) := by
    intro first isFirst
    rw [List.head?_map] at isFirst
    obtain ⟨action, isAction, rfl⟩ := Option.map_eq_some_iff.mp isFirst
    rw [Action.isPush_mapInside]
    exact stops action isAction
  rw [mergePushes, mapLevels_eq, List.map_append, single, mergeRuns_run some stops', mergePushes,
    mapLevels_eq]

theorem Stops.mergePushes {rest : List Action} (stops : Stops rest) :
    Stops (ActionCode.mergePushes rest) := by
  rcases rest with _ | ⟨action, rest⟩
  · exact .nil
  · have other := stops action rfl
    rw [mergePushes_cons other]
    exact .cons ((Action.isPush_mapInside _ action).trans other) _

/-- What holds of a sequence if it holds of the code of its definitions, holds of every sequence. -/
theorem induction_on_levels {motive : List Action → Prop}
    (step : ∀ actions, (∀ body ∈ bodiesOf actions, motive body) → motive actions)
    (actions : List Action) : motive actions := by
  refine step actions fun body inside => ?_
  obtain ⟨action, member, isBody⟩ := List.mem_filterMap.mp inside
  have smaller : sizeOf body < sizeOf actions := by
    refine Nat.lt_trans ?_ (List.sizeOf_lt_of_mem member)
    cases action with
    | define signature code =>
      cases isBody
      rw [Action.define.sizeOf_spec]
      omega
    | _ => cases isBody
  exact induction_on_levels step body
termination_by sizeOf actions

theorem mem_bodiesOf_cons {action : Action} {rest : List Action} {holds : List Action → Prop} :
    (∀ body ∈ bodiesOf (action :: rest), holds body) ↔
      (∀ body, action.body? = some body → holds body) ∧ ∀ body ∈ bodiesOf rest, holds body := by
  rw [bodiesOf, bodiesOf, List.filterMap_cons]
  cases action.body? with
  | none => exact (and_iff_right fun _ isBody => by cases isBody).symm
  | some body =>
    rw [List.forall_mem_cons]
    exact and_congr_left' ⟨fun here _ isBody => Option.some.inj isBody ▸ here,
      fun here => here body rfl⟩

theorem bodiesOf_run (values : List PushValue) (rest : List Action) :
    bodiesOf (values.map (fun value => .plain (.push value)) ++ rest) = bodiesOf rest := by
  have none : (values.map fun value => Action.plain (.push value)).filterMap Action.body? = [] := by
    rw [List.filterMap_map]
    exact List.filterMap_eq_nil_iff.mpr fun value _ => rfl
  rw [bodiesOf, List.filterMap_append, none, List.nil_append, bodiesOf]

/-- **What goes past every action if it holds of the code there, and past every whole run, holds of
every sequence.** -/
@[elab_as_elim]
theorem induction_on_code {motive : List Action → Prop} (actions : List Action) (nil : motive [])
    (other : ∀ action rest, action.isPush = false →
      (∀ body, action.body? = some body → motive body) → motive rest → motive (action :: rest))
    (run : ∀ (values : List PushValue) (rest : List Action), values ≠ [] → Stops rest → motive rest →
      motive (values.map (fun value => .plain (.push value)) ++ rest)) : motive actions := by
  induction actions using induction_on_levels with
  | step actions inner =>
    induction actions using induction_on_runs with
    | nil => exact nil
    | other action rest single ih =>
      obtain ⟨here, later⟩ := mem_bodiesOf_cons.mp inner
      exact other action rest single here (ih later)
    | run values rest some stops ih =>
      rw [bodiesOf_run] at inner
      exact run values rest some stops (ih inner)

theorem Action.width_mapInside (action : Action) :
    (action.mapInside mergeRuns).width = action.width := by
  cases action with
  | plain instruction => rw [mapInside_plain]
  | define signature body =>
    rw [mapInside_define, width, width]
    exact congrArg (headWidth + signature.bodyLength + ·) (encodedLength_mergePushes body)
  | marker marker => rw [mapInside_marker]

theorem Action.isMarker_mapInside (pass : List Action → List Action) (action : Action) :
    (action.mapInside pass).isMarker = action.isMarker := by
  cases action with
  | plain instruction => rw [mapInside_plain]
  | define signature body => rw [mapInside_define]; rfl
  | marker marker => rw [mapInside_marker]

/-- **Merged pushes are in records of the same bytes, and the same of them count.** -/
theorem faces_mergePushes (actions : List Action) :
    (records (mergePushes actions)).map Record.face = (records actions).map Record.face := by
  induction actions using induction_on_runs with
  | nil => rfl
  | other action rest other ih =>
    rw [mergePushes_cons other, map_face_other other,
      map_face_other ((Action.isPush_mapInside _ action).trans other), ih, Action.width_mapInside,
      Action.isMarker_mapInside]
  | run values rest some stops ih =>
    rw [mergePushes_run some stops, map_face_pushOf some stops.mergePushes, map_face_run some stops,
      ih]

/-! ### Splitting back -/

mutual

/-- An action, or its single pushes if it is one of those places. Paths go on in its code. -/
def Action.splitWhere (places : List Nat → Bool) : Action → List Action
  | .plain instruction =>
    if places [] then (Action.plain instruction).splitPush else [.plain instruction]
  | .define signature body => [.define signature (splitWhereFrom places 0 body)]
  | .marker marker => [.marker marker]

/-- Actions with the given number first, of which those at some places are split into their single
pushes. -/
def splitWhereFrom (places : List Nat → Bool) (number : Nat) : List Action → List Action
  | [] => []
  | action :: rest =>
    action.splitWhere (fun path => places (number :: path)) ++
      splitWhereFrom places (number + 1) rest

end

/-- A sequence of which the actions at some places are split into their single pushes. A path leads to
an action by its number, or by that of a definition and a path in its code. -/
def splitWhere (places : List Nat → Bool) (actions : List Action) : List Action :=
  splitWhereFrom places 0 actions

/-- Whether merging the pushes of a sequence joins two or more into the action that a path leads
to. -/
def joinedAt (actions : List Action) : List Nat → Bool
  | [] => false
  | number :: path =>
    match (groups actions)[number]? with
    | some [.define _ body] => joinedAt body path
    | some group => path.isEmpty && decide (1 < group.length)
    | none => false

theorem joinedAt_later {actions front rest : List Action}
    (isGroups : groups actions = front :: groups rest) (number : Nat) (path : List Nat) :
    joinedAt actions ((number + 1) :: path) = joinedAt rest (number :: path) := by
  rw [joinedAt, joinedAt, isGroups, List.getElem?_cons_succ]

theorem joinedAt_run {actions rest : List Action} {values : List PushValue}
    (isGroups : groups actions = (values.map fun value => .plain (.push value)) :: groups rest) :
    joinedAt actions [0] = decide (1 < values.length) := by
  rw [joinedAt, isGroups]
  rcases values with _ | ⟨value, _ | ⟨next, values⟩⟩
  · rfl
  · rfl
  · rw [← List.length_map (fun value => Action.plain (.push value))]
    rfl

/-- **Splitting what merging has joined gives back the sequence that was merged**, at every level. -/
theorem splitWhereFrom_mergePushes (actions : List Action) (places : List Nat → Bool) (start : Nat)
    (joined : ∀ number path, places ((start + number) :: path) = joinedAt actions (number :: path)) :
    splitWhereFrom places start (mergePushes actions) = actions := by
  induction actions using induction_on_code generalizing places start with
  | nil => rfl
  | other action rest other here ih =>
    have isGroups := groups_other other rest
    have restSplit := ih places (start + 1) fun number path => by
      rw [← joinedAt_later isGroups, ← joined, Nat.add_assoc, Nat.add_comm 1]
    have first : (action.mapInside mergeRuns).splitWhere (fun path => places (start :: path)) =
        [action] := by
      cases action with
      | plain instruction =>
        have single : places [start] = false := by
          rw [← Nat.add_zero start, joined, joinedAt, isGroups]
          rfl
        rw [Action.mapInside_plain, Action.splitWhere, if_neg (Bool.eq_false_iff.mp single)]
      | define signature body =>
        have code := here body rfl (fun path => places (start :: path)) 0 fun number path => by
          rw [← Nat.add_zero start, joined, joinedAt, isGroups, Nat.zero_add]
          rfl
        rw [Action.mapInside_define, Action.splitWhere]
        exact congrArg (fun code => [Action.define signature code]) code
      | marker marker => rw [Action.mapInside_marker, Action.splitWhere]
    rw [mergePushes_cons other, splitWhereFrom, first, restSplit, List.singleton_append]
  | run values rest some stops ih =>
    have isGroups := groups_run some stops
    have restSplit := ih places (start + 1) fun number path => by
      rw [← joinedAt_later isGroups, ← joined, Nat.add_assoc, Nat.add_comm 1]
    have here := joined 0 []
    rw [Nat.add_zero, joinedAt_run isGroups] at here
    have first : (pushOf values).splitWhere (fun path => places (start :: path)) =
        values.map fun value => .plain (.push value) := by
      rcases values with _ | ⟨value, _ | ⟨next, values⟩⟩
      · exact absurd rfl some
      · rw [pushOf, Action.splitWhere, here]
        rfl
      · rw [pushOf, Action.splitWhere, here]
        · exact splitPush_pushOf some
        · exact fun _ single => by cases single
    rw [mergePushes_run some stops, splitWhereFrom, first, restSplit]

end ActionCode
