/-
**Merging pushes leaves no trace in the encoding.**

* **`mergePushes_mergePushes`**, `spaced_mergePushes`: merged pushes stay as they are, and no two
  single pushes among them are neighbours.
* **`writeSequence_mergePushes`**: they are written alike, byte for byte and fault for fault.
* **`merging_invisible`**: the pushes that were merged can be split back; and records, positions,
  offsets, sizes and what is written are those of the sequence that was given.
-/

import ActionCode.Proofs.Merging.Regrouping
import ActionCode.Proofs.RoundTrip.Listings

namespace ActionCode

/-! ### Merged again -/

theorem mergePushes_pushOf {values : List PushValue} (some : values ≠ []) {rest : List Action}
    (stops : Stops rest) :
    mergePushes (pushOf values :: rest) = pushOf values :: mergePushes rest := by
  rcases values with _ | ⟨value, _ | ⟨next, values⟩⟩
  · exact absurd rfl some
  · exact mergePushes_run some stops
  · rw [pushOf, mergePushes_cons rfl, Action.mapInside_plain]
    exact fun _ single => by cases single

/-- **Merged pushes stay as they are.** -/
theorem mergePushes_mergePushes (actions : List Action) :
    mergePushes (mergePushes actions) = mergePushes actions := by
  induction actions using induction_on_code with
  | nil => rfl
  | other action rest other here ih =>
    have first : (action.mapInside mergeRuns).mapInside mergeRuns = action.mapInside mergeRuns := by
      cases action with
      | plain instruction => rw [Action.mapInside_plain, Action.mapInside_plain]
      | define signature body =>
        rw [Action.mapInside_define, Action.mapInside_define]
        exact congrArg (Action.define signature) (here body rfl)
      | marker marker => rw [Action.mapInside_marker, Action.mapInside_marker]
    rw [mergePushes_cons other, mergePushes_cons ((Action.isPush_mapInside _ action).trans other),
      first, ih]
  | run values rest some stops ih =>
    rw [mergePushes_run some stops, mergePushes_pushOf some stops.mergePushes, ih]

/-- No two single pushes are neighbours, at any level. -/
theorem spaced_mergePushes (actions : List Action) : EveryLevel Spaced (mergePushes actions) := by
  refine everyLevel_mergePushes_iff.mpr (everyLevel_iff_codeAt.mpr fun path code _ => ?_)
  rw [mergePushes, mapLevels_eq]
  exact spaced_mergeRuns _

/-! ### Writing -/

theorem Writer.fields_append (front back : List Field) :
    Writer.fields (front ++ back) = (Writer.fields front >>= fun _ => Writer.fields back) := by
  unfold Writer.fields
  rw [List.forM_eq_forM, List.forM_append]

theorem writeFrom_stops {rest : List Action} (stops : Stops rest) :
    writeFrom true rest = writeFrom false rest := by
  rcases rest with _ | ⟨action, rest⟩
  · rw [writeFrom, writeFrom]
  · rw [writeFrom_cons (stops action rfl), writeFrom_cons (stops action rfl)]

/-- Behind its head, a run is written literal by literal. -/
theorem writeFrom_literals (values : List PushValue) {rest : List Action} (stops : Stops rest) :
    writeFrom true (values.map (fun value => .plain (.push value)) ++ rest) =
      (Writer.fields (values.flatMap PushValue.fields) >>= fun _ => writeFrom false rest) := by
  induction values with
  | nil => exact writeFrom_stops stops
  | cons value values ih =>
    rw [List.map_cons, List.cons_append, writeFrom_push, if_pos rfl, ih, List.flatMap_cons,
      Writer.fields_append, bind_assoc]
    rfl

/-- **A run is written as the one push of its literals.** -/
theorem writeFrom_run {values : List PushValue} (some : values ≠ []) {rest : List Action}
    (stops : Stops rest) :
    writeFrom false (values.map (fun value => .plain (.push value)) ++ rest) =
      ((Action.plain (.pushList values)).write >>= fun _ => writeFrom false rest) := by
  obtain ⟨value, values, rfl⟩ := List.exists_cons_of_ne_nil some
  have later := writeFrom_literals values stops
  have wide : ¬ (Instruction.pushList (value :: values)).byte < bodyThreshold :=
    of_decide_eq_false rfl
  have layout : (Instruction.pushList (value :: values)).layout =
      value.fields ++ values.flatMap PushValue.fields := List.flatMap_cons
  have declared : (Instruction.pushList (value :: values)).bodyLength =
      value.width + (values.map PushValue.width).sum := by
    rw [Instruction.bodyLength, totalOf_cons, totalOf_eq_sum]
  rw [List.map_cons, List.cons_append, writeFrom_push, later, pushRun_pushes stops, Action.write,
    Instruction.write, if_neg wide, layout, declared, Writer.fields_append, bind_assoc,
    if_neg Bool.false_ne_true]
  simp only [bind_assoc]
  rfl

theorem writeFrom_pushOf {values : List PushValue} (some : values ≠ []) {rest : List Action}
    (stops : Stops rest) :
    writeFrom false (pushOf values :: rest) =
      ((Action.plain (.pushList values)).write >>= fun _ => writeFrom false rest) := by
  rcases values with _ | ⟨value, _ | ⟨next, values⟩⟩
  · exact absurd rfl some
  · exact writeFrom_run some stops
  · exact writeFrom_cons rfl false rest

/-- **Merged pushes are written alike**, byte for byte and fault for fault. -/
theorem writeSequence_mergePushes (actions : List Action) :
    writeSequence (mergePushes actions) = writeSequence actions := by
  unfold writeSequence
  induction actions using induction_on_code with
  | nil => rfl
  | other action rest other here ih =>
    have first : (action.mapInside mergeRuns).write = action.write := by
      cases action with
      | plain instruction => rw [Action.mapInside_plain]
      | define signature body =>
        have code := here body rfl
        have size := encodedLength_mergePushes body
        unfold mergePushes at code size
        rw [Action.mapInside_define, Action.write, Action.write, code, size]
      | marker marker => rw [Action.mapInside_marker]
    rw [mergePushes_cons other, writeFrom_cons other,
      writeFrom_cons ((Action.isPush_mapInside _ action).trans other), first, ih]
  | run values rest some stops ih =>
    rw [mergePushes_run some stops, writeFrom_pushOf some stops.mergePushes,
      writeFrom_run some stops, ih]

/-! ### All of it -/

/-- Two sequences are in records of the same bytes, of which the same count, and their labels are in
the same positions. -/
structure SameRecords (first second : List Action) : Prop where
  faces : (records first).map Record.face = (records second).map Record.face
  labels : labelPositions (first.zip (positions first)) =
    labelPositions (second.zip (positions second))

theorem sameRecords_mergePushes (actions : List Action) :
    AtEveryLevel SameRecords actions (mergePushes actions) := by
  have here : ∀ first second, second = mergePushes first → SameRecords first second := by
    rintro first _ rfl
    exact ⟨(faces_mergePushes first).symm, (labelPositions_mergePushes first).symm⟩
  refine AtEveryLevel.of_step here ?_ rfl
  rintro first _ rfl
  rw [bodiesOf_mergePushes]
  exact List.forall₂_map_right_iff.mpr (List.forall₂_same.mpr fun _ _ => rfl)

theorem resolve_eq {settings : AssemblySettings} {actions : List Action}
    (shallow : nesting actions ≤ settings.maxDepth) :
    resolve settings actions = (resolveBranches (mergePushes actions) >>= measureBlocks) := by
  rw [resolve, if_neg (Nat.not_lt.mpr shallow)]

/-- **Merging pushes leaves no trace in the encoding.** Definitions that are nested no deeper than is
allowed are assembled from their merged pushes. Splitting the pushes that merging has joined gives back
the sequence, at every level; no two single pushes of the merged sequence are neighbours; and merging it
again changes nothing. At every level the records of both have the same bytes, the same of them count,
and labels are in the same positions; so branches have the same offsets, and blocks the same lengths and
skip counts. And both are written to the same bytes, or to the same bytes before the same fault. -/
theorem merging_invisible (settings : AssemblySettings) (actions : List Action)
    (shallow : nesting actions ≤ settings.maxDepth) :
    resolve settings actions = (resolveBranches (mergePushes actions) >>= measureBlocks) ∧
    nesting (mergePushes actions) = nesting actions ∧
    splitWhere (joinedAt actions) (mergePushes actions) = actions ∧
    EveryLevel Spaced (mergePushes actions) ∧
    mergePushes (mergePushes actions) = mergePushes actions ∧
    AtEveryLevel SameRecords actions (mergePushes actions) ∧
    (resolveBranches (mergePushes actions)).toOption =
      (resolveBranches actions).toOption.map mergePushes ∧
    (measureBlocks (mergePushes actions)).toOption =
      (measureBlocks actions).toOption.map mergePushes ∧
    writeSequence (mergePushes actions) = writeSequence actions := by
  refine ⟨resolve_eq shallow, nesting_mapLevels nesting_mergeRuns actions, ?_,
    spaced_mergePushes actions, mergePushes_mergePushes actions, sameRecords_mergePushes actions,
    resolveBranches_mergePushes actions, measureBlocks_mergePushes actions,
    writeSequence_mergePushes actions⟩
  refine splitWhereFrom_mergePushes actions (joinedAt actions) 0 fun number path => ?_
  rw [Nat.zero_add]

/-- Two pushes in the code of a definition and two behind a label are merged; the push before the label
and the list that was given are not. -/
theorem merging_invisible_code :
    nesting [.define (.simple "f" []) [.plain (.push (.integer 1)), .plain (.push .null)],
      .plain (.push (.boolean true)), .marker (.label ⟨1⟩), .plain (.push .null),
      .plain (.push .undefined), .plain (.pushList [.null])] ≤ 1 ∧
    splitWhere (joinedAt [.define (.simple "f" []) [.plain (.push (.integer 1)),
          .plain (.push .null)],
        .plain (.push (.boolean true)), .marker (.label ⟨1⟩), .plain (.push .null),
        .plain (.push .undefined), .plain (.pushList [.null])])
      [.define (.simple "f" []) [.plain (.pushList [.integer 1, .null])],
        .plain (.push (.boolean true)), .marker (.label ⟨1⟩), .plain (.pushList [.null, .undefined]),
        .plain (.pushList [.null])] =
      [.define (.simple "f" []) [.plain (.push (.integer 1)), .plain (.push .null)],
        .plain (.push (.boolean true)), .marker (.label ⟨1⟩), .plain (.push .null),
        .plain (.push .undefined), .plain (.pushList [.null])] ∧
    writeSequence [.define (.simple "f" []) [.plain (.pushList [.integer 1, .null])],
        .plain (.push (.boolean true)), .marker (.label ⟨1⟩), .plain (.pushList [.null, .undefined]),
        .plain (.pushList [.null])] =
      writeSequence [.define (.simple "f" []) [.plain (.push (.integer 1)), .plain (.push .null)],
        .plain (.push (.boolean true)), .marker (.label ⟨1⟩), .plain (.push .null),
        .plain (.push .undefined), .plain (.pushList [.null])] := by
  obtain ⟨_, _, split, _, _, _, _, _, written⟩ := merging_invisible ⟨1⟩
    [.define (.simple "f" []) [.plain (.push (.integer 1)), .plain (.push .null)],
      .plain (.push (.boolean true)), .marker (.label ⟨1⟩), .plain (.push .null),
      .plain (.push .undefined), .plain (.pushList [.null])] (by decide)
  exact ⟨by decide, split, written⟩

end ActionCode
