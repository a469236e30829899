/-
**The records of a sequence part it into whole runs and single actions.**

* `Consecutive`: records that follow one another over the indices of a sequence.
  **`consecutive_records`**: so do the records of every sequence.
* `Record.Covers`: the actions that a record is over, and what follows them; **`exists_covers`**.
* `Record.Describes`: what a record says of a sequence. **`isChain_records`**: no run follows a run.
* **`records_partition`**: all of it, and how the measures of a sequence follow from those of its
  parts.
-/

import ActionCode.Proofs.Labels.Resolving
import ActionCode.Proofs.Records.Measures

namespace ActionCode

/-! ### Indices -/

/-- Records that follow one another from an index to another, each over some actions. -/
def Consecutive (first stop : Nat) : List Record → Prop
  | [] => first = stop
  | record :: rest => record.first = first ∧ first < record.stop ∧ Consecutive record.stop stop rest

theorem Consecutive.shifted {first stop : Nat} {rows : List Record} (distance : Nat)
    (consecutive : Consecutive first stop rows) :
    Consecutive (distance + first) (distance + stop) (rows.map (Record.shifted distance)) := by
  induction rows generalizing first with
  | nil => exact congrArg (distance + ·) consecutive
  | cons record rest ih =>
    obtain ⟨rfl, filled, later⟩ := consecutive
    exact ⟨rfl, Nat.add_lt_add_left filled distance, ih later⟩

/-- **The records of a sequence are over all its indices, one after another.** -/
theorem consecutive_records (actions : List Action) :
    Consecutive 0 actions.length (records actions) := by
  induction actions using induction_on_runs with
  | nil =>
    rw [records_nil]
    rfl
  | other action rest other ih =>
    rw [records_other other, List.length_cons, Nat.add_comm]
    exact ⟨rfl, Nat.one_pos, ih.shifted 1⟩
  | run values rest some stops ih =>
    rw [records_run some stops, List.length_append, List.length_map]
    exact ⟨rfl, List.length_pos_iff.mpr some, ih.shifted values.length⟩

/-- **No run follows a run.** -/
theorem isChain_records (actions : List Action) :
    (records actions).IsChain fun one next => one.kind = .pushRun → next.kind ≠ .pushRun := by
  have shifted : ∀ {distance : Nat} {rows : List Record},
      (rows.IsChain fun one next => one.kind = .pushRun → next.kind ≠ .pushRun) →
        (rows.map (Record.shifted distance)).IsChain fun one next =>
          one.kind = .pushRun → next.kind ≠ .pushRun := fun chain => (List.isChain_map _).mpr chain
  have single : ∀ {action : Action}, action.ownRecord.kind ≠ .pushRun := by
    intro action
    show (if action.isMarker then RecordKind.marker else .action) ≠ .pushRun
    split <;> decide
  induction actions using induction_on_runs with
  | nil =>
    rw [records_nil]
    exact .nil
  | other action rest other ih =>
    rw [records_other other]
    exact List.isChain_cons.mpr ⟨fun _ _ isRun => absurd isRun single, shifted ih⟩
  | run values rest some stops ih =>
    rw [records_run some stops]
    refine List.isChain_cons.mpr ⟨fun next isNext _ => ?_, shifted ih⟩
    -- What stops a run is a record of its own.
    rcases rest with _ | ⟨action, rest⟩
    · rw [records_nil] at isNext
      cases isNext
    · rw [records_other (stops action rfl)] at isNext
      cases isNext
      exact single

/-! ### Actions of a record -/

/-- A record begins at an index and covers some actions before others: one that is no single push,
or a run that ends where the others begin. -/
inductive Record.Covers (start : Nat) (back : List Action) : List Action → Record → Prop
  | action {action : Action} (other : action.isPush = false) :
      Covers start back [action] (action.ownRecord.shifted start)
  | run {values : List PushValue} (some : values ≠ []) (stops : Stops back) :
      Covers start back (values.map fun value => .plain (.push value))
        ((runRecord values).shifted start)

theorem Record.Covers.shifted {start : Nat} {back own : List Action} {record : Record}
    (covers : record.Covers start back own) (distance : Nat) :
    (record.shifted distance).Covers (distance + start) back own := by
  have twice : ∀ record : Record,
      (record.shifted start).shifted distance = record.shifted (distance + start) := by
    intro record
    simp only [Record.shifted, Nat.add_assoc]
  cases covers with
  | action other =>
    rw [twice]
    exact .action other
  | run some stops =>
    rw [twice]
    exact .run some stops

theorem Parted.append {front middle back : List Action} (parted : Parted middle back)
    (empty : middle = [] → Parted front back) : Parted (front ++ middle) back := by
  rcases middle with _ | ⟨action, middle⟩
  · rw [List.append_nil]
    exact empty rfl
  · rw [Parted, List.getLast?_append_cons]
    exact parted

/-- **A record covers an action or a run in the middle of its sequence**, and what is before it is
parted from what it covers. -/
theorem exists_covers {actions : List Action} {record : Record}
    (inside : record ∈ records actions) :
    ∃ front own back, actions = front ++ (own ++ back) ∧ Parted front (own ++ back) ∧
      record.Covers front.length back own := by
  -- A record behind the first is one of the rest, moved by the actions of the first.
  have later : ∀ {first rest : List Action}, Parted first rest →
      (∀ record ∈ records rest, ∃ front own back, rest = front ++ (own ++ back) ∧
        Parted front (own ++ back) ∧ record.Covers front.length back own) →
      ∀ record ∈ (records rest).map (Record.shifted first.length),
        ∃ front own back, first ++ rest = front ++ (own ++ back) ∧ Parted front (own ++ back) ∧
          record.Covers front.length back own := by
    intro first rest parted ih _ inside
    obtain ⟨record, member, rfl⟩ := List.mem_map.mp inside
    obtain ⟨front, own, back, rfl, parted', covers⟩ := ih record member
    refine ⟨first ++ front, own, back, (List.append_assoc ..).symm, parted'.append ?_, ?_⟩
    · rintro rfl
      exact parted
    · rw [List.length_append]
      exact covers.shifted first.length
  have nothing : ∀ rest, Parted [] rest := fun _ _ none => by cases none
  induction actions using induction_on_runs generalizing record with
  | nil =>
    rw [records_nil] at inside
    cases inside
  | other action rest other ih =>
    rw [records_other other] at inside
    rcases List.mem_cons.mp inside with rfl | inside
    · refine ⟨[], [action], rest, rfl, nothing _, ?_⟩
      rw [← Record.shifted_zero action.ownRecord]
      exact .action other
    · exact later (parted_single other rest) (fun _ => ih) record inside
  | run values rest some stops ih =>
    rw [records_run some stops] at inside
    rcases List.mem_cons.mp inside with rfl | inside
    · refine ⟨[], _, rest, rfl, nothing _, ?_⟩
      rw [← Record.shifted_zero (runRecord values)]
      exact .run some stops
    · rw [← List.length_map (fun value => Action.plain (.push value))] at inside
      exact later (stops.parted _) (fun _ => ih) record inside

theorem Record.Covers.range {start : Nat} {back own : List Action} {record : Record}
    (covers : record.Covers start back own) :
    record.first = start ∧ record.stop = start + own.length := by
  cases covers with
  | action other => exact ⟨rfl, rfl⟩
  | @run values some stops =>
    rw [List.length_map]
    exact ⟨rfl, rfl⟩

theorem Record.Covers.bytes {start : Nat} {back own : List Action} {record : Record}
    (covers : record.Covers start back own) : record.bytes = encodedLength own := by
  cases covers with
  | action other =>
    rw [(measures_single other).1]
    rfl
  | run some stops =>
    rw [(measures_run some).1]
    rfl

/-- The kind of a record is that of the first action that it covers. -/
theorem Record.Covers.kind {start : Nat} {back own : List Action} {record : Record}
    (covers : record.Covers start back own) :
    ∃ action, own.head? = some action ∧
      (record.kind = .pushRun ↔ action.isPush = true) ∧
      (record.kind = .marker ↔ action.isMarker = true) := by
  cases covers with
  | @action action other =>
    refine ⟨action, rfl, ?_⟩
    show ((if action.isMarker = true then RecordKind.marker else .action) = _ ↔ _) ∧
      ((if action.isMarker = true then RecordKind.marker else .action) = _ ↔ _)
    rw [other]
    cases action.isMarker <;> decide
  | run some stops =>
    obtain ⟨value, values, rfl⟩ := List.exists_cons_of_ne_nil some
    refine ⟨.plain (.push value), rfl, ?_⟩
    show (RecordKind.pushRun = .pushRun ↔ true = true) ∧
      (RecordKind.pushRun = .marker ↔ false = true)
    decide

/-! ### Inside a record -/

/-- What is left of a record from an index on. -/
def Record.leftAt (actions : List Action) (record : Record) (index : Nat) : Record :=
  ⟨index, record.stop, encodedLength ((actions.take record.stop).drop index), record.kind⟩

/-- **At an index inside a record begins what is left of it.** -/
theorem Record.Covers.recordAt? {front own back : List Action} {record : Record}
    (covers : record.Covers front.length back own) {inner : Nat} (inside : inner < own.length) :
    ActionCode.recordAt? (front ++ (own ++ back)) (front.length + inner) =
      some (record.leftAt (front ++ (own ++ back)) (front.length + inner)) := by
  have stop := covers.range.2
  have taken : (front ++ (own ++ back)).take (front.length + own.length) = front ++ own := by
    rw [← List.append_assoc, ← List.length_append, List.take_left' rfl]
  have dropped : (own ++ back).drop inner = own.drop inner ++ back :=
    List.drop_append_of_le_length (Nat.le_of_lt inside)
  rw [ActionCode.recordAt?, List.drop_length_add_append, dropped, leftAt, stop, taken,
    List.drop_length_add_append]
  cases covers with
  | @action action other =>
    obtain rfl : inner = 0 := Nat.lt_one_iff.mp inside
    rw [List.drop_zero, List.singleton_append, firstRecord?_other other, (measures_single other).1]
    rfl
  | @run values filled stops =>
    rw [List.length_map] at inside
    have more : values.drop inner ≠ [] := by
      rw [Ne, List.drop_eq_nil_iff]
      exact Nat.not_le.mpr inside
    have ends : front.length + inner + (values.drop inner).length =
        front.length + values.length := by
      rw [List.length_drop]
      omega
    rw [← List.map_drop, firstRecord?_run more _ stops, (measures_run more).1, runRecord,
      Record.shifted, List.length_map, ends]
    rfl

/-! ### Positions -/

theorem placesFrom_append (extent : Extent) (runStart : Nat) (front rest : List Action) :
    ∃ runStart', placesFrom extent runStart (front ++ rest) =
      placesFrom extent runStart front ++ placesFrom (extent.through front) runStart' rest := by
  induction front generalizing extent runStart with
  | nil =>
    rw [Extent.through]
    exact ⟨runStart, rfl⟩
  | cons action front ih =>
    obtain ⟨runStart', equal⟩ := ih (extent.advance action)
      (if extent.inRun && action.isPush then runStart else extent.bytes)
    refine ⟨runStart', ?_⟩
    rw [List.cons_append, placesFrom, equal, placesFrom, Extent.through_cons]
    rfl

/-- Pushes that go on with a run are where it began. -/
theorem placesFrom_inRun {extent : Extent} (inRun : extent.inRun = true) (runStart : Nat)
    {values : List PushValue} {inner : Nat} (inside : inner < values.length) (rest : List Action) :
    (placesFrom extent runStart (values.map (fun value => .plain (.push value)) ++ rest))[inner]? =
      some runStart := by
  induction values generalizing extent inner with
  | nil => cases inside
  | cons value values ih =>
    rw [List.map_cons, List.cons_append, placesFrom, inRun, Bool.true_and, if_pos (by rfl)]
    cases inner with
    | zero => rfl
    | succ inner =>
      rw [List.getElem?_cons_succ]
      exact ih (Extent.inRun_advance extent _) (Nat.lt_of_succ_lt_succ inside)

/-- **All actions of a record are where it begins.** -/
theorem Record.Covers.positions {front own back : List Action} {record : Record}
    (covers : record.Covers front.length back own) (parted : Parted front (own ++ back))
    {inner : Nat} (inside : inner < own.length) :
    (ActionCode.positions (front ++ (own ++ back)))[front.length + inner]? =
      some (encodedLength front) := by
  obtain ⟨runStart, equal⟩ := placesFrom_append Extent.start 0 front (own ++ back)
  have before : (placesFrom Extent.start 0 front).length = front.length := length_placesFrom ..
  rw [positions_eq, equal, List.getElem?_append_right (by omega), before, Nat.add_sub_cancel_left]
  cases covers with
  | @action action other =>
    obtain rfl : inner = 0 := Nat.lt_one_iff.mp inside
    rw [List.singleton_append, placesFrom, other, Bool.and_false, if_neg Bool.false_ne_true]
    rfl
  | @run values filled stops =>
    obtain ⟨value, values, rfl⟩ := List.exists_cons_of_ne_nil filled
    have apart : (Extent.start.through front).inRun = false := Bool.eq_false_iff.mpr fun inRun => by
      obtain ⟨last, isLast, ends⟩ := Extent.inRun_start_through_iff.mp inRun
      exact parted last isLast _ rfl ⟨ends, rfl⟩
    rw [List.map_cons, List.cons_append, placesFrom, apart, Bool.false_and,
      if_neg Bool.false_ne_true]
    cases inner with
    | zero => rfl
    | succ inner =>
      rw [List.length_map] at inside
      rw [List.getElem?_cons_succ]
      exact placesFrom_inRun (Extent.inRun_advance _ _) _ (Nat.lt_of_succ_lt_succ inside) back

/-! ### All of it -/

/-- What a record says of its sequence. -/
structure Record.Describes (actions : List Action) (record : Record) : Prop where
  bytes : record.bytes = encodedLength (record.covered actions)
  /-- Several actions are single pushes. -/
  pushes : record.first + 1 < record.stop →
    ∀ action ∈ record.covered actions, action.isPush = true
  run_iff : record.kind = .pushRun ↔ ∃ action, actions[record.first]? = some action ∧
    action.isPush = true
  marker_iff : record.kind = .marker ↔ ∃ action, actions[record.first]? = some action ∧
    action.isMarker = true
  /-- At an index inside the record begins what is left of it. -/
  left : ∀ index, record.first ≤ index → index < record.stop →
    recordAt? actions index = some (record.leftAt actions index)
  position : ∀ index, record.first ≤ index → index < record.stop →
    (positions actions)[index]? = some (encodedLength (actions.take record.first))

theorem Record.Covers.describes {front own back : List Action} {record : Record}
    (covers : record.Covers front.length back own) (parted : Parted front (own ++ back)) :
    record.Describes (front ++ (own ++ back)) := by
  obtain ⟨first, stop⟩ := covers.range
  obtain ⟨action, isHead, run, marker⟩ := covers.kind
  have within : ∀ index, record.first ≤ index → index < record.stop →
      ∃ inner < own.length, index = front.length + inner := by
    intro index begins ends
    refine ⟨index - front.length, ?_, ?_⟩ <;> omega
  have covered : record.covered (front ++ (own ++ back)) = own := by
    rw [Record.covered, first, stop, ← List.append_assoc, ← List.length_append,
      List.take_left' rfl, List.drop_left' rfl]
  have head : (front ++ (own ++ back))[record.first]? = some action := by
    rw [first, List.getElem?_append_right (Nat.le_refl _), Nat.sub_self, ← List.head?_eq_getElem?,
      List.head?_append, isHead]
    rfl
  refine ⟨by rw [covered, covers.bytes], fun several => ?_, ?_, ?_, fun index begins ends => ?_,
    fun index begins ends => ?_⟩
  · rw [covered]
    cases covers with
    | action other =>
      rw [first, stop, List.length_singleton] at several
      omega
    | run some stops =>
      intro action inside
      obtain ⟨value, _, rfl⟩ := List.mem_map.mp inside
      rfl
  · simp [run, head]
  · simp [marker, head]
  · obtain ⟨inner, inside, rfl⟩ := within index begins ends
    exact covers.recordAt? inside
  · obtain ⟨inner, inside, rfl⟩ := within index begins ends
    rw [first, List.take_left' rfl]
    exact covers.positions parted inside

/-- How many records of a sequence count. -/
def countedRecords (actions : List Action) : Nat := (records actions).countP Record.counted

/-- **A sequence is parted into its records, and measured part by part.** Its records are not empty
and follow one another over all of it; each of them is one action or a whole run of single pushes,
has the bytes of what it covers, and is found again, from there on, at every index inside; its
actions have the position of all bytes before it. And two sequences, one after the other, take the
bytes and the counted records that each takes alone, but if single pushes meet between them, three
bytes and a record less. -/
theorem records_partition (actions : List Action) :
    Consecutive 0 actions.length (records actions) ∧
    (∀ record ∈ records actions, record.Describes actions) ∧
    ((records actions).IsChain fun one next => one.kind = .pushRun → next.kind ≠ .pushRun) ∧
    encodedLength actions = ((records actions).map Record.bytes).sum ∧
    ∀ front back, actions = front ++ back →
      (Parted front back →
        encodedLength actions = encodedLength front + encodedLength back ∧
          countedRecords actions = countedRecords front + countedRecords back) ∧
      (¬ Parted front back →
        encodedLength actions + 3 = encodedLength front + encodedLength back ∧
          countedRecords actions + 1 = countedRecords front + countedRecords back) := by
  refine ⟨consecutive_records actions, fun record inside => ?_, isChain_records actions,
    (sum_bytes_records actions).symm, fun front back parts => ?_⟩
  · obtain ⟨front, own, back, rfl, parted, covers⟩ := exists_covers inside
    exact covers.describes parted
  · subst parts
    unfold countedRecords
    rw [countP_counted_records, countP_counted_records, countP_counted_records]
    exact ⟨measures_of_parted, measures_of_joined⟩

/-- A run of two pushes before a label and a further push: the second push begins what is left of
the run, and the run is split before it. -/
theorem records_partition_run :
    ⟨0, 2, 9, .pushRun⟩ ∈ records [.plain (.push (.integer 1)), .plain (.push .null),
      .marker (.label ⟨0⟩), .plain (.push .undefined), .plain (.basic .add)] ∧
    recordAt? [.plain (.push (.integer 1)), .plain (.push .null), .marker (.label ⟨0⟩),
      .plain (.push .undefined), .plain (.basic .add)] 1 = some ⟨1, 2, 4, .pushRun⟩ ∧
    ¬ Parted [.plain (.push (.integer 1))] [.plain (.push .null), .marker (.label ⟨0⟩),
      .plain (.push .undefined), .plain (.basic .add)] ∧
    encodedLength [.plain (.push (.integer 1)), .plain (.push .null), .marker (.label ⟨0⟩),
        .plain (.push .undefined), .plain (.basic .add)] + 3 =
      encodedLength [.plain (.push (.integer 1))] +
        encodedLength [.plain (.push .null), .marker (.label ⟨0⟩), .plain (.push .undefined),
          .plain (.basic .add)] := by
  have inside : ⟨0, 2, 9, .pushRun⟩ ∈ records [.plain (.push (.integer 1)), .plain (.push .null),
      .marker (.label ⟨0⟩), .plain (.push .undefined), .plain (.basic .add)] := by
    decide +kernel
  have joined : ¬ Parted [.plain (.push (.integer 1))] [.plain (.push .null),
      .marker (.label ⟨0⟩), .plain (.push .undefined), .plain (.basic .add)] :=
    not_parted_iff.mpr (by decide)
  obtain ⟨_, describes, _, _, parts⟩ := records_partition [.plain (.push (.integer 1)),
    .plain (.push .null), .marker (.label ⟨0⟩), .plain (.push .undefined), .plain (.basic .add)]
  refine ⟨inside, ?_, joined, ((parts [.plain (.push (.integer 1))] _ rfl).2 joined).1⟩
  exact ((describes _ inside).left 1 (by decide) (by decide)).trans (by decide)

end ActionCode
