/-
**Sequences are measured in parts.**

* `Extent.inRun_start_through_iff`: a run goes on exactly behind a single push.
* **`measures_of_parted`**: two parts take the bytes and the records that each of them takes alone.
  **`measures_of_joined`**: if single pushes meet between them, they take a head and a record less.
* **`sum_bytes_records`**, **`countP_counted_records`**: a sequence takes the bytes of its records,
  and as many of them count as its extent tells.
-/

import ActionCode.Proofs.Merging.Grouping

namespace ActionCode

/-! ### Where runs go on -/

/-- A run goes on behind a single push, and behind no other action. -/
theorem Extent.inRun_advance (before : Extent) (action : Action) :
    (before.advance action).inRun = action.isPush := by
  obtain ⟨value, rfl⟩ | other := action.push_or_other
  · rw [advance_push]
    cases before.inRun <;> rfl
  · rw [advance_other other, other]

theorem Extent.inRun_start_through_iff {front : List Action} :
    (Extent.start.through front).inRun = true ↔ ∃ last ∈ front.getLast?, last.isPush = true := by
  obtain rfl | ⟨others, last, rfl⟩ := List.eq_nil_or_concat front
  · rw [through]
    simp [start]
  · rw [List.concat_eq_append, through_append, through_cons, through, inRun_advance]
    simp

/-- What ends with a single push and what begins with one are not parted. -/
theorem not_parted_iff {front back : List Action} :
    ¬ Parted front back ↔ (∃ last ∈ front.getLast?, last.isPush = true) ∧
      ∃ first ∈ back.head?, first.isPush = true := by
  constructor
  · intro joined
    by_contra apart
    refine joined fun last isLast first isFirst both => apart ?_
    exact ⟨⟨last, isLast, both.1⟩, first, isFirst, both.2⟩
  · rintro ⟨⟨last, isLast, ends⟩, first, isFirst, begins⟩ parted
    exact parted last isLast first isFirst ⟨ends, begins⟩

/-! ### Two parts -/

/-- Behind a run, what begins with no single push takes what it takes alone. -/
theorem Extent.through_of_stops {back : List Action} (stops : Stops back) (before : Extent) :
    (before.through back).bytes = before.bytes + encodedLength back ∧
      (before.through back).records = before.records + recordTotal back := by
  rcases back with _ | ⟨action, rest⟩
  · rw [through]
    exact ⟨rfl, rfl⟩
  · have other := stops action rfl
    have same : before.point = (Extent.mk before.bytes before.records false).point := rfl
    rw [through_cons, advance_of_point other same, ← through_cons]
    exact through_apart rfl (action :: rest)

/-- **A single push that goes on with a run saves a head and a record.** -/
theorem Extent.through_push_of_inRun {before : Extent} (inRun : before.inRun = true)
    (value : PushValue) (rest : List Action) :
    (before.through (.plain (.push value) :: rest)).bytes + headWidth =
        before.bytes + encodedLength (.plain (.push value) :: rest) ∧
      (before.through (.plain (.push value) :: rest)).records + 1 =
        before.records + recordTotal (.plain (.push value) :: rest) := by
  obtain ⟨bytes, records, _⟩ := before
  obtain rfl : _ = true := inRun
  have ahead : (Extent.mk bytes records false).advance (.plain (.push value)) =
      ((Extent.mk bytes records true).advance (.plain (.push value))).behind ⟨headWidth, 1⟩ := by
    rw [advance_push, advance_push, if_neg Bool.false_ne_true, if_pos rfl, behind]
    dsimp only
    congr 1 <;> omega
  have apart : (Extent.mk bytes records false).inRun = false := rfl
  obtain ⟨bytes', records'⟩ := through_apart apart (.plain (.push value) :: rest)
  rw [through_cons, ahead, through_behind, ← through_cons, behind] at bytes' records'
  dsimp only at bytes' records' ⊢
  constructor <;> omega

/-- **Parted sequences take what each takes alone.** -/
theorem measures_of_parted {front back : List Action} (parted : Parted front back) :
    encodedLength (front ++ back) = encodedLength front + encodedLength back ∧
      recordTotal (front ++ back) = recordTotal front + recordTotal back := by
  unfold encodedLength recordTotal
  rw [Extent.through_append]
  cases inRun : (Extent.start.through front).inRun with
  | false => exact Extent.through_apart inRun back
  | true =>
    obtain ⟨last, isLast, ends⟩ := Extent.inRun_start_through_iff.mp inRun
    refine Extent.through_of_stops (fun first isFirst => ?_) _
    exact Bool.eq_false_iff.mpr fun begins => parted last isLast first isFirst ⟨ends, begins⟩

/-- **Sequences that join in a run take a head and a record less.** -/
theorem measures_of_joined {front back : List Action} (joined : ¬ Parted front back) :
    encodedLength (front ++ back) + headWidth = encodedLength front + encodedLength back ∧
      recordTotal (front ++ back) + 1 = recordTotal front + recordTotal back := by
  obtain ⟨ends, first, isFirst, begins⟩ := not_parted_iff.mp joined
  obtain ⟨rest, rfl⟩ := List.head?_eq_some_iff.mp isFirst
  obtain ⟨value, rfl⟩ | other := first.push_or_other
  · unfold encodedLength recordTotal
    rw [Extent.through_append]
    exact Extent.through_push_of_inRun (Extent.inRun_start_through_iff.mpr ends) value rest
  · exact absurd (other.symm.trans begins) Bool.false_ne_true

/-! ### Records -/

theorem measures_single {action : Action} (other : action.isPush = false) :
    encodedLength [action] = action.width ∧ recordTotal [action] = action.recordCount := by
  unfold encodedLength recordTotal
  rw [Extent.through_cons, Extent.advance_other other, Extent.through]
  exact ⟨Nat.zero_add _, Nat.zero_add _⟩

/-- A run is one record of all its literals. -/
theorem measures_run {values : List PushValue} (some : values ≠ []) :
    encodedLength (values.map fun value => .plain (.push value)) =
        headWidth + (values.map PushValue.width).sum ∧
      recordTotal (values.map fun value => .plain (.push value)) = 1 := by
  obtain ⟨value, values, rfl⟩ := List.exists_cons_of_ne_nil some
  unfold encodedLength recordTotal
  have first : Extent.start.advance (.plain (.push value)) =
      ⟨headWidth + value.width, 1, true⟩ := by
    rw [Extent.advance_push, Extent.start, if_neg Bool.false_ne_true, Nat.zero_add]
  rw [List.map_cons, Extent.through_cons, first, Extent.through_run, List.map_cons,
    List.sum_cons, ← Nat.add_assoc]
  exact ⟨rfl, rfl⟩

/-- The faces of records add up to what their sequence takes. -/
theorem measures_faces (actions : List Action) :
    (((records actions).map Record.face).map Prod.fst).sum = encodedLength actions ∧
      ((records actions).map Record.face).countP Prod.snd = recordTotal actions := by
  induction actions using induction_on_runs with
  | nil =>
    rw [records_nil, encodedLength, recordTotal, Extent.through]
    exact ⟨rfl, rfl⟩
  | other action rest other ih =>
    obtain ⟨bytes, total⟩ := measures_of_parted (parted_single other rest)
    rw [List.singleton_append, (measures_single other).1] at bytes
    rw [List.singleton_append, (measures_single other).2, Action.recordCount] at total
    rw [map_face_other other, List.map_cons, List.sum_cons, List.countP_cons, ih.1, ih.2, bytes,
      total, Nat.add_comm (recordTotal rest)]
    cases action.isMarker <;> exact ⟨rfl, rfl⟩
  | run values rest some stops ih =>
    obtain ⟨bytes, total⟩ := measures_of_parted (stops.parted (values.map (.plain <| .push ·)))
    rw [(measures_run some).1] at bytes
    rw [(measures_run some).2] at total
    rw [map_face_run some stops, List.map_cons, List.sum_cons, List.countP_cons, ih.1, ih.2, bytes,
      total, width_pushOf some, Nat.add_comm (recordTotal rest)]
    exact ⟨rfl, rfl⟩

/-- **A sequence takes the bytes of its records.** -/
theorem sum_bytes_records (actions : List Action) :
    ((records actions).map Record.bytes).sum = encodedLength actions := by
  rw [← (measures_faces actions).1, List.map_map]
  rfl

/-- **As many records of a sequence count as its extent tells.** -/
theorem countP_counted_records (actions : List Action) :
    (records actions).countP Record.counted = recordTotal actions := by
  rw [← (measures_faces actions).2, List.countP_map]
  rfl

end ActionCode
