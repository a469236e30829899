/-
**The bytes of a sequence are known before it is written.**

* **`encodedLength_mergePushes`**: merging pushes changes no length, at any level.
* **`sizes_exact`**: a sequence, or an action on its own, is written as just its framed bytes, and these
  have the length that was told; and what a sequence is assembled to has the length that was told of the
  sequence as it was given.
-/

import ActionCode.Proofs.Blocks.Lengths
import ActionCode.Proofs.Derived.Passes
import ActionCode.Proofs.Merging.Records
import ActionCode.Proofs.Sizes.Framing

namespace ActionCode

/-! ### Merged runs -/

theorem Extent.through_cons (before : Extent) (action : Action) (rest : List Action) :
    before.through (action :: rest) = (before.advance action).through rest := by
  rw [through]
  rfl

/-- Further literals of a run take no head. -/
theorem Extent.through_run (bytes records : Nat) (values : List PushValue) :
    (Extent.mk bytes records true).through (values.map fun value => .plain (.push value)) =
      ⟨bytes + (values.map PushValue.width).sum, records, true⟩ := by
  induction values generalizing bytes with
  | nil => rw [List.map_nil, through]; rfl
  | cons value values ih =>
    rw [List.map_cons, through_cons, advance_push, if_pos rfl, ih, List.map_cons,
      List.sum_cons, ← Nat.add_assoc]

/-- **A run of single pushes takes the room of the one push that it is merged into.** -/
theorem Extent.point_through_joinRun (bytes records : Nat) (values : List PushValue) :
    ((Extent.mk bytes records false).through (joinRun values [])).point =
      ((Extent.mk bytes records false).through
        (values.map fun value => .plain (.push value))).point := by
  rcases values with _ | ⟨value, _ | ⟨next, values⟩⟩
  · rfl
  · rfl
  · rw [joinRun_end (List.cons_ne_nil _ _), List.map_cons, through_cons, through_cons,
      advance_push, if_neg Bool.false_ne_true, through_run, through, pushOf, advance_other rfl,
      width_pushList, List.map_cons, List.sum_cons]
    · show Point.mk _ _ = Point.mk _ _
      rw [Nat.add_assoc, Nat.add_assoc]
      rfl
    · exact fun _ single => by cases single

/-- Behind an action that no push joins, only the room before it counts. -/
theorem Extent.advance_of_point {action : Action} (other : action.isPush = false)
    {before before' : Extent} (same : before.point = before'.point) :
    before.advance action = before'.advance action := by
  have bytes : before.bytes = before'.bytes := congrArg Point.bytes same
  have records : before.records = before'.records := congrArg Point.records same
  rw [advance_other other, advance_other other, bytes, records]

/-- What a run in hand is flushed into takes the room of its single pushes. -/
theorem Extent.point_through_flushRun (run : Array PushValue) {done : Array Action}
    (apart : (Extent.start.through done.toList).inRun = false) :
    (Extent.start.through (flushRun run done).toList).point =
      (Extent.start.through (done.toList ++
        run.toList.map fun value => .plain (.push value))).point := by
  rw [toList_flushRun, through_append, through_append]
  generalize Extent.start.through done.toList = before at apart
  obtain ⟨bytes, records, inRun⟩ := before
  obtain rfl : inRun = false := apart
  exact point_through_joinRun bytes records run.toList

/-- **Merging the rest of a sequence keeps its bytes**, where what has been done ends with no push that
a further one would join. -/
theorem Extent.bytes_through_mergeRunsFrom (run : Array PushValue) (done : Array Action)
    (actions : List Action) (apart : (Extent.start.through done.toList).inRun = false) :
    (Extent.start.through (mergeRunsFrom run done actions).toList).bytes =
      (Extent.start.through (done.toList ++
        run.toList.map (fun value => .plain (.push value)) ++ actions)).bytes := by
  induction actions generalizing run done with
  | nil =>
    rw [List.append_nil]
    exact congrArg Point.bytes (point_through_flushRun run apart)
  | cons action rest ih =>
    obtain ⟨value, rfl⟩ | other := action.push_or_other
    · rw [mergeRunsFrom, ih _ _ apart, Array.toList_push, List.map_append, List.append_assoc,
        List.append_assoc, List.append_assoc]
      rfl
    · have flushed := advance_of_point other (point_through_flushRun run apart)
      have ends : (Extent.start.through ((flushRun run done).push action).toList).inRun = false := by
        rw [Array.toList_push, through_append, through_cons, advance_other other, through]
      rw [mergeRunsFrom_other other, ih _ _ ends, Array.toList_push, List.append_assoc,
        List.append_assoc, through_append, List.map_nil, List.nil_append, List.singleton_append,
        through_cons, flushed, ← through_cons, ← through_append, List.append_assoc]

/-- Merging the pushes of a sequence keeps its bytes. -/
theorem encodedLength_mergeRuns (actions : List Action) :
    encodedLength (mergeRuns actions) = encodedLength actions :=
  Extent.bytes_through_mergeRunsFrom #[] #[] actions (by rw [Extent.through]; rfl)

/-! ### Every level -/

section Levels

variable {pass : List Action → List Action}

mutual

theorem Extent.advance_mapInside
    (keeps : ∀ actions, encodedLength (pass actions) = encodedLength actions) :
    ∀ (before : Extent) (action : Action),
      before.advance (action.mapInside pass) = before.advance action
  | before, .plain instruction => by rw [Action.mapInside_plain]
  | before, .define signature body => by
    have inner := encodedLength_mapLevels keeps body
    rw [Action.mapInside_define, Extent.advance_other rfl, Extent.advance_other rfl, Action.width,
      Action.width]
    change Extent.mk (_ + (_ + encodedLength _)) _ _ = Extent.mk (_ + (_ + encodedLength _)) _ _
    rw [inner]
    rfl
  | before, .marker found => by rw [Action.mapInside_marker]

theorem Extent.through_mapInside
    (keeps : ∀ actions, encodedLength (pass actions) = encodedLength actions) :
    ∀ (before : Extent) (actions : List Action),
      before.through (actions.map (Action.mapInside pass)) = before.through actions
  | before, [] => rfl
  | before, action :: rest => by
    rw [List.map_cons, Extent.through_cons, Extent.through_cons,
      Extent.advance_mapInside keeps before action,
      Extent.through_mapInside keeps _ rest]

/-- A pass that keeps the bytes of a sequence keeps them at every level. -/
theorem encodedLength_mapLevels
    (keeps : ∀ actions, encodedLength (pass actions) = encodedLength actions) :
    ∀ actions : List Action, encodedLength (mapLevels pass actions) = encodedLength actions
  | actions => by
    rw [mapLevels_eq, keeps, encodedLength, Extent.through_mapInside keeps Extent.start actions]
    rfl

end

end Levels

/-- **Merging pushes changes no length.** -/
theorem encodedLength_mergePushes (actions : List Action) :
    encodedLength (mergePushes actions) = encodedLength actions :=
  encodedLength_mapLevels encodedLength_mergeRuns actions

/-! ### What is written -/

/-- A sequence is assembled to as many bytes as were told of it. -/
theorem length_of_assemble {settings : AssemblySettings} {actions : List Action}
    {bytes : List UInt8} (success : (assemble settings actions).result = .ok bytes) :
    bytes.length = encodedLength actions := by
  obtain ⟨resolved, isResolved, written⟩ := assemble_ok_iff.mp success
  obtain ⟨_, blank, _⟩ := resolve_ok_iff.mp isResolved
  calc bytes.length = encodedLength resolved := (length_of_sequence written).symm
    _ = encodedLength (recastAll Instruction.blank resolved) := (keeps_blank.encodedLength _).symm
    _ = encodedLength (recastAll Instruction.blank (mergePushes actions)) := by rw [blank]
    _ = encodedLength (mergePushes actions) := keeps_blank.encodedLength _
    _ = encodedLength actions := encodedLength_mergePushes actions

/-- **Sizes are accounted for exactly.** A sequence is written as just the bytes in which every length
and every code size is that of what follows it, and these are as many as were told of the sequence. So it
is with an action on its own; and a sequence that is assembled takes as many bytes as were told of it when
it was given. -/
theorem sizes_exact :
    (∀ (actions : List Action) (output output' : Array UInt8),
      writeSequence actions output = .ok () output' ↔
        ∃ bytes : List UInt8, output' = output ++ bytes ∧ bytes.length = encodedLength actions ∧
          FramedAll actions bytes) ∧
    (∀ (action : Action) (output output' : Array UInt8), action.write output = .ok () output' ↔
      ∃ bytes : List UInt8, output' = output ++ bytes ∧ bytes.length = action.width ∧
        action.Framed bytes) ∧
    (∀ (settings : AssemblySettings) (actions : List Action) (bytes : List UInt8),
      (assemble settings actions).result = .ok bytes ↔ bytes.length = encodedLength actions ∧
        ∃ emitted, resolve settings actions = .ok emitted ∧ FramedAll emitted bytes) := by
  refine ⟨fun actions output output' => ?_, fun action output output' => ?_,
    fun settings actions bytes => ?_⟩
  · rw [writeSequence, writeFrom_images false actions output output']
    constructor
    · rintro ⟨bytes, written, appended⟩
      exact ⟨bytes, appended, (length_of_sequence written).symm, framedAll_of_image written⟩
    · rintro ⟨bytes, appended, -, framed⟩
      exact ⟨bytes, imageFrom_of_framed framed, appended⟩
  · rw [Action.write_images action output output']
    constructor
    · rintro ⟨bytes, written, appended⟩
      exact ⟨bytes, appended, Action.length_of_image written, Action.framed_of_image written⟩
    · rintro ⟨bytes, appended, -, framed⟩
      exact ⟨bytes, Action.image_of_framed framed, appended⟩
  · constructor
    · intro success
      obtain ⟨emitted, isEmitted, written⟩ := assemble_ok_iff.mp success
      exact ⟨length_of_assemble success, emitted, isEmitted, framedAll_of_image written⟩
    · rintro ⟨-, emitted, isEmitted, framed⟩
      exact assemble_ok_iff.mpr ⟨emitted, isEmitted, imageFrom_of_framed framed⟩

/-- A definition around a run of two pushes before an unknown byte with a payload, a bodied opcode
without a body, and a jump over a run that is merged. -/
theorem sizes_exact_run_in_code :
    (∃ bytes : List UInt8,
      (#[0x07, 0x9b, 6, 0, 0x66, 0, 0, 0, 10, 0, 0x96, 6, 0, 7, 1, 0, 0, 0, 2, 0x0a, 0x16, 9] :
        Array UInt8) = (#[0x07] : Array UInt8) ++ bytes ∧
      bytes.length = encodedLength [.define (.simple "f" []) [.plain (.push (.integer 1)),
        .plain (.push .null), .plain (.basic .add)], .plain (.unknown 0x16 [9])] ∧
      FramedAll [.define (.simple "f" []) [.plain (.push (.integer 1)),
        .plain (.push .null), .plain (.basic .add)], .plain (.unknown 0x16 [9])] bytes) ∧
    (∃ bytes : List UInt8, (#[0x9d, 0, 0] : Array UInt8) = (#[] : Array UInt8) ++ bytes ∧
      bytes.length = (Action.plain (.basic .ifTrue)).width ∧
      (Action.plain (.basic .ifTrue)).Framed bytes) ∧
    ([0x99, 2, 0, 5, 0, 0x96, 2, 0, 2, 3].length = encodedLength
        [.plain (.branch ⟨false, 0, some ⟨1⟩⟩), .plain (.push .null), .plain (.push .undefined),
          .marker (.label ⟨1⟩)] ∧
      ∃ emitted, resolve ⟨4⟩ [.plain (.branch ⟨false, 0, some ⟨1⟩⟩), .plain (.push .null),
          .plain (.push .undefined), .marker (.label ⟨1⟩)] = .ok emitted ∧
        FramedAll emitted [0x99, 2, 0, 5, 0, 0x96, 2, 0, 2, 3]) :=
  ⟨(sizes_exact.1 [.define (.simple "f" []) [.plain (.push (.integer 1)), .plain (.push .null),
      .plain (.basic .add)], .plain (.unknown 0x16 [9])] #[0x07]
    #[0x07, 0x9b, 6, 0, 0x66, 0, 0, 0, 10, 0, 0x96, 6, 0, 7, 1, 0, 0, 0, 2, 0x0a, 0x16, 9]).mp rfl,
  (sizes_exact.2.1 (.plain (.basic .ifTrue)) #[] #[0x9d, 0, 0]).mp rfl,
  (sizes_exact.2.2 ⟨4⟩ [.plain (.branch ⟨false, 0, some ⟨1⟩⟩), .plain (.push .null),
    .plain (.push .undefined), .marker (.label ⟨1⟩)] [0x99, 2, 0, 5, 0, 0x96, 2, 0, 2, 3]).mp
    (by decide +kernel)⟩

end ActionCode
