/-
**Why merged sequences cannot be written.**

* `Writer.FailsOnly`: a writer fails for some causes only.
* `Action.Writable`: an action that can be written, but for the length of what it pushes.
* `Occurs`: an action is in a sequence, or in code inside.
* **`failsOnly_writeFrom`**: if all actions are writable, writing fails only because some push takes
  more bytes than the length of a body can say.
-/

import ActionCode.Proofs.Merging.Levels

namespace ActionCode

/-! ### Writers that fail -/

namespace Writer

/-- A writer fails for some causes only. -/
def FailsOnly (writer : Writer Unit) (causes : WriteFault → Prop) : Prop :=
  ∀ output fault output', writer output = .error fault output' → causes fault

variable {causes : WriteFault → Prop}

theorem FailsOnly.imp {writer : Writer Unit} {others : WriteFault → Prop}
    (fails : FailsOnly writer causes) (imp : ∀ fault, causes fault → others fault) :
    FailsOnly writer others := fun output fault output' failed =>
  imp fault (fails output fault output' failed)

/-- A writer with an image does not fail. -/
theorem Images.failsOnly {writer : Writer Unit} {image : Option (List UInt8)}
    (images : Images writer image) (some : image ≠ none) : FailsOnly writer causes := by
  intro output fault output' failed
  obtain ⟨bytes, rfl⟩ := Option.ne_none_iff_exists'.mp some
  rw [(images output _).mpr ⟨bytes, rfl, rfl⟩] at failed
  cases failed

theorem FailsOnly.bind {first second : Writer Unit} (early : FailsOnly first causes)
    (late : FailsOnly second causes) : FailsOnly (first >>= fun _ => second) causes := by
  intro output fault output' failed
  change EStateM.bind first (fun _ => second) output = _ at failed
  unfold EStateM.bind at failed
  split at failed
  · exact late _ _ _ failed
  · rename_i equal
    cases failed
    exact early _ _ _ equal

/-- The head of a record fails only if the length does not fit. -/
theorem failsOnly_header (opcode : UInt8) (length : Nat) :
    FailsOnly (header opcode length)
      fun fault => 65535 < length ∧ fault = .overflow .bodyLength length := by
  intro output fault output' failed
  unfold header at failed
  split at failed
  · cases failed
  · rename_i tooLong
    cases failed
    refine ⟨?_, rfl⟩
    rw [SizeField.fits, decide_eq_true_iff] at tooLong
    exact Nat.lt_of_not_le fun fits => tooLong (Nat.lt_succ_of_le fits)

end Writer

/-! ### Actions that can be written -/

/-- The bytes that what an action pushes takes after the head. -/
def Action.pushedWidth (action : Action) : Nat :=
  (action.pushed.map PushValue.width).sum

/-- An action that can be written, but for the length of what it pushes. -/
def Action.Writable : Action → Prop
  | .plain (.push value) => Field.images value.fields ≠ none
  | .plain (.pushList values) => Field.images (values.flatMap PushValue.fields) ≠ none
  | .plain instruction => instruction.image ≠ none
  | .define signature body => signature.image (encodedLength body) ≠ none
  | .marker _ => True

/-- All actions of a sequence can be written, but for the length of what they push. -/
def AllWritable (actions : List Action) : Prop := ∀ action ∈ actions, action.Writable

theorem Action.writable_iff_of_pushed {action : Action} (some : action.pushed ≠ []) :
    action.Writable ↔ Field.images (action.pushed.flatMap PushValue.fields) ≠ none := by
  match action, some with
  | .plain (.push value), _ =>
    change Field.images value.fields ≠ none ↔ Field.images ([value].flatMap _) ≠ none
    rw [List.flatMap_singleton]
  | .plain (.pushList values), _ => exact Iff.rfl

theorem writable_pushOf_iff {values : List PushValue} (some : values ≠ []) :
    (pushOf values).Writable ↔ Field.images (values.flatMap PushValue.fields) ≠ none := by
  rw [Action.writable_iff_of_pushed (by rwa [pushed_pushOf]), pushed_pushOf]

theorem joined_ne_none_iff {front back : Option (List UInt8)} :
    joined front back ≠ none ↔ front ≠ none ∧ back ≠ none := by
  cases front <;> cases back <;> simp [joined]

/-- An instruction with an image can be written. -/
theorem Instruction.writable_of_image (instruction : Instruction)
    (some : instruction.image ≠ none) : (Action.plain instruction).Writable := by
  cases instruction with
  | push value =>
    rw [image, Field.images_append, joined_ne_none_iff] at some
    exact some.2
  | pushList values =>
    rw [image, Field.images_append, joined_ne_none_iff] at some
    exact some.2
  | _ => exact some

/-- A definition can be written with shorter code. -/
theorem Signature.image_of_shorter (signature : Signature) {codeSize longer : Nat}
    (shorter : codeSize ≤ longer) (some : signature.image longer ≠ none) :
    signature.image codeSize ≠ none := by
  rw [image_eq, joined_ne_none_iff, joined_ne_none_iff] at some ⊢
  refine ⟨some.1, some.2.1, ?_⟩
  have fits := some.2.2
  rw [Field.image, ne_eq, ite_eq_right_iff] at fits ⊢
  rw [Classical.not_imp] at fits ⊢
  refine ⟨?_, Option.some_ne_none _⟩
  have small := fits.1
  rw [SizeField.fits, decide_eq_true_iff] at small ⊢
  omega

theorem allWritable_cons_iff {action : Action} {rest : List Action} :
    AllWritable (action :: rest) ↔ action.Writable ∧ AllWritable rest := List.forall_mem_cons

theorem AllWritable.joinRun {values : List PushValue} {later : List Action}
    (merged : Merged later) (first : Field.images (values.flatMap PushValue.fields) ≠ none)
    (rest : AllWritable later) : AllWritable (ActionCode.joinRun values later) := by
  by_cases some : values = []
  · rw [some]
    exact rest
  · cases later with
    | nil =>
      rw [joinRun_end some, allWritable_cons_iff]
      exact ⟨(writable_pushOf_iff some).mpr first, rest⟩
    | cons next others =>
      rw [allWritable_cons_iff] at rest
      by_cases empty : next.pushed = []
      · rw [joinRun_apart some empty, allWritable_cons_iff, allWritable_cons_iff]
        exact ⟨(writable_pushOf_iff some).mpr first, rest⟩
      · rw [joinRun_pushed values empty (merged.head empty), allWritable_cons_iff]
        refine ⟨(writable_pushOf_iff ?_).mpr ?_, rest.2⟩
        · exact List.append_ne_nil_of_left_ne_nil some _
        · rw [List.flatMap_append, Field.images_append]
          exact joined_ne_none_iff.mpr ⟨first, (Action.writable_iff_of_pushed empty).mp rest.1⟩

/-- **Joined pushes can be written**, but for their length, if the single ones can. -/
theorem AllWritable.fuse {actions : List Action} (writable : AllWritable actions) :
    AllWritable (ActionCode.fuse actions) := by
  induction actions with
  | nil => exact writable
  | cons action rest ih =>
    rw [allWritable_cons_iff] at writable
    by_cases some : action.pushed = []
    · rw [fuse_unpushed some, allWritable_cons_iff]
      exact ⟨writable.1, ih writable.2⟩
    · rw [fuse_pushed some]
      exact .joinRun (merged_fuse rest) ((Action.writable_iff_of_pushed some).mp writable.1)
        (ih writable.2)

/-- An exception block can be written whatever its sizes. -/
theorem TryBlock.image_unsized_iff (handlers : TryBlock) :
    (Instruction.block (Block.unsized (.exception handlers))).image ≠ none ↔
      (Instruction.block (.exception handlers)).image ≠ none := by
  have parts : ∀ trySize catchSize finallySize : UInt16,
      (Instruction.block (.exception { handlers with
        trySize := trySize, catchSize := catchSize, finallySize := finallySize })).image ≠ none ↔
      Field.images (Instruction.block (.exception handlers)).head ≠ none ∧
        handlers.target.field.image ≠ none := by
    intro trySize catchSize finallySize
    rw [Instruction.image, Field.images_append, joined_ne_none_iff]
    refine and_congr Iff.rfl ?_
    simp only [Instruction.layout, Field.images_cons, Field.images_nil, joined_ne_none_iff]
    constructor
    · exact fun parts => parts.2.2.2.2.1
    · exact fun target => ⟨Option.some_ne_none _, Option.some_ne_none _, Option.some_ne_none _,
        Option.some_ne_none _, target, Option.some_ne_none _⟩
  exact (parts 0 0 0).trans (parts _ _ _).symm

/-- Neither offsets nor sizes matter. -/
theorem Action.writable_blank_iff {action : Action} :
    (action.recastShell Instruction.blank).Writable ↔ action.Writable := by
  cases action with
  | plain instruction =>
    cases instruction with
    | branch jump =>
      obtain ⟨conditional, offset, _ | label⟩ := jump
      · exact Iff.rfl
      · cases conditional <;> exact iff_of_true (Option.some_ne_none _) (Option.some_ne_none _)
    | block block =>
      rcases block with size | ⟨_ | frame, skipCount⟩ | handlers
      · exact iff_of_true (Option.some_ne_none _) (Option.some_ne_none _)
      · exact iff_of_true (Option.some_ne_none _) (Option.some_ne_none _)
      · exact iff_of_true (Option.some_ne_none _) (Option.some_ne_none _)
      · exact handlers.image_unsized_iff
    | _ => exact Iff.rfl
  | _ => exact Iff.rfl

/-! ### Actions inside -/

/-- An action is in a sequence, or in code inside. -/
inductive Occurs (action : Action) : List Action → Prop
  | here {actions : List Action} (inside : action ∈ actions) : Occurs action actions
  | deeper {actions body : List Action} {signature : Signature}
      (isDefine : .define signature body ∈ actions) (inside : Occurs action body) :
      Occurs action actions

theorem Occurs.mono {action : Action} {actions others : List Action}
    (occurs : Occurs action actions) (imp : ∀ action ∈ actions, action ∈ others) :
    Occurs action others := by
  cases occurs with
  | here inside => exact .here (imp action inside)
  | deeper isDefine inside => exact .deeper (imp _ isDefine) inside

/-- Some push of a sequence takes more bytes than the length of a body can say. -/
def Overlong (actions : List Action) (fault : WriteFault) : Prop :=
  ∃ run, Occurs run actions ∧ 65535 < run.pushedWidth ∧
    fault = .overflow .bodyLength run.pushedWidth

theorem Overlong.mono {actions others : List Action} {fault : WriteFault}
    (overlong : Overlong actions fault) (imp : ∀ action ∈ actions, action ∈ others) :
    Overlong others fault := by
  obtain ⟨run, occurs, cause⟩ := overlong
  exact ⟨run, occurs.mono imp, cause⟩

/-! ### Sequences -/

theorem failsOnly_push {values : List PushValue}
    (writable : Field.images (values.flatMap PushValue.fields) ≠ none) {instruction : Instruction}
    (layout : instruction.layout = values.flatMap PushValue.fields)
    (isPush : instruction.byte = Opcode.push.byte)
    (pushed : (Action.plain instruction).pushed = values) :
    Writer.FailsOnly instruction.write (Overlong [.plain instruction]) := by
  have long : ¬ instruction.byte < bodyThreshold := by
    rw [isPush]
    decide
  have declared : instruction.bodyLength = (values.map PushValue.width).sum := by
    rw [← instruction.totalWidth_layout, layout, PushValue.totalWidth_flatMap_fields,
      totalOf_eq_sum]
  rw [Instruction.write, if_neg long, layout, declared]
  refine ((Writer.failsOnly_header _ _).imp fun fault cause => ?_).bind
    ((Writer.fields_images _).failsOnly writable)
  refine ⟨.plain instruction, .here List.mem_cons_self, ?_⟩
  rw [Action.pushedWidth, pushed]
  exact cause

mutual

theorem Action.failsOnly_write : ∀ {action : Action}, action.Writable →
    action.CodeHolds AllWritable → action.CodeHolds Spaced →
      Writer.FailsOnly action.write (Overlong [action])
  | .plain instruction, writable, _, _ => by
    rw [Action.write]
    cases instruction with
    | push value =>
      have single := (List.flatMap_singleton PushValue.fields value).symm
      change Field.images value.fields ≠ none at writable
      rw [single] at writable
      exact failsOnly_push writable single rfl rfl
    | pushList values => exact failsOnly_push writable rfl rfl rfl
    | _ => exact (Instruction.write_images _).failsOnly writable
  | .define signature body, writable, inside, spaced => by
    rw [Action.CodeHolds] at inside spaced
    change signature.image (encodedLength body) ≠ none at writable
    rw [Signature.image_eq, joined_ne_none_iff, joined_ne_none_iff] at writable
    rw [Action.write]
    refine ((Writer.header_images _ _).failsOnly writable.1).bind
      (((Writer.fields_images _).failsOnly writable.2.1).bind
        (((Writer.size_images _ _).failsOnly writable.2.2).bind ?_))
    refine (failsOnly_writeFrom inside spaced).imp fun fault cause => ?_
    obtain ⟨run, occurs, cause⟩ := cause
    exact ⟨run, .deeper List.mem_cons_self occurs, cause⟩
  | .marker found, _, _, _ => by
    rw [Action.write]
    exact Writer.Images.pure.failsOnly (Option.some_ne_none _)

/-- **Writing fails only because some push takes too many bytes.** -/
theorem failsOnly_writeFrom : ∀ {actions : List Action}, EveryLevel AllWritable actions →
    EveryLevel Spaced actions → Writer.FailsOnly (writeFrom false actions) (Overlong actions)
  | [], _, _ => Writer.Images.pure.failsOnly (Option.some_ne_none _)
  | action :: rest, writable, spaced => by
    obtain ⟨own, inside⟩ := writable
    obtain ⟨apart, inside'⟩ := spaced
    rw [AllCodeHolds] at inside inside'
    rw [allWritable_cons_iff] at own
    rw [writeFrom_of_spaced apart]
    refine Writer.FailsOnly.bind ?_ ?_
    · exact (Action.failsOnly_write own.1 inside.1 inside'.1).imp fun fault cause =>
        cause.mono fun other isFirst => List.mem_singleton.mp isFirst ▸ List.mem_cons_self
    · exact (failsOnly_writeFrom ⟨own.2, inside.2⟩ ⟨apart.tail, inside'.2⟩).imp fun fault cause =>
        cause.mono fun other isLater => List.mem_cons_of_mem _ isLater

end

end ActionCode
