/-
**A sequence fails to be written exactly if something in it cannot be encoded.**

* `textsOf`, `declaredLengths`: the texts of a sequence, and the lengths that its records declare, where
  neighbouring single pushes are one record.
* `Encodable`: all of them, and the sizes of the code in a sequence, can be encoded. `Unencodable`: the
  causes why not.
* **`emission_exact`**: a sequence is written exactly if it is encodable at every level, and a fault has
  its cause at some level.
-/

import ActionCode.Proofs.Emission.Records
import ActionCode.Proofs.Merging.Invisible

namespace ActionCode

/-! ### Texts, lengths and code of a sequence -/

/-- The texts of a sequence, but for those of code inside. -/
def textsOf (actions : List Action) : List String := actions.flatMap Action.texts

/-- The length that the head of a record declares. That of a run of pushes covers all its literals. -/
def Record.declaredLength? (actions : List Action) (record : Record) : Option Nat :=
  match record.kind with
  | .pushRun => some (record.bytes - headWidth)
  | _ => actions[record.first]?.bind Action.declaredLength?

/-- The lengths that the records of a sequence declare. -/
def declaredLengths (actions : List Action) : List Nat :=
  (records actions).filterMap (Record.declaredLength? actions)

theorem declaredLength?_shifted (front rest : List Action) (record : Record) :
    (record.shifted front.length).declaredLength? (front ++ rest) = record.declaredLength? rest := by
  simp only [Record.declaredLength?, Record.shifted]
  rw [List.getElem?_append_right (Nat.le_add_right _ _), Nat.add_sub_cancel_left]

/-- The lengths behind the actions of the first record. -/
theorem declaredLengths_append (front : List Action) {rest : List Action} {first : Record}
    (isRecords : records (front ++ rest) =
      first :: (records rest).map (Record.shifted front.length)) :
    declaredLengths (front ++ rest) =
      (first.declaredLength? (front ++ rest)).toList ++ declaredLengths rest := by
  have later : ((records rest).map (Record.shifted front.length)).filterMap
      (Record.declaredLength? (front ++ rest)) = declaredLengths rest := by
    rw [List.filterMap_map]
    exact List.filterMap_congr fun record _ => declaredLength?_shifted front rest record
  rw [declaredLengths, isRecords, List.filterMap_cons, later]
  cases first.declaredLength? (front ++ rest) <;> rfl

theorem declaredLengths_other {action : Action} (other : action.isPush = false)
    (rest : List Action) :
    declaredLengths (action :: rest) = action.declaredLength?.toList ++ declaredLengths rest := by
  have whole := declaredLengths_append [action] (records_other other rest)
  have own : action.ownRecord.declaredLength? (action :: rest) = action.declaredLength? := by
    rw [Record.declaredLength?, Action.ownRecord]
    cases action.isMarker <;> rfl
  rwa [List.singleton_append, own] at whole

/-- A run of pushes declares what the one push of its literals does. -/
theorem declaredLengths_run {values : List PushValue} (some : values ≠ []) {rest : List Action}
    (stops : Stops rest) :
    declaredLengths (values.map (fun value => .plain (.push value)) ++ rest) =
      declaredLengths (.plain (.pushList values) :: rest) := by
  have isRecords := records_run some stops
  rw [← List.length_map (fun value => Action.plain (.push value))] at isRecords
  rw [declaredLengths_append _ isRecords, declaredLengths_other rfl]
  have bytes : (runRecord values).bytes - headWidth =
      (values.map PushValue.width).sum := Nat.add_sub_cancel_left _ _
  rw [Record.declaredLength?, bytes, ← totalOf_eq_sum]
  rfl

theorem textsOf_cons (action : Action) (rest : List Action) :
    textsOf (action :: rest) = action.texts ++ textsOf rest := List.flatMap_cons

theorem textsOf_run (values : List PushValue) (rest : List Action) :
    textsOf (values.map (fun value => .plain (.push value)) ++ rest) =
      textsOf (.plain (.pushList values) :: rest) := by
  have texts : textsOf (values.map fun value => .plain (.push value)) =
      values.filterMap PushValue.text? := by
    rw [textsOf, List.flatMap_map]
    exact (List.filterMap_eq_flatMap_toList _ _).symm
  rw [textsOf_cons, Action.texts, Instruction.texts, ← texts]
  exact List.flatMap_append

theorem writeFrom_eq_of_run {values : List PushValue} (some : values ≠ []) {rest : List Action}
    (stops : Stops rest) :
    writeFrom false (values.map (fun value => .plain (.push value)) ++ rest) =
      writeFrom false (.plain (.pushList values) :: rest) := by
  rw [writeFrom_run some stops, writeFrom_cons rfl]

/-! ### What can be encoded, and what cannot -/

/-- A sequence can be encoded, but for code inside. -/
structure Encodable (code : List Action) : Prop where
  texts : ∀ text ∈ textsOf code, '\x00' ∉ text.toList
  lengths : ∀ length ∈ declaredLengths code, length ≤ 65535
  codeSizes : ∀ body ∈ bodiesOf code, encodedLength body ≤ 65535

/-- Why a sequence cannot be encoded, but for code inside. -/
inductive Unencodable (code : List Action) : WriteFault → Prop
  | text {text : String} (inside : text ∈ textsOf code) (null : '\x00' ∈ text.toList) :
      Unencodable code (.interiorNul text)
  | length {length : Nat} (inside : length ∈ declaredLengths code) (long : 65535 < length) :
      Unencodable code (.overflow .bodyLength length)
  | codeSize {body : List Action} (inside : body ∈ bodiesOf code)
      (long : 65535 < encodedLength body) :
      Unencodable code (.overflow .codeSize (encodedLength body))

theorem encodable_iff {code : List Action} :
    Encodable code ↔ ∀ fault, ¬ Unencodable code fault := by
  constructor
  · rintro encodable fault (⟨inside, null⟩ | ⟨inside, long⟩ | ⟨inside, long⟩)
    · exact encodable.texts _ inside null
    · exact Nat.not_le.mpr long (encodable.lengths _ inside)
    · exact Nat.not_le.mpr long (encodable.codeSizes _ inside)
  · intro none
    refine ⟨fun text inside null => none _ (.text inside null), fun length inside => ?_,
      fun body inside => ?_⟩
    · exact Nat.not_lt.mp fun long => none _ (.length inside long)
    · exact Nat.not_lt.mp fun long => none _ (.codeSize inside long)

/-- A cause lies in the first action or behind it. -/
theorem unencodable_cons_iff {action : Action} (other : action.isPush = false) {rest : List Action}
    {fault : WriteFault} :
    Unencodable (action :: rest) fault ↔ action.Unwritable fault ∨ Unencodable rest fault := by
  have bodies : ∀ body, body ∈ bodiesOf (action :: rest) ↔
      action.body? = some body ∨ body ∈ bodiesOf rest := by
    intro body
    rw [bodiesOf, List.filterMap_cons]
    cases action.body? with
    | none => simp [bodiesOf]
    | some code => simp [bodiesOf, eq_comm]
  constructor
  · rintro (⟨inside, null⟩ | ⟨inside, long⟩ | ⟨inside, long⟩)
    · rw [textsOf_cons, List.mem_append] at inside
      exact inside.imp (.text · null) (.text · null)
    · rw [declaredLengths_other other, List.mem_append, Option.mem_toList] at inside
      exact inside.imp (.length · long) (.length · long)
    · exact ((bodies _).mp inside).imp (.codeSize · long) (.codeSize · long)
  · rintro ((⟨inside, null⟩ | ⟨declared, long⟩ | ⟨isBody, long⟩) |
      (⟨inside, null⟩ | ⟨inside, long⟩ | ⟨inside, long⟩))
    · exact .text (textsOf_cons action rest ▸ List.mem_append_left _ inside) null
    · refine .length ?_ long
      rw [declaredLengths_other other, declared]
      exact List.mem_cons_self
    · exact .codeSize ((bodies _).mpr (.inl isBody)) long
    · exact .text (textsOf_cons action rest ▸ List.mem_append_right _ inside) null
    · refine .length ?_ long
      rw [declaredLengths_other other]
      exact List.mem_append_right _ inside
    · exact .codeSize ((bodies _).mpr (.inr inside)) long

/-- A cause is one of every sequence with the same texts, lengths and code inside. -/
theorem Unencodable.congr {code other : List Action} {fault : WriteFault}
    (texts : textsOf code = textsOf other) (lengths : declaredLengths code = declaredLengths other)
    (bodies : bodiesOf code = bodiesOf other) (cause : Unencodable code fault) :
    Unencodable other fault := by
  obtain ⟨inside, null⟩ | ⟨inside, long⟩ | ⟨inside, long⟩ := cause
  · exact .text (texts ▸ inside) null
  · exact .length (lengths ▸ inside) long
  · exact .codeSize (bodies ▸ inside) long

/-- The causes in a run of pushes are those in the one push of its literals. -/
theorem unencodable_run_iff {values : List PushValue} (some : values ≠ []) {rest : List Action}
    (stops : Stops rest) {fault : WriteFault} :
    Unencodable (values.map (fun value => .plain (.push value)) ++ rest) fault ↔
      Unencodable (.plain (.pushList values) :: rest) fault := by
  have texts := textsOf_run values rest
  have lengths := declaredLengths_run some stops
  have bodies : bodiesOf (values.map (fun value => .plain (.push value)) ++ rest) =
      bodiesOf (.plain (.pushList values) :: rest) := bodiesOf_run values rest
  exact ⟨.congr texts lengths bodies, .congr texts.symm lengths.symm bodies.symm⟩

/-! ### One level -/

/-- A fault of an action has its cause in the action, or it is one of code inside. -/
theorem Action.failsOnly_write_or_inside (action : Action) {inside : WriteFault → Prop}
    (code : ∀ body, action.body? = some body → Writer.FailsOnly (writeFrom false body) inside) :
    Writer.FailsOnly action.write fun fault => action.Unwritable fault ∨ inside fault := by
  cases action with
  | plain instruction =>
    rw [write]
    exact instruction.failsOnly_write.imp fun _ => .inl
  | define signature body =>
    have size : Writer.FailsOnly (Writer.size .codeSize (encodedLength body))
        (Action.define signature body).Unwritable := by
      refine (Writer.failsOnly_field (.size .codeSize (encodedLength body))).imp fun fault found => ?_
      obtain ⟨_, isText, _⟩ | ⟨_, _, isSize, large, rfl⟩ := Field.eq_of_fault? found
      · cases isText
      · cases isSize
        rw [SizeField.fits_iff_le rfl] at large
        exact .codeSize rfl (Nat.lt_of_not_le large)
    rw [write, ← bind_assoc]
    exact ((signature.failsOnly_write body).imp fun _ => .inl).bind
      ((size.imp fun _ => .inl).bind ((code body rfl).imp fun _ => .inr))
  | marker found =>
    rw [write]
    exact Writer.Images.pure.failsOnly (Option.some_ne_none _)

/-- **A fault of a sequence has its cause there, or it is one of code inside.** -/
theorem failsOnly_writeFrom_or_inside {inside : WriteFault → Prop} {actions : List Action}
    (code : ∀ body ∈ bodiesOf actions, Writer.FailsOnly (writeFrom false body) inside) :
    Writer.FailsOnly (writeFrom false actions) fun fault =>
      Unencodable actions fault ∨ inside fault := by
  have step : ∀ (action : Action) (rest : List Action), action.isPush = false →
      (∀ body, action.body? = some body → Writer.FailsOnly (writeFrom false body) inside) →
      Writer.FailsOnly (writeFrom false rest) (fun fault => Unencodable rest fault ∨ inside fault) →
      Writer.FailsOnly (writeFrom false (action :: rest)) fun fault =>
        Unencodable (action :: rest) fault ∨ inside fault := by
    intro action rest other here later
    simp only [unencodable_cons_iff other]
    rw [writeFrom_cons other]
    refine ((action.failsOnly_write_or_inside here).imp fun fault cause => ?_).bind
      (later.imp fun fault cause => ?_)
    · exact cause.imp_left .inl
    · exact cause.imp_left .inr
  induction actions using induction_on_runs with
  | nil => exact Writer.Images.pure.failsOnly (Option.some_ne_none _)
  | other action rest other ih =>
    obtain ⟨here, later⟩ := mem_bodiesOf_cons.mp code
    exact step action rest other here (ih later)
  | run values rest some stops ih =>
    rw [bodiesOf_run] at code
    simp only [unencodable_run_iff some stops]
    rw [writeFrom_eq_of_run some stops]
    exact step _ rest rfl (fun _ isBody => by cases isBody) (ih code)

/-- An action with an image can be written, and so can code inside. -/
theorem Action.writable_of_image {action : Action} (written : action.image ≠ none) :
    (∀ fault, ¬ action.Unwritable fault) ∧
      ∀ body, action.body? = some body → imageFrom false body ≠ none := by
  cases action with
  | plain instruction =>
    rw [image] at written
    exact ⟨Instruction.not_unwritable written, fun _ isBody => by cases isBody⟩
  | define signature body =>
    rw [image, joined_ne_none_iff] at written
    refine ⟨Signature.not_unwritable written.1, fun code isBody => ?_⟩
    cases isBody
    exact written.2
  | marker found =>
    refine ⟨?_, fun _ isBody => by cases isBody⟩
    rintro fault (⟨inside, _⟩ | ⟨declared, _⟩ | ⟨isBody, _⟩)
    · cases inside
    · cases declared
    · cases isBody

/-- **A sequence with an image can be encoded, and so can code inside.** -/
theorem encodable_of_image {actions : List Action} (written : imageFrom false actions ≠ none) :
    Encodable actions ∧ ∀ body ∈ bodiesOf actions, imageFrom false body ≠ none := by
  rw [encodable_iff]
  have step : ∀ (action : Action) (rest : List Action), action.isPush = false →
      (imageFrom false rest ≠ none → (∀ fault, ¬ Unencodable rest fault) ∧
        ∀ body ∈ bodiesOf rest, imageFrom false body ≠ none) →
      imageFrom false (action :: rest) ≠ none →
      (∀ fault, ¬ Unencodable (action :: rest) fault) ∧
        ∀ body ∈ bodiesOf (action :: rest), imageFrom false body ≠ none := by
    intro action rest other ih written
    rw [imageFrom_cons other, joined_ne_none_iff] at written
    obtain ⟨own, code⟩ := Action.writable_of_image written.1
    obtain ⟨later, inside⟩ := ih written.2
    refine ⟨fun fault cause => ?_, mem_bodiesOf_cons.mpr ⟨code, inside⟩⟩
    exact ((unencodable_cons_iff other).mp cause).elim (own fault) (later fault)
  induction actions using induction_on_runs with
  | nil =>
    refine ⟨?_, fun _ inside => absurd inside List.not_mem_nil⟩
    rintro fault (⟨inside, _⟩ | ⟨inside, _⟩ | ⟨inside, _⟩)
    · cases inside
    · rw [declaredLengths, records_nil] at inside
      cases inside
    · cases inside
  | other action rest other ih => exact step action rest other ih written
  | run values rest some stops ih =>
    have image : imageFrom false (values.map (fun value => .plain (.push value)) ++ rest) =
        imageFrom false (.plain (.pushList values) :: rest) := by
      have images := writeFrom_images false (.plain (.pushList values) :: rest)
      rw [← writeFrom_eq_of_run some stops] at images
      exact (writeFrom_images false _).unique images
    rw [image] at written
    have whole := step _ rest rfl ih written
    simp only [unencodable_run_iff some stops]
    rw [bodiesOf_run]
    exact whole

/-! ### Every level -/

/-- A sequence is written exactly if it has an image. -/
theorem writeSequence_succeeds_iff (actions : List Action) (output : Array UInt8) :
    (∃ output', writeSequence actions output = .ok () output') ↔ imageFrom false actions ≠ none := by
  rw [Option.ne_none_iff_exists']
  unfold writeSequence
  simp only [writeFrom_images false actions output]
  constructor
  · rintro ⟨_, bytes, image, _⟩
    exact ⟨bytes, image⟩
  · rintro ⟨bytes, image⟩
    exact ⟨_, bytes, image, rfl⟩

/-- **A fault has its cause at some level.** -/
theorem failsOnly_writeSequence (actions : List Action) :
    Writer.FailsOnly (writeSequence actions) fun fault =>
      ∃ path code, codeAt? path actions = some code ∧ Unencodable code fault := by
  unfold writeSequence
  induction actions using induction_on_levels with
  | step actions inner =>
    have inside : ∀ body ∈ bodiesOf actions, Writer.FailsOnly (writeFrom false body) fun fault =>
        ∃ path code, codeAt? path actions = some code ∧ Unencodable code fault := by
      intro body isBody
      refine (inner body isBody).imp fun fault cause => ?_
      obtain ⟨path, code, found, cause⟩ := cause
      obtain ⟨path, found⟩ := codeAt?_of_mem isBody found
      exact ⟨path, code, found, cause⟩
    refine (failsOnly_writeFrom_or_inside inside).imp fun fault cause => ?_
    exact cause.elim (fun here => ⟨[], actions, rfl, here⟩) id

/-- **A sequence is written exactly if it can be encoded at every level.** -/
theorem writeSequence_succeeds_iff_encodable (actions : List Action) (output : Array UInt8) :
    (∃ output', writeSequence actions output = .ok () output') ↔ EveryLevel Encodable actions := by
  constructor
  · rw [writeSequence_succeeds_iff]
    intro written
    induction actions using induction_on_levels with
    | step actions inner =>
      obtain ⟨own, code⟩ := encodable_of_image written
      exact ⟨own, allCodeHolds_iff_bodies.mpr fun body inside => inner body inside (code body inside)⟩
  · intro every
    cases ran : writeSequence actions output with
    | ok value output' => exact ⟨output', rfl⟩
    | error fault output' =>
      obtain ⟨path, code, found, cause⟩ := failsOnly_writeSequence actions _ _ _ ran
      exact absurd cause (encodable_iff.mp (everyLevel_iff_codeAt.mp every path code found) fault)

/-! ### Faults -/

/-- **The declared length is tested first**: if it is too long, nothing of the action is written. -/
theorem Action.write_of_long {action : Action} {length : Nat}
    (declared : action.declaredLength? = some length) (long : 65535 < length)
    (output : Array UInt8) : action.write output = .error (.overflow .bodyLength length) output := by
  have refused : ∀ opcode : UInt8, Writer.header opcode length output =
      .error (.overflow .bodyLength length) output := fun opcode =>
    Writer.header_of_long opcode long output
  cases action with
  | plain instruction =>
    change instruction.declaredLength? = some length at declared
    unfold Instruction.declaredLength? at declared
    split at declared
    · cases declared
    · rename_i bodied
      cases declared
      rw [write, Instruction.write, if_neg bodied]
      exact Writer.bind_of_error (refused _)
  | define signature body =>
    cases declared
    rw [write]
    exact Writer.bind_of_error (refused _)
  | marker found => cases declared

/-- **Writing fails exactly if something cannot be encoded.** A sequence is written exactly if at every
level no text holds a null character, and the length of no record and the size of no code is over 65535.
A fault names such a text, length or size at some level, and never the number of constants or of
parameters: if the declared length of an action is too long, that is its fault, before anything of it is
written; and constants and parameters are fewer than the bytes that it covers. -/
theorem emission_exact :
    (∀ (actions : List Action) (output : Array UInt8),
      (∃ output', writeSequence actions output = .ok () output') ↔ EveryLevel Encodable actions) ∧
    (∀ (actions : List Action) (output : Array UInt8) (fault : WriteFault) (output' : Array UInt8),
      writeSequence actions output = .error fault output' →
        (∃ path code, codeAt? path actions = some code ∧ Unencodable code fault) ∧
        ∀ count, fault ≠ .overflow .parameterCount count ∧
          fault ≠ .overflow .constantCount count) ∧
    (∀ (action : Action) (length : Nat) (output : Array UInt8),
      action.declaredLength? = some length → 65535 < length →
        action.write output = .error (.overflow .bodyLength length) output) ∧
    (∀ constants : List String, ∃ length,
      (Action.plain (.constantPool constants)).declaredLength? = some length ∧
        constants.length < length) ∧
    ∀ (signature : Signature) (body : List Action), ∃ length,
      (Action.define signature body).declaredLength? = some length ∧
        signature.paramNames.length < length := by
  refine ⟨writeSequence_succeeds_iff_encodable, fun actions output fault output' failed => ?_,
    fun action length output declared long => Action.write_of_long declared long output,
    fun constants => ?_, fun signature body => ⟨_, rfl, signature.length_paramNames_lt⟩⟩
  · obtain ⟨path, code, found, cause⟩ := failsOnly_writeSequence actions _ _ _ failed
    refine ⟨⟨path, code, found, cause⟩, fun count => ⟨?_, ?_⟩⟩
    · rintro rfl
      cases cause
    · rintro rfl
      cases cause
  · have inside : .size .constantCount constants.length ∈
        (Instruction.constantPool constants).layout := List.mem_cons_self
    obtain ⟨length, declared, less, -⟩ := Instruction.size_of_mem_layout inside
    exact ⟨length, declared, less⟩

/-- A target with a null character in the code of a definition is found there. A payload one byte too
long for its length is not begun. -/
theorem emission_exact_null :
    (∃ path code, codeAt? path [.define (.simple "f" []) [.plain (.setTarget "a\x00")]] = some code ∧
      Unencodable code (.interiorNul "a\x00")) ∧
    (Action.plain (.unknown 0xff (List.replicate 65536 0))).write #[7] =
      .error (.overflow .bodyLength 65536) #[7] := by
  have declared : ∀ payload : List UInt8,
      (Action.plain (.unknown 0xff payload)).declaredLength? = some payload.length := by
    intro payload
    have bodied : ¬ (Instruction.unknown 0xff payload).byte < bodyThreshold :=
      show ¬ (0xff : UInt8) < bodyThreshold by decide
    rw [Action.declaredLength?, Instruction.declaredLength?, if_neg bodied, Instruction.bodyLength]
  refine ⟨(emission_exact.2.1 [.define (.simple "f" []) [.plain (.setTarget "a\x00")]] #[]
      (.interiorNul "a\x00") #[0x9b, 6, 0, 0x66, 0, 0, 0, 6, 0, 0x8b, 3, 0] rfl).1,
    emission_exact.2.2.1 _ 65536 #[7] ?_ (by decide)⟩
  rw [declared, List.length_replicate]

end ActionCode
