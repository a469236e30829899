/-
**What one record cannot be written for.**

* **`zero_mem_ofText_iff`**: the bytes of a text hold a zero exactly if the text holds a null character.
* `Action.texts`: the texts that an action writes. `Action.declaredLength?`: the length in its head.
* `Action.Unwritable`: why an action cannot be written, but for code inside. **A count is never the
  cause**: each name that is counted takes a byte of the declared length, and that is tested before
  (`Instruction.failsOnly_write`, `Signature.failsOnly_write`).
-/

import ActionCode.Proofs.Merging.Faults

namespace ActionCode

/-! ### Texts as bytes -/

/-- The null character alone is encoded with a zero byte. -/
theorem zero_mem_utf8EncodeChar_iff (char : Char) :
    0 ∈ String.utf8EncodeChar char ↔ char = '\x00' := by
  have zero : ∀ value : Nat, (0 : UInt8) = UInt8.ofNat value ↔ value % 256 = 0 := by
    intro value
    rw [eq_comm, ← UInt8.toNat_inj, UInt8.toNat_ofNat']
    rfl
  have null : char = '\x00' ↔ char.val.toNat = 0 := by
    rw [Char.ext_iff, ← UInt32.toNat_inj]
    rfl
  rw [null, String.utf8EncodeChar]
  by_cases one : char.val.toNat ≤ 127
  · rw [if_pos one, List.mem_singleton, zero]
    omega
  · -- A lead byte has its two highest bits set, and every other byte the highest.
    rw [if_neg one]
    split_ifs <;> simp only [List.mem_cons, List.not_mem_nil, or_false, zero] <;> omega

/-- **The bytes of a text hold a zero exactly if the text holds a null character.** -/
theorem zero_mem_ofText_iff (text : String) :
    0 ∈ Bytes.ofText text ↔ '\x00' ∈ text.toList := by
  have bytes : Bytes.ofText text = text.toList.flatMap String.utf8EncodeChar := by
    rw [Bytes.ofText, ← String.utf8Encode_toList, List.utf8Encode]
    simp
  simp [bytes, zero_mem_utf8EncodeChar_iff]

/-! ### Fields -/

/-- Why a field cannot be written. -/
def Field.fault? : Field → Option WriteFault
  | .text value => if '\x00' ∈ value.toList then some (.interiorNul value) else none
  | .size field value => if field.fits value then none else some (.overflow field value)
  | _ => none

theorem SizeField.fits_iff_le {field : SizeField} (wide : field.bits = 16) {value : Nat} :
    field.fits value = true ↔ value ≤ 65535 := by
  rw [fits, wide, decide_eq_true_iff]
  exact Nat.lt_succ_iff

theorem Field.fault?_size_eq_none_iff {field : SizeField} (wide : field.bits = 16) {value : Nat} :
    (Field.size field value).fault? = none ↔ value ≤ 65535 := by
  rw [← SizeField.fits_iff_le wide]
  simp [fault?]

/-- A field cannot be written for a null character, or for a number that does not fit. -/
theorem Field.eq_of_fault? {field : Field} {fault : WriteFault} (found : field.fault? = some fault) :
    (∃ text, field = .text text ∧ '\x00' ∈ text.toList ∧ fault = .interiorNul text) ∨
      ∃ kind value, field = .size kind value ∧ ¬ kind.fits value = true ∧
        fault = .overflow kind value := by
  cases field with
  | text text =>
    rw [fault?, Option.ite_none_right_eq_some] at found
    exact .inl ⟨text, rfl, found.1, (Option.some.inj found.2).symm⟩
  | size kind value =>
    rw [fault?, Option.ite_none_left_eq_some] at found
    exact .inr ⟨kind, value, rfl, found.1, (Option.some.inj found.2).symm⟩
  | _ => cases found

theorem Field.image_ne_none_iff (field : Field) : field.image ≠ none ↔ field.fault? = none := by
  cases field with
  | text value => simp [image, fault?, zero_mem_ofText_iff]
  | size field value => simp [image, fault?]
  | _ => simp [image, fault?]

theorem Field.images_ne_none_iff {fields : List Field} :
    Field.images fields ≠ none ↔ ∀ field ∈ fields, field.fault? = none := by
  induction fields with
  | nil => simp
  | cons field rest ih =>
    rw [images_cons, joined_ne_none_iff, image_ne_none_iff, ih, List.forall_mem_cons]

namespace Writer

/-- A field fails for its fault. -/
theorem failsOnly_field (written : Field) :
    FailsOnly (field written) fun fault => written.fault? = some fault := by
  intro output fault output' failed
  by_cases writable : written.image ≠ none
  · have never : FailsOnly (field written) fun _ => False :=
      (field_images written).failsOnly writable
    exact (never output fault output' failed).elim
  · cases written with
    | text value =>
      change text value output = _ at failed
      unfold text at failed
      split at failed
      · rename_i zero
        cases failed
        rw [Field.fault?, if_pos ((zero_mem_ofText_iff value).mp (List.contains_iff_mem.mp zero))]
      · cases failed
    | size kind value =>
      change size kind value output = _ at failed
      unfold size at failed
      split at failed
      · cases failed
      · rename_i large
        cases failed
        rw [Field.fault?, if_neg large]
    | _ => exact absurd (Option.some_ne_none _) writable

/-- A layout fails for the fault of a field. -/
theorem failsOnly_fields (layout : List Field) :
    FailsOnly (fields layout) fun fault => ∃ field ∈ layout, field.fault? = some fault := by
  induction layout with
  | nil => exact Images.pure.failsOnly (Option.some_ne_none _)
  | cons first rest ih =>
    refine FailsOnly.bind ((failsOnly_field first).imp fun fault here => ?_)
      (ih.imp fun fault later => ?_)
    · exact ⟨first, List.mem_cons_self, here⟩
    · obtain ⟨field, inside, found⟩ := later
      exact ⟨field, List.mem_cons_of_mem _ inside, found⟩

end Writer

/-! ### Texts and lengths -/

/-- The text that a literal is, if it is one. -/
def PushValue.text? : PushValue → Option String
  | .text value => some value
  | _ => none

/-- The name of the variable that a caught value goes to. -/
def CatchTarget.name? : CatchTarget → Option String
  | .variable name => some name
  | .register _ => none

/-- The texts that an instruction writes. -/
def Instruction.texts : Instruction → List String
  | .getUrl url target => [url, target]
  | .constantPool constants => constants
  | .setTarget target => [target]
  | .goToLabel frameLabel => [frameLabel]
  | .block (.exception handlers) => handlers.target.name?.toList
  | .push value => value.text?.toList
  | .pushList values => values.filterMap PushValue.text?
  | _ => []

/-- The name of a definition. -/
def Signature.name : Signature → String
  | .simple name _ => name
  | .withRegisters name _ _ _ => name

/-- The names of the parameters of a definition. -/
def Signature.paramNames : Signature → List String
  | .simple _ params => params
  | .withRegisters _ _ _ params => params.map RegisterParam.name

/-- The texts that an action writes, but for those of code inside. -/
def Action.texts : Action → List String
  | .plain instruction => instruction.texts
  | .define signature _ => signature.name :: signature.paramNames
  | .marker _ => []

/-- The length that the head of an instruction declares, if a length follows its opcode. -/
def Instruction.declaredLength? (instruction : Instruction) : Option Nat :=
  if instruction.byte < bodyThreshold then none else some instruction.bodyLength

/-- The length that the head of an action declares. -/
def Action.declaredLength? : Action → Option Nat
  | .plain instruction => instruction.declaredLength?
  | .define signature _ => some signature.bodyLength
  | .marker _ => none

/-- Why an action cannot be written, but for code inside. -/
inductive Action.Unwritable (action : Action) : WriteFault → Prop
  | text {text : String} (inside : text ∈ action.texts) (null : '\x00' ∈ text.toList) :
      Unwritable action (.interiorNul text)
  | length {length : Nat} (declared : action.declaredLength? = some length)
      (long : 65535 < length) : Unwritable action (.overflow .bodyLength length)
  | codeSize {body : List Action} (isBody : action.body? = some body)
      (long : 65535 < encodedLength body) :
      Unwritable action (.overflow .codeSize (encodedLength body))

/-! ### Layouts -/

theorem PushValue.text_mem_fields_iff {text : String} {value : PushValue} :
    .text text ∈ value.fields ↔ value.text? = some text := by
  cases value <;> simp [fields, operand, text?, Field.double, eq_comm]

theorem PushValue.size_notMem_fields {field : SizeField} {size : Nat} {value : PushValue} :
    .size field size ∉ value.fields := by
  cases value <;> simp [fields, operand, Field.double]

/-- The texts in the layout of an instruction are those that it names. -/
theorem Instruction.text_mem_layout_iff {text : String} {instruction : Instruction} :
    .text text ∈ instruction.layout ↔ text ∈ instruction.texts := by
  cases instruction with
  | block block =>
    rcases block with size | ⟨_ | frame, skipCount⟩ | ⟨flags, trySize, catchSize, finallySize, target⟩
    · simp [layout, texts]
    · simp [layout, texts]
    · simp [layout, texts]
    · cases target <;> simp [layout, texts, CatchTarget.name?]
  | push value =>
    rw [layout, PushValue.text_mem_fields_iff, texts, Option.mem_toList]
  | pushList values =>
    simp only [layout, texts, List.mem_flatMap, List.mem_filterMap, PushValue.text_mem_fields_iff]
  | gotoFrame2 flags bias => cases bias <;> simp [layout, texts]
  | _ => simp [layout, texts]

theorem Signature.text_mem_layout_iff {text : String} {signature : Signature} :
    .text text ∈ signature.layout ↔ text ∈ signature.name :: signature.paramNames := by
  cases signature <;> simp [layout, name, paramNames, eq_comm]

/-- Items that each take a byte are no more than the bytes that they take. -/
theorem length_le_totalOf {α : Type} (width : α → Nat) (positive : ∀ item, 0 < width item)
    (items : List α) : items.length ≤ totalOf width items := by
  induction items with
  | nil => exact Nat.le_refl _
  | cons item rest ih =>
    have := positive item
    rw [List.length_cons, totalOf_cons]
    omega

/-- **A number in an instruction counts texts that the declared length covers.** -/
theorem Instruction.size_of_mem_layout {field : SizeField} {size : Nat} {instruction : Instruction}
    (inside : .size field size ∈ instruction.layout) :
    ∃ length, instruction.declaredLength? = some length ∧ size < length ∧ field.bits = 16 := by
  cases instruction with
  | constantPool constants =>
    simp only [layout, List.mem_cons, Field.size.injEq, List.mem_map, reduceCtorEq, and_false,
      exists_false, or_false] at inside
    obtain ⟨rfl, rfl⟩ := inside
    have names := length_le_totalOf (fun constant => constant.utf8ByteSize + 1)
      (fun constant => Nat.succ_pos _) constants
    refine ⟨_, if_neg (of_decide_eq_false rfl), ?_, rfl⟩
    rw [bodyLength]
    omega
  | push value => exact absurd inside PushValue.size_notMem_fields
  | pushList values =>
    obtain ⟨value, _, isField⟩ := List.mem_flatMap.mp inside
    exact absurd isField PushValue.size_notMem_fields
  | block block =>
    rcases block with size | ⟨_ | frame, skipCount⟩ | ⟨flags, trySize, catchSize, finallySize, target⟩
    · simp [layout] at inside
    · simp [layout] at inside
    · simp [layout] at inside
    · cases target <;> simp [layout] at inside
  | gotoFrame2 flags bias => cases bias <;> simp [layout] at inside
  | _ => simp [layout] at inside

/-- **A number in a declaration counts parameters that the declared length covers.** -/
theorem Signature.size_of_mem_layout {field : SizeField} {size : Nat} {signature : Signature}
    (inside : .size field size ∈ signature.layout) :
    size = signature.paramNames.length ∧ field.bits = 16 := by
  cases signature <;> simp [layout] at inside <;> simp [inside, paramNames, SizeField.bits]

/-- Each parameter takes a byte of the declared length. -/
theorem Signature.length_paramNames_lt (signature : Signature) :
    signature.paramNames.length < signature.bodyLength := by
  cases signature with
  | simple name params =>
    have names := length_le_totalOf (fun param => param.utf8ByteSize + 1)
      (fun param => Nat.succ_pos _) params
    rw [paramNames, bodyLength]
    omega
  | withRegisters name registerCount flags params =>
    have names := length_le_totalOf (fun param => 1 + param.name.utf8ByteSize + 1)
      (fun param => Nat.succ_pos _) params
    rw [paramNames, bodyLength, List.length_map]
    omega

/-! ### Records -/

/-- A head with too long a length is not begun. -/
theorem Writer.header_of_long (opcode : UInt8) {length : Nat} (long : 65535 < length)
    (output : Array UInt8) :
    header opcode length output = .error (.overflow .bodyLength length) output := by
  have large : ¬ SizeField.bodyLength.fits length = true := by
    rw [SizeField.fits_iff_le rfl]
    omega
  rw [header, if_neg large]
  rfl

theorem Writer.bind_of_error {first second : Writer Unit} {output output' : Array UInt8}
    {fault : WriteFault} (failed : first output = .error fault output') :
    (first >>= fun _ => second) output = .error fault output' := by
  change EStateM.bind first _ output = _
  rw [EStateM.bind, failed]

/-- A head and the fields behind it fail for the length in the head or for a text, if each number
among the fields is less than that length. -/
theorem Writer.failsOnly_headed {causes : WriteFault → Prop} (opcode : UInt8) {length : Nat}
    {layout : List Field} (long : 65535 < length → causes (.overflow .bodyLength length))
    (texts : ∀ text, .text text ∈ layout → '\x00' ∈ text.toList → causes (.interiorNul text))
    (counts : ∀ field size, .size field size ∈ layout → size < length ∧ field.bits = 16) :
    FailsOnly (header opcode length >>= fun _ => fields layout) causes := by
  by_cases fits : 65535 < length
  · -- The length is tested first, so that no field is written at all.
    intro output fault output' failed
    rw [bind_of_error (header_of_long opcode fits output)] at failed
    cases failed
    exact long fits
  · refine FailsOnly.bind ((failsOnly_header opcode length).imp fun fault cause =>
      absurd cause.1 fits) ((failsOnly_fields layout).imp fun fault cause => ?_)
    obtain ⟨field, inside, found⟩ := cause
    obtain ⟨text, rfl, null, rfl⟩ | ⟨kind, value, rfl, large, rfl⟩ := Field.eq_of_fault? found
    · exact texts text inside null
    · obtain ⟨less, wide⟩ := counts kind value inside
      rw [SizeField.fits_iff_le wide] at large
      omega

/-- **An instruction fails for a text or for its declared length.** -/
theorem Instruction.failsOnly_write (instruction : Instruction) :
    Writer.FailsOnly instruction.write (Action.plain instruction).Unwritable := by
  have texts : ∀ text, .text text ∈ instruction.layout → '\x00' ∈ text.toList →
      (Action.plain instruction).Unwritable (.interiorNul text) :=
    fun text inside null => .text (text_mem_layout_iff.mp inside) null
  unfold write
  by_cases short : instruction.byte < bodyThreshold
  · have undeclared : instruction.declaredLength? = none := if_pos short
    rw [if_pos short]
    refine ((Writer.Images.bytes _).failsOnly (Option.some_ne_none _)).bind
      ((Writer.failsOnly_fields _).imp fun fault cause => ?_)
    obtain ⟨field, inside, found⟩ := cause
    obtain ⟨text, rfl, null, rfl⟩ | ⟨kind, value, rfl, _, rfl⟩ := Field.eq_of_fault? found
    · exact texts text inside null
    · obtain ⟨length, declared, _⟩ := size_of_mem_layout inside
      rw [undeclared] at declared
      cases declared
  · have declared : instruction.declaredLength? = some instruction.bodyLength := if_neg short
    rw [if_neg short]
    refine Writer.failsOnly_headed _ (.length declared) texts fun field size inside => ?_
    obtain ⟨length, isDeclared, less⟩ := size_of_mem_layout inside
    rw [declared] at isDeclared
    cases isDeclared
    exact less

/-- **A declaration fails for a name or for its declared length.** -/
theorem Signature.failsOnly_write (signature : Signature) (body : List Action) :
    Writer.FailsOnly
      (Writer.header signature.opcode.byte signature.bodyLength >>= fun _ =>
        Writer.fields signature.layout)
      (Action.define signature body).Unwritable :=
  Writer.failsOnly_headed _ (.length rfl)
    (fun text inside null => .text (text_mem_layout_iff.mp inside) null)
    fun field size inside => by
      obtain ⟨rfl, wide⟩ := size_of_mem_layout inside
      exact ⟨signature.length_paramNames_lt, wide⟩

theorem fault_of_mem {fields : List Field} (written : Field.images fields ≠ none) {field : Field}
    (inside : field ∈ fields) : field.fault? = none :=
  Field.images_ne_none_iff.mp written field inside

/-- An instruction with an image can be written. -/
theorem Instruction.not_unwritable {instruction : Instruction} (written : instruction.image ≠ none)
    (fault : WriteFault) : ¬ (Action.plain instruction).Unwritable fault := by
  rintro (@⟨text, inside, null⟩ | @⟨length, declared, long⟩ | ⟨isBody, _⟩)
  · have found := fault_of_mem written (List.mem_append_right _ (text_mem_layout_iff.mpr inside))
    rw [Field.fault?, if_pos null] at found
    cases found
  · have inside : Field.size .bodyLength length ∈ instruction.head := by
      change instruction.declaredLength? = some length at declared
      unfold declaredLength? at declared
      unfold head
      split at declared
      · cases declared
      · rename_i notShort
        cases declared
        rw [if_neg notShort]
        exact List.mem_cons_of_mem _ List.mem_cons_self
    have found := fault_of_mem written (List.mem_append_left _ inside)
    exact absurd ((Field.fault?_size_eq_none_iff rfl).mp found) (Nat.not_le.mpr long)
  · cases isBody

/-- A definition whose image is one with the size of its code can be written, but for code inside. -/
theorem Signature.not_unwritable {signature : Signature} {body : List Action}
    (written : signature.image (encodedLength body) ≠ none) (fault : WriteFault) :
    ¬ (Action.define signature body).Unwritable fault := by
  rw [image_eq, joined_ne_none_iff, joined_ne_none_iff, Field.image_ne_none_iff] at written
  obtain ⟨head, names, size⟩ := written
  rintro (@⟨text, inside, null⟩ | @⟨length, declared, long⟩ | @⟨code, isBody, long⟩)
  · have found := fault_of_mem names (text_mem_layout_iff.mpr inside)
    rw [Field.fault?, if_pos null] at found
    cases found
  · cases declared
    have found := fault_of_mem head (List.mem_cons_of_mem _ List.mem_cons_self)
    exact absurd ((Field.fault?_size_eq_none_iff rfl).mp found) (Nat.not_le.mpr long)
  · cases isBody
    exact absurd ((Field.fault?_size_eq_none_iff rfl).mp size) (Nat.not_le.mpr long)

end ActionCode
