/-
**Every size that is written says what follows it.**

* `Action.Framed`, `FramedAll`: bytes are those of an action or of a sequence, **and each length and
  each code size among them, at every level, is the number of the bytes that it announces**: a length
  reaches to the end of the declared body, and a code size covers the code behind it.
* **`framedAll_of_image`**, **`imageFrom_of_framed`**: a sequence is written as just its framed bytes.
-/

import ActionCode.Proofs.Derived.Trimming

namespace ActionCode

/-! ### Framed bytes -/

mutual

/-- The bytes of an action as a record of its own, whose sizes are those of what follows them. -/
inductive Action.Framed : Action → List UInt8 → Prop where
  /-- Below the threshold, no length follows the opcode. -/
  | short {instruction : Instruction} {body : List UInt8}
      (isShort : instruction.byte < bodyThreshold)
      (written : Field.images instruction.layout = some body) :
      Action.Framed (.plain instruction) (instruction.byte :: body)
  | long {instruction : Instruction} {low high : UInt8} {body : List UInt8}
      (isLong : bodyThreshold ≤ instruction.byte)
      (written : Field.images instruction.layout = some body)
      (length : Bytes.ofBytes [low, high] = body.length) :
      Action.Framed (.plain instruction) (instruction.byte :: low :: high :: body)
  /-- The declared body of a definition ends with the size of its code, and the code follows. -/
  | define {signature : Signature} {actions : List Action} {low high sizeLow sizeHigh : UInt8}
      {fields code : List UInt8}
      (written : Field.images signature.layout = some fields)
      (length : Bytes.ofBytes [low, high] = (fields ++ [sizeLow, sizeHigh]).length)
      (size : Bytes.ofBytes [sizeLow, sizeHigh] = code.length)
      (inside : FramedAll actions code) :
      Action.Framed (.define signature actions)
        (signature.opcode.byte :: low :: high :: (fields ++ [sizeLow, sizeHigh] ++ code))
  | marker (marker : Marker) : Action.Framed (.marker marker) []

/-- The bytes of a sequence, whose sizes are those of what follows them. Single pushes in a row share
one length. -/
inductive FramedAll : List Action → List UInt8 → Prop where
  | nil : FramedAll [] []
  | run {values : List PushValue} {rest : List Action} {low high : UInt8} {body later : List UInt8}
      (some : values ≠ []) (whole : ∀ action ∈ rest.head?, action.isPush = false)
      (written : Field.images (values.flatMap PushValue.fields) = .some body)
      (length : Bytes.ofBytes [low, high] = body.length)
      (after : FramedAll rest later) :
      FramedAll (values.map (fun value => .plain (.push value)) ++ rest)
        (Opcode.push.byte :: low :: high :: (body ++ later))
  | record {action : Action} {rest : List Action} {first later : List UInt8}
      (other : action.isPush = false) (framed : action.Framed first)
      (after : FramedAll rest later) : FramedAll (action :: rest) (first ++ later)

end

/-! ### Sizes -/

/-- A size that was written is two bytes that say it. -/
theorem exists_bytes_of_size {field : SizeField} (wide : field.bits = 16) {size : Nat}
    {image : List UInt8} (written : (Field.size field size).image = some image) :
    ∃ low high, image = [low, high] ∧ Bytes.ofBytes [low, high] = size := by
  obtain ⟨value, rfl, rfl⟩ := Field.word_of_size wide written
  refine ⟨_, _, rfl, ?_⟩
  change Bytes.ofBytes (Bytes.toBytes 2 value.toNat) = _
  rw [Bytes.ofBytes_toBytes]
  exact Nat.mod_eq_of_lt value.toNat_lt

/-- The head of a record that was written is the opcode and two bytes that say the length. -/
theorem exists_bytes_of_head {opcode : UInt8} {length : Nat} {image : List UInt8}
    (written : Field.images [.byte opcode, .size .bodyLength length] = some image) :
    ∃ low high, image = [opcode, low, high] ∧ Bytes.ofBytes [low, high] = length := by
  obtain ⟨front, back, isFront, isBack, rfl⟩ := joined_eq_some_iff.mp written
  cases isFront
  rw [Field.images_cons, Field.images_nil, joined_some_nil] at isBack
  obtain ⟨low, high, rfl, same⟩ := exists_bytes_of_size rfl isBack
  exact ⟨low, high, rfl, same⟩

/-- Two bytes that say a size are what it is written as. -/
theorem image_size_of_bytes {field : SizeField} (wide : field.bits = 16) {size : Nat}
    {low high : UInt8} (same : Bytes.ofBytes [low, high] = size) :
    (Field.size field size).image = some [low, high] := by
  have fits : field.fits size = true := by
    rw [SizeField.fits, wide, decide_eq_true_iff, ← same]
    exact Nat.lt_of_lt_of_eq (Bytes.ofBytes_lt [low, high]) (by decide : 256 ^ 2 = 2 ^ 16)
  rw [Field.image, if_pos fits, ← same]
  exact congrArg some (Bytes.toBytes_ofBytes [low, high])

theorem images_head_of_bytes {opcode : UInt8} {length : Nat} {low high : UInt8}
    (same : Bytes.ofBytes [low, high] = length) :
    Field.images [.byte opcode, .size .bodyLength length] = some [opcode, low, high] := by
  rw [Field.images_cons, Field.images_cons, Field.images_nil, joined_some_nil,
    image_size_of_bytes rfl same]
  rfl

/-! ### Instructions and declarations -/

theorem Instruction.framed_of_image {instruction : Instruction} {bytes : List UInt8}
    (written : instruction.image = some bytes) : (Action.plain instruction).Framed bytes := by
  rw [image, Field.images_append] at written
  obtain ⟨front, body, isHead, isBody, rfl⟩ := joined_eq_some_iff.mp written
  unfold head at isHead
  by_cases short : instruction.byte < bodyThreshold
  · rw [if_pos short] at isHead
    cases isHead
    exact .short short isBody
  · rw [if_neg short] at isHead
    obtain ⟨low, high, rfl, length⟩ := exists_bytes_of_head isHead
    exact .long (UInt8.not_lt.mp short) isBody
      (length.trans (instruction.totalWidth_layout.symm.trans (Field.length_of_images isBody).symm))

/-- A definition is framed if its code is. -/
theorem Signature.framed_of_image {signature : Signature} {actions : List Action}
    {front code : List UInt8} (written : signature.image code.length = some front)
    (inside : FramedAll actions code) : (Action.define signature actions).Framed (front ++ code) := by
  rw [Signature.image_eq] at written
  obtain ⟨head, body, isHead, isBody, rfl⟩ := joined_eq_some_iff.mp written
  obtain ⟨fields, size, isFields, isSize, rfl⟩ := joined_eq_some_iff.mp isBody
  obtain ⟨low, high, rfl, length⟩ := exists_bytes_of_head isHead
  obtain ⟨sizeLow, sizeHigh, rfl, covers⟩ := exists_bytes_of_size rfl isSize
  refine .define isFields ?_ covers inside
  rw [length, List.length_append, Field.length_of_images isFields, ← signature.totalWidth_layout]
  rfl

/-! ### Sequences -/

/-- A run is counted up to the action that ends it. -/
theorem pushRun_pushes {rest : List Action} (whole : ∀ action ∈ rest.head?, action.isPush = false)
    (count start : Nat) (values : List PushValue) :
    pushRun count start (values.map (fun value => .plain (.push value)) ++ rest) =
      (count + values.length, start + (values.map PushValue.width).sum) := by
  induction values generalizing count start with
  | nil =>
    rcases rest with _ | ⟨action, rest⟩
    · rfl
    · rw [List.map_nil, List.nil_append, pushRun_other (whole action rfl)]
      rfl
  | cons value values ih =>
    rw [List.map_cons, List.cons_append, pushRun, ih, List.map_cons, List.sum_cons, List.length_cons,
      Nat.add_assoc, Nat.add_assoc, Nat.add_comm 1]

/-- The bytes of a sequence behind the head of a run: the literals that the run goes on with, and a
framed rest. -/
inductive FramedRun : List Action → List UInt8 → Prop where
  | intro {values : List PushValue} {rest : List Action} {body later : List UInt8}
      (whole : ∀ action ∈ rest.head?, action.isPush = false)
      (written : Field.images (values.flatMap PushValue.fields) = some body)
      (after : FramedAll rest later) :
      FramedRun (values.map (fun value => .plain (.push value)) ++ rest) (body ++ later)

/-- A run ends before anything but a single push. -/
theorem FramedRun.stop {actions : List Action} {bytes : List UInt8}
    (whole : ∀ action ∈ actions.head?, action.isPush = false) (framed : FramedAll actions bytes) :
    FramedRun actions bytes := by
  have run : FramedRun (([] : List PushValue).map (fun value => .plain (.push value)) ++ actions)
      ([] ++ bytes) := .intro whole rfl framed
  exact run

/-- A single push goes on with a run. -/
theorem FramedRun.push {rest : List Action} {literal later : List UInt8} {value : PushValue}
    (isLiteral : Field.images value.fields = some literal) (framed : FramedRun rest later) :
    FramedRun (.plain (.push value) :: rest) (literal ++ later) := by
  cases framed with
  | @intro values rest body later whole written after =>
    have joint : Field.images ((value :: values).flatMap PushValue.fields) =
        some (literal ++ body) := by
      rw [List.flatMap_cons, Field.images_append, isLiteral, written]
      rfl
    have run := FramedRun.intro whole joint after
    rw [List.append_assoc] at run
    exact run

/-- A run with its head is framed. -/
theorem FramedRun.headed {rest : List Action} {head later : List UInt8} {value : PushValue}
    (isHead : runHead (pushRun 1 value.width rest).2 = some head)
    (framed : FramedRun (.plain (.push value) :: rest) later) :
    FramedAll (.plain (.push value) :: rest) (head ++ later) := by
  obtain ⟨low, high, rfl, length⟩ := exists_bytes_of_head isHead
  generalize isRun : Action.plain (.push value) :: rest = actions at framed
  cases framed with
  | @intro values others body later whole written after =>
    rcases values with _ | ⟨first, values⟩
    · rw [List.map_nil, List.nil_append] at isRun
      cases whole _ (by rw [← isRun]; rfl)
    · rw [List.map_cons, List.cons_append] at isRun
      obtain ⟨same, rfl⟩ := List.cons.inj isRun
      cases same
      have covers : Bytes.ofBytes [low, high] = body.length := by
        rw [length, pushRun_pushes whole, PushValue.length_of_imageAll written, List.map_cons,
          List.sum_cons]
      have run := FramedAll.run (List.cons_ne_nil value values) whole written covers after
      exact run

mutual

theorem Action.framed_of_image : ∀ {action : Action} {bytes : List UInt8},
    action.image = some bytes → action.Framed bytes
  | .plain instruction, bytes, written => by
    rw [Action.image] at written
    exact Instruction.framed_of_image written
  | .define signature actions, bytes, written => by
    rw [Action.image] at written
    obtain ⟨front, code, isFront, isCode, rfl⟩ := joined_eq_some_iff.mp written
    rw [length_of_sequence isCode] at isFront
    exact Signature.framed_of_image isFront (framedAll_of_image isCode)
  | .marker marker, bytes, written => by
    rw [Action.image] at written
    cases written
    exact .marker marker

/-- **What a sequence is written as is framed.** -/
theorem framedAll_of_image : ∀ {actions : List Action} {bytes : List UInt8},
    imageFrom false actions = some bytes → FramedAll actions bytes
  | [], bytes, written => by
    rw [imageFrom] at written
    cases written
    exact .nil
  | action :: rest, bytes, written => by
    obtain ⟨value, rfl⟩ | other := action.push_or_other
    · rw [imageFrom, if_neg Bool.false_ne_true] at written
      obtain ⟨head, tail, isHead, isTail, rfl⟩ := joined_eq_some_iff.mp written
      obtain ⟨literal, later, isLiteral, isLater, rfl⟩ := joined_eq_some_iff.mp isTail
      exact ((framedRun_of_image isLater).push isLiteral).headed isHead
    · rw [imageFrom_cons other] at written
      obtain ⟨first, later, isFirst, isLater, rfl⟩ := joined_eq_some_iff.mp written
      exact .record other (Action.framed_of_image isFirst) (framedAll_of_image isLater)

theorem framedRun_of_image : ∀ {actions : List Action} {bytes : List UInt8},
    imageFrom true actions = some bytes → FramedRun actions bytes
  | [], bytes, written => by
    rw [imageFrom] at written
    cases written
    exact .stop (fun _ none => by cases none) .nil
  | action :: rest, bytes, written => by
    obtain ⟨value, rfl⟩ | other := action.push_or_other
    · rw [imageFrom, if_pos rfl, joined_nil_some] at written
      obtain ⟨literal, later, isLiteral, isLater, rfl⟩ := joined_eq_some_iff.mp written
      exact (framedRun_of_image isLater).push isLiteral
    · rw [imageFrom_cons other] at written
      obtain ⟨first, later, isFirst, isLater, rfl⟩ := joined_eq_some_iff.mp written
      refine .stop (fun next isNext => ?_)
        (.record other (Action.framed_of_image isFirst) (framedAll_of_image isLater))
      cases isNext
      exact other

end

/-! ### Framed bytes are written -/

theorem imageFrom_of_whole {actions : List Action}
    (whole : ∀ action ∈ actions.head?, action.isPush = false) :
    imageFrom true actions = imageFrom false actions := by
  rcases actions with _ | ⟨action, rest⟩
  · rfl
  · rw [imageFrom_cons (whole action rfl), imageFrom_cons (whole action rfl)]

/-- The literals of a run are written one after another, and then what follows it. -/
theorem imageFrom_pushes {rest : List Action} {body later : List UInt8}
    (whole : ∀ action ∈ rest.head?, action.isPush = false) (values : List PushValue)
    (written : Field.images (values.flatMap PushValue.fields) = some body)
    (after : imageFrom false rest = some later) :
    imageFrom true (values.map (fun value => .plain (.push value)) ++ rest) =
      some (body ++ later) := by
  induction values generalizing body with
  | nil =>
    cases written
    rw [List.map_nil, List.nil_append, imageFrom_of_whole whole, after, List.nil_append]
  | cons value values ih =>
    rw [List.flatMap_cons, Field.images_append] at written
    obtain ⟨literal, others, isLiteral, isOthers, rfl⟩ := joined_eq_some_iff.mp written
    rw [List.map_cons, List.cons_append, imageFrom, if_pos rfl, joined_nil_some, isLiteral,
      ih isOthers, List.append_assoc]
    rfl

mutual

theorem Action.image_of_framed : ∀ {action : Action} {bytes : List UInt8},
    action.Framed bytes → action.image = some bytes
  | _, _, .short isShort written => by
    rw [Action.image, Instruction.image, Field.images_append, Instruction.head, if_pos isShort,
      written]
    rfl
  | _, _, .long isLong written length => by
    rw [Field.length_of_images written, Instruction.totalWidth_layout] at length
    rw [Action.image, Instruction.image, Field.images_append, Instruction.head,
      if_neg (UInt8.not_lt.mpr isLong), written]
    exact congrArg (fun head => joined head _) (images_head_of_bytes length)
  | _, _, .define written length size inside => by
    have code := imageFrom_of_framed inside
    rw [List.length_append, Field.length_of_images written] at length
    replace length := length.trans (Signature.totalWidth_layout _)
    rw [← length_of_sequence code] at size
    rw [Action.image, Signature.image_eq, written, code, image_size_of_bytes rfl size]
    exact congrArg (fun head => joined (joined head _) _) (images_head_of_bytes length)
  | _, _, .marker marker => by rw [Action.image]

/-- **Framed bytes are what a sequence is written as.** -/
theorem imageFrom_of_framed : ∀ {actions : List Action} {bytes : List UInt8},
    FramedAll actions bytes → imageFrom false actions = some bytes
  | _, _, .nil => by rw [imageFrom]
  | _, _, .run nonempty whole written length after => by
    have others := imageFrom_of_framed after
    obtain ⟨value, values, rfl⟩ := List.exists_cons_of_ne_nil nonempty
    have pushed := imageFrom_pushes whole (value :: values) written others
    rw [List.map_cons, List.cons_append, imageFrom, if_pos rfl, joined_nil_some] at pushed
    rw [PushValue.length_of_imageAll written, List.map_cons, List.sum_cons] at length
    rw [List.map_cons, List.cons_append, imageFrom, if_neg Bool.false_ne_true, pushed, runHead,
      pushRun_pushes whole]
    exact congrArg (fun head => joined head _) (images_head_of_bytes length)
  | _, _, .record other framed after => by
    rw [imageFrom_cons other, Action.image_of_framed framed, imageFrom_of_framed after]
    rfl

end

end ActionCode
