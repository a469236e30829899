/-
**Steps, written and read.**

* `Instruction.image`, `Signature.image`: the record of an instruction, and that of a definition up
  to its code.
* `LongRecord`: a record with a body, which tells the next step (`LongRecord.nextStep_eq`).
* **`nextStep_of_image`, `nextStep_of_declaration`**: what was written is the next step of a block,
  whatever follows.
* **`instruction_of_nextStep`, `declaration_of_nextStep`**: the bytes of a step have the length of
  the image of what they were read as, and are that image if the boolean operands in them are zero
  or one.
-/

import ActionCode.Proofs.Bytes.Bodies

namespace ActionCode

/-! ### Images of records -/

/-- The opcode of a record, and the length of its body if one follows. -/
def Instruction.head (instruction : Instruction) : List Field :=
  if instruction.byte < bodyThreshold then [.byte instruction.byte]
  else [.byte instruction.byte, .size .bodyLength instruction.bodyLength]

/-- The bytes of an instruction as a record of its own, if it can be written. -/
def Instruction.image (instruction : Instruction) : Option (List UInt8) :=
  Field.images (instruction.head ++ instruction.layout)

/-- The bytes of a definition up to its code, if they can be written. -/
def Signature.image (signature : Signature) (codeSize : Nat) : Option (List UInt8) :=
  Field.images (.byte signature.opcode.byte :: .size .bodyLength signature.bodyLength ::
    Body.declaration signature codeSize)

/-- **An instruction is written as its image.** -/
theorem Instruction.write_images (instruction : Instruction) :
    Writer.Images instruction.write instruction.image := by
  unfold Instruction.write Instruction.image Instruction.head
  rw [Field.images_append]
  by_cases short : instruction.byte < bodyThreshold
  · rw [if_pos short, if_pos short]
    exact (Writer.Images.bytes _).bind (Writer.fields_images _)
  · rw [if_neg short, if_neg short]
    exact (Writer.header_images _ _).bind (Writer.fields_images _)

theorem Instruction.length_of_image {instruction : Instruction} {bytes : List UInt8}
    (written : instruction.image = some bytes) : bytes.length = instruction.width := by
  rw [Field.length_of_images written, Field.totalWidth_append, totalWidth_layout, width_eq, head]
  split <;> rfl

theorem Signature.length_of_image {signature : Signature} {codeSize : Nat} {bytes : List UInt8}
    (written : signature.image codeSize = some bytes) :
    bytes.length = headWidth + signature.bodyLength := by
  rw [Field.length_of_images written, Field.totalWidth_cons, Field.totalWidth_cons,
    Body.width_declaration, ← Nat.add_assoc]
  rfl

/-! ### Readers at cursors -/

theorem Reader.at_ok_iff {α : Type} {reader : Reader α} {cursor next : Cursor} {value : α} :
    reader.at cursor = .ok (value, next) ↔ reader cursor = .ok value next := by
  constructor
  · exact Reader.eq_of_at
  · intro success
    rw [Reader.at, success]

/-- A declared length and the block after it. -/
theorem readBlock_takes {length : UInt16} {block : List UInt8} (full : block.length = length.toNat)
    (base position : Nat) (tail : List UInt8) :
    readBlock ⟨base, position, Bytes.toBytes 2 length.toNat ++ (block ++ tail)⟩ =
      .ok (Cursor.start (base + (position + 2)) block)
        ⟨base, position + 2 + block.length, tail⟩ := by
  refine bind_ok_iff.mpr ⟨length, _, Reader.word_takes length base position _, ?_⟩
  rw [← full, Bytes.length_toBytes]
  exact Reader.splitOff_takes base (position + 2) block tail

/-- What a declared length and its block were read from. -/
theorem moved_of_readBlock {before after block : Cursor}
    (success : readBlock before = .ok block after) :
    ∃ length : UInt16, length.toNat = block.rest.length ∧ block.position = 0 ∧
      Cursor.Moved (Bytes.toBytes 2 length.toNat ++ block.rest) before after := by
  obtain ⟨length, middle, found, split⟩ := bind_ok_iff.mp success
  obtain ⟨used, moved, spelled⟩ := Reader.word_spells found
  cases spelled
  obtain ⟨moved', same, full⟩ := Reader.moved_of_splitOff split
  exact ⟨length, full.symm, by rw [same]; rfl, moved.trans moved'⟩

/-! ### Instructions -/

theorem Body.read_of_plain {op : Opcode} (plain : Body.Plain op) :
    Body.read op = Body.readInstruction op >>= fun instruction =>
      pure (Body.instruction instruction) := by
  obtain ⟨_, notSimple, notRegisters⟩ := plain
  unfold Body.read
  split
  · exact absurd rfl notSimple
  · exact absurd rfl notRegisters
  · rfl

/-- No instruction has the opcode of a definition. -/
theorem Instruction.plain_of_opcode {instruction : Instruction} {op : Opcode}
    (readable : instruction.Readable) (known : instruction.opcode = .ok op)
    (long : bodyThreshold ≤ op.byte) : Body.Plain op := by
  refine ⟨long, ?_, ?_⟩
  all_goals
    rintro rfl
    cases instruction with
    | basic name =>
      cases known
      exact absurd long (UInt8.not_le.mpr readable.1)
    | counted name count => cases name <;> cases known
    | block opened => rcases opened with size | ⟨_ | frame, skipCount⟩ | handlers <;> cases known
    | branch jump =>
      obtain ⟨conditional, offset, label⟩ := jump
      cases conditional <;> cases known
    | _ => cases known

/-- An instruction of a single byte has no fields, and the byte stands for it. -/
theorem Instruction.ofByte_byte {instruction : Instruction} (readable : instruction.Readable)
    (short : instruction.byte < bodyThreshold) :
    Field.images instruction.layout = some [] ∧
      Instruction.ofByte instruction.byte = instruction.canon := by
  cases instruction with
  | basic op =>
    refine ⟨rfl, ?_⟩
    change Instruction.ofByte op.byte = _
    rw [ofByte, Opcode.ofByte?_byte]
    have single : CountedOp.ofOpcode? op = none := Option.isSome_eq_false_iff.mp readable.2 |>
      Option.isNone_iff_eq_none.mp
    have notCall : op ≠ .call := by
      rintro rfl
      exact absurd readable.1 (by decide)
    dsimp only
    rw [ofOpcode, single]
    dsimp only
    rw [if_neg notCall]
    rfl
  | counted op count =>
    refine ⟨rfl, ?_⟩
    change Instruction.ofByte op.opcode.byte = _
    rw [ofByte, Opcode.ofByte?_byte]
    dsimp only
    rw [ofOpcode, CountedOp.ofOpcode?_opcode]
    rfl
  | unknown value payload =>
    obtain ⟨unassigned, empty⟩ := readable
    have none : payload = [] := empty short
    subst none
    refine ⟨rfl, ?_⟩
    change Instruction.ofByte value = _
    rw [ofByte, unassigned]
    rfl
  | block opened =>
    rcases opened with size | ⟨_ | frame, skipCount⟩ | handlers <;> exact absurd short (of_decide_eq_false rfl)
  | branch jump =>
    obtain ⟨conditional, offset, label⟩ := jump
    cases conditional <;> exact absurd short (of_decide_eq_false rfl)
  | _ => exact absurd short (of_decide_eq_false rfl)

/-- A step whose opcode has no body is told by the opcode. -/
theorem nextStep_of_short {opcode : UInt8} (short : opcode < bodyThreshold)
    (maxDepth depth base position : Nat) (rest : List UInt8) :
    nextStep maxDepth depth ⟨base, position, opcode :: rest⟩ =
      .ok (.instruction (.ofByte opcode) ⟨base, position + 1, rest⟩) := by
  have first := Reader.at_ok_iff.mpr (Reader.byte_takes opcode base position rest)
  rw [List.cons_append, List.nil_append] at first
  rw [nextStep, first]
  simp only [bind, Except.bind]
  rw [if_pos short]
  rfl

/-- A step whose opcode has a body is told by the length and the block after it. -/
theorem nextStep_of_long {opcode : UInt8} (long : bodyThreshold ≤ opcode)
    (maxDepth depth base position : Nat) (rest : List UInt8) :
    nextStep maxDepth depth ⟨base, position, opcode :: rest⟩ =
      (readBlock.at ⟨base, position + 1, rest⟩ >>= fun found =>
        match Opcode.ofByte? opcode with
        | some op => knownStep maxDepth depth op (base + position) found.1 found.2
        | none => .ok (.instruction (.unknown opcode found.1.rest) found.2)) := by
  have first := Reader.at_ok_iff.mpr (Reader.byte_takes opcode base position rest)
  rw [List.cons_append, List.nil_append] at first
  unfold nextStep
  rw [first]
  simp only [bind, Except.bind]
  rw [if_neg (UInt8.not_lt.mpr long)]
  cases readBlock.at ⟨base, position + 1, rest⟩ with
  | error fault => rfl
  | ok found => cases Opcode.ofByte? opcode <;> rfl

/-- A record with a body: an opcode, the length of the body, and the body. -/
structure LongRecord (opcode : UInt8) (length : UInt16) (body used : List UInt8) : Prop where
  long : bodyThreshold ≤ opcode
  full : body.length = length.toNat
  bytes : used = opcode :: (Bytes.toBytes 2 length.toNat ++ body)

theorem LongRecord.length_used {opcode : UInt8} {length : UInt16} {body used : List UInt8}
    (record : LongRecord opcode length body used) : used.length = 3 + body.length := by
  rw [record.bytes, List.length_cons, List.length_append, Bytes.length_toBytes]
  omega

/-- What a step whose opcode has a body says, whatever comes after the body. -/
theorem LongRecord.nextStep_eq {opcode : UInt8} {length : UInt16} {body used : List UInt8}
    (record : LongRecord opcode length body used) (maxDepth depth base position : Nat)
    (tail : List UInt8) :
    nextStep maxDepth depth ⟨base, position, used ++ tail⟩ =
      match Opcode.ofByte? opcode with
      | some op => knownStep maxDepth depth op (base + position)
          (Cursor.start (base + (position + 1 + 2)) body) ⟨base, position + used.length, tail⟩
      | none => .ok (.instruction (.unknown opcode body) ⟨base, position + used.length, tail⟩) := by
  have stop : position + used.length = position + 1 + 2 + body.length := by
    rw [record.length_used]
    omega
  rw [stop, record.bytes, List.cons_append, List.append_assoc, nextStep_of_long record.long,
    Reader.at_ok_iff.mpr (readBlock_takes record.full base (position + 1) tail)]
  rfl

/-- What is written as a record with a body: its opcode, the length of its fields, and they. -/
theorem LongRecord.of_images {opcode : UInt8} (long : bodyThreshold ≤ opcode) {fields : List Field}
    {declared : Nat} (isWidth : Field.totalWidth fields = declared) {image : List UInt8}
    (written : Field.images (.byte opcode :: .size .bodyLength declared :: fields) = some image) :
    ∃ length body, LongRecord opcode length body image ∧ Field.images fields = some body := by
  rw [Field.images_cons] at written
  obtain ⟨front, rest, isOpcode, isRest, rfl⟩ := joined_eq_some_iff.mp written
  obtain ⟨size, body, isSize, isBody, rfl⟩ := joined_eq_some_iff.mp isRest
  cases isOpcode
  obtain ⟨length, same, rfl⟩ := Field.word_of_size rfl isSize
  have full : body.length = length.toNat := by
    rw [same, Field.length_of_images isBody, isWidth]
  exact ⟨length, body, ⟨long, full, rfl⟩, isBody⟩

theorem Instruction.byte_of_opcode {instruction : Instruction} {op : Opcode}
    (known : instruction.opcode = .ok op) : instruction.byte = op.byte := by
  rw [byte, known]

/-- The body of an instruction that was written is the next step of a block, whatever follows. -/
theorem LongRecord.nextStep_of_layout {instruction : Instruction} (readable : instruction.Readable)
    {length : UInt16} {body used : List UInt8}
    (record : LongRecord instruction.byte length body used)
    (written : Field.images instruction.layout = some body) (maxDepth depth base position : Nat)
    (tail : List UInt8) :
    nextStep maxDepth depth ⟨base, position, used ++ tail⟩ =
      .ok (.instruction instruction.canon ⟨base, position + used.length, tail⟩) := by
  rw [record.nextStep_eq]
  cases known : instruction.opcode with
  | ok op =>
    have isByte := Instruction.byte_of_opcode known
    have long := record.long
    rw [isByte] at long
    have plain := Instruction.plain_of_opcode readable known long
    have found : (Body.read op).at (Cursor.start (base + (position + 1 + 2)) body) =
        .ok (.instruction instruction.canon, ⟨base + (position + 1 + 2), 0 + body.length, []⟩) := by
      rw [Body.read_of_plain plain]
      refine Reader.at_ok_iff.mpr (bind_ok_iff.mpr ⟨_, _, ?_, rfl⟩)
      exact Body.readInstruction_image known long readable written _ 0
    rw [isByte, Opcode.ofByte?_byte]
    dsimp only
    rw [knownStep, found]
    rfl
  | error value =>
    cases instruction with
    | unknown value payload =>
      cases known
      rw [Instruction.layout, Field.images_cons, Field.images_nil, joined_some_nil] at written
      cases written
      change (match Opcode.ofByte? value with
        | some op => _
        | none => _) = _
      rw [readable.1]
      rfl
    | _ => cases known

/-- **An instruction that was written is the next step of a block, whatever follows.** -/
theorem nextStep_of_image {instruction : Instruction} {image : List UInt8}
    (readable : instruction.Readable) (written : instruction.image = some image)
    (maxDepth depth base position : Nat) (tail : List UInt8) :
    nextStep maxDepth depth ⟨base, position, image ++ tail⟩ =
      .ok (.instruction instruction.canon ⟨base, position + image.length, tail⟩) := by
  rw [Instruction.image, Instruction.head] at written
  by_cases short : instruction.byte < bodyThreshold
  · obtain ⟨noFields, same⟩ := Instruction.ofByte_byte readable short
    rw [if_pos short, Field.images_append, noFields, Field.images_cons, Field.images_nil,
      joined_some_nil, joined_some_nil] at written
    cases written
    rw [List.cons_append, List.nil_append, nextStep_of_short short, same]
    rfl
  · rw [if_neg short] at written
    obtain ⟨length, body, record, isBody⟩ :=
      LongRecord.of_images (UInt8.not_lt.mp short) instruction.totalWidth_layout written
    exact record.nextStep_of_layout readable isBody maxDepth depth base position tail

/-- **A definition that was written is the next step of a block**, and its code is split off. -/
theorem nextStep_of_declaration {signature : Signature} {code front : List UInt8}
    (written : signature.image code.length = some front) {maxDepth depth : Nat}
    (shallow : depth + 1 ≤ maxDepth) (base position : Nat) (tail : List UInt8) :
    nextStep maxDepth depth ⟨base, position, front ++ (code ++ tail)⟩ =
      .ok (.definition signature (Cursor.start (base + (position + front.length)) code)
        ⟨base, position + front.length + code.length, tail⟩ none) := by
  have long : bodyThreshold ≤ signature.opcode.byte := by
    cases signature <;> exact of_decide_eq_true rfl
  obtain ⟨length, body, record, isBody⟩ :=
    LongRecord.of_images long (Body.width_declaration signature code.length) written
  have found : (Body.read signature.opcode).at (Cursor.start (base + (position + 1 + 2)) body) =
      .ok (.definition signature code.length,
        ⟨base + (position + 1 + 2), 0 + body.length, []⟩) :=
    Reader.at_ok_iff.mpr ((Body.read_declaration isBody).all _ 0)
  have split := Reader.at_ok_iff.mpr
    (Reader.splitOff_takes base (position + front.length) code tail)
  rw [record.nextStep_eq, Opcode.ofByte?_byte]
  dsimp only
  rw [knownStep, found]
  simp only [bind, Except.bind]
  rw [if_neg (Nat.not_lt.mpr shallow)]
  dsimp only [pure, Except.pure]
  rw [split]
  rfl

/-! ### What a step was read from -/

/-- What the bytes of a step say about its instruction. -/
structure Instruction.SpelledBy (instruction : Instruction) (used : List UInt8) : Prop where
  readable : instruction.Readable
  canon : instruction.canon = instruction
  image : ∃ image, instruction.image = some image ∧ image.length = used.length ∧
    ((∀ values, instruction = .pushList values →
      ∀ byte ∈ booleanOperands (used.drop 3), byte = 0 ∨ byte = 1) → image = used)

/-- The record of an instruction with a body: its head and the body. -/
theorem Instruction.image_of_body {instruction : Instruction} {opcode : UInt8} {body : List UInt8}
    {length : UInt16} (isByte : instruction.byte = opcode) (long : bodyThreshold ≤ opcode)
    (written : Field.images instruction.layout = some body) (full : length.toNat = body.length) :
    instruction.image = some (opcode :: (Bytes.toBytes 2 length.toNat ++ body)) := by
  have size : (Field.size .bodyLength instruction.bodyLength).image =
      some (Bytes.toBytes 2 length.toNat) := by
    rw [← totalWidth_layout, ← Field.length_of_images written, ← full, Field.image_size rfl]
    rfl
  rw [image, Field.images_append, head, isByte, if_neg (UInt8.not_lt.mpr long), Field.images_cons,
    Field.images_cons, Field.images_nil, joined_some_nil, size, written]
  rfl

/-- The instruction of a single byte is written as that byte. -/
theorem Instruction.spelledBy_of_short {opcode : UInt8} (short : opcode < bodyThreshold) :
    (Instruction.ofByte opcode).SpelledBy [opcode] := by
  have image : ∀ instruction : Instruction, instruction.byte = opcode →
      Field.images instruction.layout = some [] → instruction.image = some [opcode] := by
    intro instruction isByte empty
    rw [Instruction.image, Field.images_append, head, isByte, if_pos short, Field.images_cons,
      Field.images_nil, joined_some_nil, empty, joined_some_nil]
    rfl
  unfold ofByte
  split
  · rename_i op found
    have isByte := Opcode.byte_of_ofByte? found
    unfold ofOpcode
    split
    · rename_i counted known
      have isOpcode := CountedOp.opcode_of_ofOpcode? known
      refine ⟨trivial, rfl, [opcode], image _ ?_ rfl, rfl, fun _ => rfl⟩
      rw [← isByte, ← isOpcode]
      rfl
    · rename_i notCounted
      by_cases isCall : op = .call
      · subst isCall
        rw [← isByte] at short
        exact absurd short (by decide)
      · rw [if_neg isCall]
        refine ⟨⟨?_, ?_⟩, rfl, [opcode], image _ isByte rfl, rfl, fun _ => rfl⟩
        · rwa [isByte]
        · rw [Opcode.isCounted, notCounted]
          rfl
  · rename_i unassigned
    exact ⟨⟨unassigned, fun _ => rfl⟩, rfl, [opcode], image _ rfl rfl, rfl, fun _ => rfl⟩

/-- What a body that is no declaration was read as. -/
theorem Body.instruction_of_read {op : Opcode} {before after : Cursor} {instruction : Instruction}
    (success : Body.read op before = .ok (.instruction instruction) after) :
    op ≠ .defineFunction ∧ op ≠ .defineFunction2 ∧
      Body.readInstruction op before = .ok instruction after := by
  unfold Body.read at success
  split at success
  · obtain ⟨_, _, _, success⟩ := bind_ok_iff.mp success
    obtain ⟨_, _, _, success⟩ := bind_ok_iff.mp success
    obtain ⟨_, _, _, success⟩ := bind_ok_iff.mp success
    obtain ⟨_, _, _, result⟩ := bind_ok_iff.mp success
    cases (Reader.pure_ok_iff.mp result).1
  · obtain ⟨_, _, _, success⟩ := bind_ok_iff.mp success
    obtain ⟨_, _, _, success⟩ := bind_ok_iff.mp success
    obtain ⟨_, _, _, success⟩ := bind_ok_iff.mp success
    obtain ⟨_, _, _, success⟩ := bind_ok_iff.mp success
    obtain ⟨_, _, _, success⟩ := bind_ok_iff.mp success
    obtain ⟨_, _, _, result⟩ := bind_ok_iff.mp success
    cases (Reader.pure_ok_iff.mp result).1
  · rename_i notSimple notRegisters
    obtain ⟨found, middle, read, result⟩ := bind_ok_iff.mp success
    obtain ⟨equal, rfl⟩ := Reader.pure_ok_iff.mp result
    cases equal
    exact ⟨notSimple, notRegisters, read⟩

/-- A body without a fault has been read to its end. -/
theorem rest_of_leftover {opcode : UInt8} {offset declared : Nat} {stop : Cursor}
    (whole : leftover? opcode offset declared stop = none) : stop.rest = [] := by
  unfold leftover? at whole
  split at whole
  · rename_i empty
    exact List.isEmpty_iff.mp empty
  · cases whole

/-- What a step of a known opcode that is an instruction has read. -/
theorem body_of_knownStep {maxDepth depth offset : Nat} {op : Opcode}
    {block after next : Cursor} {instruction : Instruction}
    (success : knownStep maxDepth depth op offset block after = .ok (.instruction instruction next)) :
    next = after ∧ ∃ stop, Body.read op block = .ok (.instruction instruction) stop ∧
      leftover? op.byte offset block.remaining stop = none := by
  unfold knownStep at success
  simp only [bind, Except.bind, pure, Except.pure, throw, throwThe, MonadExceptOf.throw] at success
  split at success
  · cases success
  · rename_i found
    split at success
    · rename_i isBody
      split at success
      · cases success
      · rename_i whole
        cases success
        have read := Reader.eq_of_at found
        rw [isBody] at read
        exact ⟨rfl, _, read, whole⟩
    · split at success
      · cases success
      · split at success <;> cases success

/-- What a step of a known opcode tells about the body of an instruction. -/
theorem instruction_of_knownStep {maxDepth depth offset : Nat} {op : Opcode}
    {block after next : Cursor} {instruction : Instruction} (long : bodyThreshold ≤ op.byte)
    (success : knownStep maxDepth depth op offset block after = .ok (.instruction instruction next)) :
    next = after ∧ Body.Plain op ∧
      ∃ stop, Body.readInstruction op block = .ok instruction stop ∧ stop.rest = [] := by
  obtain ⟨rfl, stop, read, whole⟩ := body_of_knownStep success
  obtain ⟨notSimple, notRegisters, read⟩ := Body.instruction_of_read read
  exact ⟨rfl, ⟨long, notSimple, notRegisters⟩, stop, read, rest_of_leftover whole⟩

/-- What a step of a known opcode that is a definition has read, and the code it splits off. -/
theorem definition_of_knownStep {maxDepth depth offset : Nat} {op : Opcode}
    {block after code next : Cursor} {signature : Signature} {leftover : Option ReadFault}
    (success : knownStep maxDepth depth op offset block after =
      .ok (.definition signature code next leftover)) :
    depth + 1 ≤ maxDepth ∧ ∃ codeSize stop,
      Body.read op block = .ok (.definition signature codeSize) stop ∧
      leftover = leftover? op.byte offset block.remaining stop ∧
      Reader.splitOff codeSize after = .ok code next := by
  unfold knownStep at success
  simp only [bind, Except.bind, pure, Except.pure, throw, throwThe, MonadExceptOf.throw] at success
  split at success
  · cases success
  · rename_i found
    split at success
    · split at success <;> cases success
    · rename_i isBody
      split at success
      · cases success
      · rename_i shallow
        split at success
        · cases success
        · rename_i splitOff
          obtain ⟨rfl, rfl, rfl, whole⟩ := Step.definition.inj (Except.ok.inj success)
          have read := Reader.eq_of_at found
          rw [isBody] at read
          exact ⟨Nat.not_lt.mp shallow, _, _, read, whole.symm, Reader.eq_of_at splitOff⟩

/-- What a step of a known opcode tells about the declaration of a definition. -/
theorem declaration_of_knownStep {maxDepth depth offset : Nat} {op : Opcode}
    {block after code next : Cursor} {signature : Signature}
    (success : knownStep maxDepth depth op offset block after =
      .ok (.definition signature code next none)) :
    depth + 1 ≤ maxDepth ∧ op = signature.opcode ∧
      Field.images (Body.declaration signature code.rest.length) = some block.rest ∧
      Cursor.Moved code.rest after next ∧ code = Cursor.start after.offset code.rest := by
  obtain ⟨shallow, codeSize, stop, read, whole, splits⟩ := definition_of_knownStep success
  obtain ⟨rfl, used, moved, spelled⟩ := Body.declaration_of_read read
  obtain ⟨moved', isCode, full⟩ := Reader.moved_of_splitOff splits
  have isUsed : block.rest = used := by
    rw [moved.rest, rest_of_leftover whole.symm, List.append_nil]
  rw [full, isUsed]
  exact ⟨shallow, rfl, spelled, moved', isCode⟩

/-- A step is told by a single byte, or by an opcode and the block of the declared length. -/
theorem nextStep_cases {maxDepth depth : Nat} {cursor : Cursor} {step : Step}
    (success : nextStep maxDepth depth cursor = .ok step) :
    (∃ opcode next, Cursor.Moved [opcode] cursor next ∧ opcode < bodyThreshold ∧
      step = .instruction (.ofByte opcode) next) ∨
    ∃ (opcode : UInt8) (length : UInt16) (block next : Cursor),
      Cursor.Moved (opcode :: (Bytes.toBytes 2 length.toNat ++ block.rest)) cursor next ∧
      length.toNat = block.rest.length ∧ bodyThreshold ≤ opcode ∧
      ((∃ op : Opcode, op.byte = opcode ∧
          knownStep maxDepth depth op cursor.offset block next = .ok step) ∨
        Opcode.ofByte? opcode = none ∧ step = .instruction (.unknown opcode block.rest) next) := by
  unfold nextStep at success
  simp only [bind, Except.bind, pure, Except.pure] at success
  split at success
  · cases success
  · rename_i first
    obtain ⟨used, moved, spelled⟩ := Reader.byte_spells (Reader.eq_of_at first)
    cases spelled
    split at success
    · rename_i short
      cases success
      exact .inl ⟨_, _, moved, short, rfl⟩
    · rename_i notShort
      have long := UInt8.not_lt.mp notShort
      split at success
      · cases success
      · rename_i second
        obtain ⟨length, full, _, moved'⟩ := moved_of_readBlock (Reader.eq_of_at second)
        refine .inr ⟨_, length, _, _, moved.trans moved', full, long, ?_⟩
        split at success
        · rename_i op found
          exact .inl ⟨op, Opcode.byte_of_ofByte? found, success⟩
        · rename_i unassigned
          cases success
          exact .inr ⟨unassigned, rfl⟩

/-- **The bytes of an instruction say all about it** but which boolean operand they hold. -/
theorem instruction_of_nextStep {maxDepth depth : Nat} {cursor next : Cursor}
    {instruction : Instruction}
    (success : nextStep maxDepth depth cursor = .ok (.instruction instruction next)) :
    ∃ used, Cursor.Moved used cursor next ∧ instruction.SpelledBy used := by
  obtain ⟨opcode, after, moved, short, equal⟩ |
    ⟨opcode, length, block, after, moved, full, long, known | ⟨unassigned, equal⟩⟩ :=
      nextStep_cases success
  · cases equal
    exact ⟨_, moved, Instruction.spelledBy_of_short short⟩
  · obtain ⟨op, rfl, known⟩ := known
    obtain ⟨rfl, plain, stop, read, ended⟩ := instruction_of_knownStep long known
    obtain ⟨as, _, image, written, same, tidy⟩ := Body.readInstruction_spelled plain read ended
    have whole := Instruction.image_of_body (Instruction.byte_of_opcode as.opcode) long written
      (full.trans same.symm)
    refine ⟨_, moved, as.readable, as.canon, _, whole, ?_, ?_⟩
    · rw [List.length_cons, List.length_cons, List.length_append, List.length_append, same]
    · intro small
      rw [tidy]
      intro isPush
      subst isPush
      obtain ⟨values, _, _, result⟩ := bind_ok_iff.mp read
      exact small values (Reader.pure_ok_iff.mp result).1.symm
  · cases equal
    have payload : Field.images (Instruction.unknown opcode block.rest).layout =
        some block.rest := by
      rw [Instruction.layout, Field.images_cons, Field.images_nil, joined_some_nil]
      rfl
    have readable : (Instruction.unknown opcode block.rest).Readable :=
      ⟨unassigned, fun short => absurd short (UInt8.not_lt.mpr long)⟩
    exact ⟨_, moved, readable, rfl, _, Instruction.image_of_body rfl long payload full, rfl,
      fun _ => rfl⟩

/-- The code of a definition is a block of its own, behind the bytes that declare it. -/
theorem code_of_nextStep {maxDepth depth : Nat} {cursor code next : Cursor} {signature : Signature}
    {leftover : Option ReadFault}
    (success : nextStep maxDepth depth cursor = .ok (.definition signature code next leftover)) :
    ∃ front, front ≠ [] ∧ Cursor.Moved (front ++ code.rest) cursor next ∧
      code = Cursor.start (cursor.offset + front.length) code.rest := by
  obtain ⟨_, _, _, _, equal⟩ |
    ⟨opcode, length, block, after, moved, _, _, ⟨op, rfl, known⟩ | ⟨_, equal⟩⟩ :=
      nextStep_cases success
  · cases equal
  · obtain ⟨_, codeSize, stop, _, _, splits⟩ := definition_of_knownStep known
    obtain ⟨moved', isCode, _⟩ := Reader.moved_of_splitOff splits
    exact ⟨_, List.cons_ne_nil _ _, moved.trans moved', moved.offset ▸ isCode⟩
  · cases equal

/-- **The bytes of a declaration are its image.** -/
theorem declaration_of_nextStep {maxDepth depth : Nat} {cursor code next : Cursor}
    {signature : Signature}
    (success : nextStep maxDepth depth cursor = .ok (.definition signature code next none)) :
    depth + 1 ≤ maxDepth ∧ ∃ front, signature.image code.rest.length = some front ∧
      Cursor.Moved (front ++ code.rest) cursor next ∧
      code = Cursor.start (cursor.offset + front.length) code.rest := by
  obtain ⟨opcode, after, moved, short, equal⟩ |
    ⟨opcode, length, block, after, moved, full, long, known | ⟨unassigned, equal⟩⟩ :=
      nextStep_cases success
  · cases equal
  · obtain ⟨op, rfl, known⟩ := known
    obtain ⟨shallow, rfl, written, moved', isCode⟩ := declaration_of_knownStep known
    have size : (Field.size .bodyLength signature.bodyLength).image =
        some (Bytes.toBytes 2 length.toNat) := by
      rw [← Body.width_declaration signature, ← Field.length_of_images written, ← full,
        Field.image_size rfl]
      rfl
    refine ⟨shallow, _, ?_, moved.trans moved', ?_⟩
    · rw [Signature.image, Field.images_cons, Field.images_cons, size, written]
      rfl
    · rw [← moved.offset]
      exact isCode
  · cases equal

end ActionCode
