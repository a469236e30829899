/-
**Buffers that are cut off.**

* `Chunk.Part`: a part of a record that is read as a whole: the length of its body, the body or the
  code. `Chunk.CutIn`: a record is cut off in one of its parts.
* `nextStep_of_instruction`, `nextStep_of_definition`: a record is read in the same way whatever
  follows it.
* **`nextStep_of_cut_instruction`, `nextStep_of_cut_definition`**: a record that is cut off is a fault
  at the part that the cut goes through, which says how many bytes of this part are missing.
* **`Decodes.cutOff`**: what comes before the record is read as ever, so this is the first fault.
* **`disassemble_truncated`**: so it is for a buffer that is accepted and then cut off.
-/

import ActionCode.Proofs.Chunks.Grammar

namespace ActionCode

/-! ### Short blocks -/

theorem Reader.bytes_of_short {count : Nat} {rest : List UInt8} (short : rest.length < count)
    (base position : Nat) :
    Reader.bytes count ⟨base, position, rest⟩ =
      .error (.unexpectedEnd (base + position) (count - rest.length)) ⟨base, position, rest⟩ := by
  unfold Reader.bytes
  dsimp only
  rw [List.take_of_length_le (Nat.le_of_lt short), if_neg (Nat.ne_of_lt short)]
  rfl

/-- A reader that fails is the fault of what begins with it. -/
theorem Reader.bind_of_error {α β : Type} {reader : Reader α} {next : α → Reader β}
    {before after : Cursor} {fault : ReadFault} (failed : reader before = .error fault after) :
    (reader >>= next) before = .error fault after := by
  show EStateM.bind reader next before = _
  unfold EStateM.bind
  rw [failed]

theorem Reader.bind_of_ok {α β : Type} {reader : Reader α} {next : α → Reader β}
    {before after : Cursor} {value : α} (success : reader before = .ok value after) :
    (reader >>= next) before = next value after := by
  show EStateM.bind reader next before = _
  unfold EStateM.bind
  rw [success]

theorem Reader.word_of_short {rest : List UInt8} (short : rest.length < 2) (base position : Nat) :
    Reader.word ⟨base, position, rest⟩ =
      .error (.unexpectedEnd (base + position) (2 - rest.length)) ⟨base, position, rest⟩ :=
  Reader.bind_of_error (Reader.bytes_of_short short base position)

theorem Reader.splitOff_of_short {count : Nat} {rest : List UInt8} (short : rest.length < count)
    (base position : Nat) :
    Reader.splitOff count ⟨base, position, rest⟩ =
      .error (.unexpectedEnd (base + position) (count - rest.length)) ⟨base, position, rest⟩ := by
  show (Reader.bytes count >>= _) _ = _
  exact Reader.bind_of_error (Reader.bytes_of_short short base position)

theorem Reader.at_of_error {α : Type} {reader : Reader α} {before after : Cursor}
    {fault : ReadFault} (failed : reader before = .error fault after) :
    reader.at before = .error (.read fault) := by
  rw [Reader.at, failed]

/-! ### Steps that are cut off -/

section

variable {maxDepth depth base position : Nat} {opcode : UInt8} (long : bodyThreshold ≤ opcode)

include long

/-- The length of the body is cut off. -/
theorem nextStep_of_short_length {rest : List UInt8} (short : rest.length < 2) :
    nextStep maxDepth depth ⟨base, position, opcode :: rest⟩ =
      .error (.read (.unexpectedEnd (base + (position + 1)) (2 - rest.length))) := by
  have failed : readBlock ⟨base, position + 1, rest⟩ = _ :=
    Reader.bind_of_error (Reader.word_of_short short base (position + 1))
  rw [nextStep_of_long long, Reader.at_of_error failed]
  rfl

/-- The body is cut off. -/
theorem nextStep_of_short_body {length : UInt16} {front : List UInt8}
    (short : front.length < length.toNat) :
    nextStep maxDepth depth
        ⟨base, position, opcode :: (Bytes.toBytes 2 length.toNat ++ front)⟩ =
      .error (.read (.unexpectedEnd (base + (position + 3)) (length.toNat - front.length))) := by
  have word := Reader.word_takes length base (position + 1) front
  rw [Bytes.length_toBytes] at word
  have failed : readBlock ⟨base, position + 1, Bytes.toBytes 2 length.toNat ++ front⟩ =
      .error (.unexpectedEnd (base + (position + 3)) (length.toNat - front.length))
        ⟨base, position + 3, front⟩ := by
    unfold readBlock
    rw [Reader.bind_of_ok word]
    exact Reader.splitOff_of_short short base (position + 3)
  rw [nextStep_of_long long, Reader.at_of_error failed]
  rfl

end

/-! ### What a step says of other blocks -/

section

variable {maxDepth depth offset : Nat} {op : Opcode} {block after next : Cursor}

/-- The instruction of a body does not depend on what comes after the body. -/
theorem knownStep_of_instruction {instruction : Instruction}
    (success : knownStep maxDepth depth op offset block after = .ok (.instruction instruction next))
    (after' : Cursor) :
    knownStep maxDepth depth op offset block after' = .ok (.instruction instruction after') := by
  obtain ⟨_, stop, read, whole⟩ := body_of_knownStep success
  have found : (Body.read op).at block = .ok (.instruction instruction, stop) := by
    rw [Reader.at, read]
  simp only [knownStep, found, bind, Except.bind, whole]
  rfl

/-- The declaration of a definition asks for so many bytes after the body, whatever they are. -/
theorem knownStep_of_definition {signature : Signature} {code : Cursor} {leftover : Option ReadFault}
    (success : knownStep maxDepth depth op offset block after =
      .ok (.definition signature code next leftover)) :
    Cursor.Moved code.rest after next ∧ code = Cursor.start after.offset code.rest ∧
      ∀ after', knownStep maxDepth depth op offset block after' =
        ((Reader.splitOff code.rest.length).at after' >>= fun found =>
          .ok (.definition signature found.1 found.2 leftover)) := by
  obtain ⟨shallow, codeSize, stop, read, rfl, splits⟩ := definition_of_knownStep success
  obtain ⟨moved, isCode, full⟩ := Reader.moved_of_splitOff splits
  have found : (Body.read op).at block = .ok (.definition signature codeSize, stop) := by
    rw [Reader.at, read]
  refine ⟨moved, isCode, fun after' => ?_⟩
  rw [knownStep, found, full]
  show (if maxDepth < depth + 1 then _ else _) = _
  rw [if_neg (Nat.not_lt.mpr shallow)]
  rfl

end

/-- **An instruction is read from its record, whatever follows**, in any block with this offset. -/
theorem nextStep_of_instruction {maxDepth depth : Nat} {cursor next : Cursor}
    {instruction : Instruction}
    (success : nextStep maxDepth depth cursor = .ok (.instruction instruction next)) :
    ∃ used, Cursor.Moved used cursor next ∧
      (used.length = 1 ∨ ∃ opcode length body, LongRecord opcode length body used) ∧
      ∀ base position tail, base + position = cursor.offset →
        nextStep maxDepth depth ⟨base, position, used ++ tail⟩ =
          .ok (.instruction instruction ⟨base, position + used.length, tail⟩) := by
  obtain ⟨base, position, rest⟩ := cursor
  obtain ⟨opcode, after, moved, short, equal⟩ |
    ⟨opcode, length, block, after, moved, full, long, told⟩ := nextStep_cases success
  · cases equal
    exact ⟨[opcode], moved, .inl rfl, fun base position tail _ =>
      nextStep_of_short short maxDepth depth base position tail⟩
  · have record : LongRecord opcode length block.rest
        (opcode :: (Bytes.toBytes 2 length.toNat ++ block.rest)) := ⟨long, full.symm, rfl⟩
    have isNext : next = after := by
      obtain ⟨op, rfl, known⟩ | ⟨_, equal⟩ := told
      · exact (instruction_of_knownStep long known).1
      · cases equal
        rfl
    subst isNext
    refine ⟨_, moved, .inr ⟨opcode, length, block.rest, record⟩, fun base' position' tail same => ?_⟩
    obtain rfl : rest = _ := moved.rest
    have same : base' + position' = base + position := same
    have body : base' + (position' + 1 + 2) = base + (position + 1 + 2) := by omega
    rw [record.nextStep_eq] at success ⊢
    rw [same, body]
    cases known : Opcode.ofByte? opcode with
    | some op =>
      rw [known] at success
      exact knownStep_of_instruction success _
    | none =>
      rw [known] at success
      obtain ⟨rfl, -⟩ := Step.instruction.inj (Except.ok.inj success)
      rfl

/-- **A definition is read from its record, whatever follows**, in any block with this offset. If its
code is cut off, the rest of it is missing. -/
theorem nextStep_of_definition {maxDepth depth : Nat} {cursor code next : Cursor}
    {signature : Signature} {leftover : Option ReadFault}
    (success : nextStep maxDepth depth cursor = .ok (.definition signature code next leftover)) :
    ∃ opcode length body used, LongRecord opcode length body used ∧
      Cursor.Moved (used ++ code.rest) cursor next ∧
      (∀ base position tail, base + position = cursor.offset →
        nextStep maxDepth depth ⟨base, position, used ++ code.rest ++ tail⟩ =
          .ok (.definition signature code ⟨base, position + (used ++ code.rest).length, tail⟩
            leftover)) ∧
      ∀ front : List UInt8, front.length < code.rest.length →
        nextStep maxDepth depth ⟨cursor.base, cursor.position, used ++ front⟩ =
          .error (.read (.unexpectedEnd (cursor.base + (cursor.position + used.length))
            (code.rest.length - front.length))) := by
  obtain ⟨base, position, rest⟩ := cursor
  obtain ⟨opcode, after, moved, short, equal⟩ |
    ⟨opcode, length, block, after, moved, full, long, told⟩ := nextStep_cases success
  · cases equal
  · generalize isUsed : opcode :: (Bytes.toBytes 2 length.toNat ++ block.rest) = used at moved
    have record : LongRecord opcode length block.rest used := ⟨long, full.symm, isUsed.symm⟩
    obtain rfl : rest = used ++ after.rest := moved.rest
    rw [record.nextStep_eq] at success
    cases known : Opcode.ofByte? opcode with
    | none =>
      rw [known] at success
      cases success
    | some op =>
      rw [known] at success
      obtain ⟨moved', isCode, always⟩ := knownStep_of_definition success
      have isCode' : code = Cursor.start (base + (position + used.length)) code.rest := isCode
      have front : Cursor.Moved used ⟨base, position, used ++ after.rest⟩
          ⟨base, position + used.length, after.rest⟩ := ⟨rfl, rfl, rfl⟩
      refine ⟨opcode, length, block.rest, used, record, front.trans moved',
        fun base' position' tail same => ?_, fun front short => ?_⟩
      · have same : base' + position' = base + position := same
        have body : base' + (position' + 1 + 2) = base + (position + 1 + 2) := by omega
        have start : base' + (position' + used.length) = base + (position + used.length) := by omega
        have split := Reader.at_ok_iff.mpr
          (Reader.splitOff_takes base' (position' + used.length) code.rest tail)
        have stop : position' + (used ++ code.rest).length =
            position' + used.length + code.rest.length := by
          rw [List.length_append, Nat.add_assoc]
        rw [stop, List.append_assoc, record.nextStep_eq, known, same, body]
        dsimp only
        rw [always, split, start, ← isCode']
        rfl
      · have failed := Reader.at_of_error
          (Reader.splitOff_of_short short base (position + used.length))
        rw [record.nextStep_eq, known]
        dsimp only
        rw [always, failed]
        rfl

/-! ### Records that are cut off -/

/-- The bytes of the code in a record. -/
def Chunk.codeBytes : Chunk → List UInt8
  | .instruction _ _ => []
  | .definition _ _ code => bytesOf code

/-- A record has a body; its code comes after that. -/
def Chunk.HasBody (chunk : Chunk) (body : List UInt8) : Prop :=
  ∃ opcode length front, LongRecord opcode length body front ∧ chunk.bytes = front ++ chunk.codeBytes

/-- **The parts of a record that are read as a whole**, from one place in it to another: the length of
its body, the body, and its code. -/
inductive Chunk.Part (chunk : Chunk) : Nat → Nat → Prop where
  | length {body : List UInt8} (has : chunk.HasBody body) : Part chunk 1 3
  | body {body : List UInt8} (has : chunk.HasBody body) : Part chunk 3 (3 + body.length)
  | code {body : List UInt8} (has : chunk.HasBody body) :
      Part chunk (3 + body.length) chunk.bytes.length

/-- A record is cut off in one of its parts. -/
structure Chunk.CutIn (chunk : Chunk) (cut first stop : Nat) : Prop where
  part : chunk.Part first stop
  within : stop ≤ chunk.bytes.length
  before : first ≤ cut
  after : cut < stop

/-- A record that is cut off before its code ends within its length or its body. -/
theorem LongRecord.cutOff {opcode : UInt8} {length : UInt16} {body front : List UInt8}
    (record : LongRecord opcode length body front) {chunk : Chunk}
    (bytes : chunk.bytes = front ++ chunk.codeBytes) {cut : Nat} (positive : 0 < cut)
    (inside : cut < front.length) (maxDepth depth base position : Nat) :
    ∃ first stop, chunk.CutIn cut first stop ∧
      nextStep maxDepth depth ⟨base, position, chunk.bytes.take cut⟩ =
        .error (.read (.unexpectedEnd (base + position + first) (stop - cut))) := by
  have has : chunk.HasBody body := ⟨opcode, length, front, record, bytes⟩
  have width := record.length_used
  have whole : front.length ≤ chunk.bytes.length := by
    rw [bytes, List.length_append]
    exact Nat.le_add_right ..
  obtain ⟨count, rfl⟩ := Nat.exists_eq_add_of_lt positive
  rw [Nat.zero_add] at inside ⊢
  have taken : chunk.bytes.take (count + 1) =
      opcode :: (Bytes.toBytes 2 length.toNat ++ body).take count := by
    rw [bytes, List.take_append_of_le_length (Nat.le_of_lt inside), record.bytes, List.take_succ_cons]
  by_cases short : count < 2
  · refine ⟨1, 3, ⟨.length has, by omega, by omega, by omega⟩, ?_⟩
    have small : ((Bytes.toBytes 2 length.toNat ++ body).take count).length = count := by
      rw [List.length_take, List.length_append, Bytes.length_toBytes]
      omega
    have missing : 3 - (count + 1) = 2 - count := by omega
    rw [taken, missing, nextStep_of_short_length record.long (by rw [small]; exact short),
      small, Nat.add_assoc]
  · obtain ⟨more, rfl⟩ := Nat.exists_eq_add_of_le (Nat.not_lt.mp short)
    refine ⟨3, 3 + body.length, ⟨.body has, by omega, by omega, by omega⟩, ?_⟩
    have front : (Bytes.toBytes 2 length.toNat ++ body).take (2 + more) =
        Bytes.toBytes 2 length.toNat ++ body.take more := by
      have taken := @List.take_length_add_append _ (Bytes.toBytes 2 length.toNat) body more
      rw [Bytes.length_toBytes] at taken
      exact taken
    have small : (body.take more).length = more := by
      rw [List.length_take]
      omega
    have full := record.full
    have missing : 3 + body.length - (2 + more + 1) = length.toNat - more := by omega
    rw [taken, front, missing, nextStep_of_short_body record.long (by omega), small, Nat.add_assoc]

section

variable {maxDepth depth : Nat} {cursor next : Cursor} {cut : Nat} (positive : 0 < cut)

include positive

/-- **The record of an instruction is cut off.** -/
theorem nextStep_of_cut_instruction {instruction : Instruction}
    (success : nextStep maxDepth depth cursor = .ok (.instruction instruction next))
    (inside : cut < (Chunk.instruction instruction (cursor.upTo next)).bytes.length) :
    ∃ first stop, (Chunk.instruction instruction (cursor.upTo next)).CutIn cut first stop ∧
      nextStep maxDepth depth ⟨cursor.base, cursor.position,
          (Chunk.instruction instruction (cursor.upTo next)).bytes.take cut⟩ =
        .error (.read (.unexpectedEnd (cursor.offset + first) (stop - cut))) := by
  obtain ⟨used, moved, shape, _⟩ := nextStep_of_instruction success
  rw [moved.upTo] at inside ⊢
  obtain single | ⟨opcode, length, body, record⟩ := shape
  · rw [Chunk.bytes, single] at inside
    omega
  · exact record.cutOff (List.append_nil _).symm positive inside maxDepth depth cursor.base
      cursor.position

/-- **The record of a definition is cut off**, maybe in its code. -/
theorem nextStep_of_cut_definition {code : Cursor} {signature : Signature}
    {leftover : Option ReadFault} {records : List Chunk}
    (success : nextStep maxDepth depth cursor = .ok (.definition signature code next leftover))
    (bytes : bytesOf records = code.rest)
    (inside : cut < (Chunk.definition signature (cursor.upTo next) records).bytes.length) :
    ∃ first stop, (Chunk.definition signature (cursor.upTo next) records).CutIn cut first stop ∧
      nextStep maxDepth depth ⟨cursor.base, cursor.position,
          (Chunk.definition signature (cursor.upTo next) records).bytes.take cut⟩ =
        .error (.read (.unexpectedEnd (cursor.offset + first) (stop - cut))) := by
  obtain ⟨opcode, length, body, front, record, moved, _, missing⟩ := nextStep_of_definition success
  rw [moved.upTo] at inside ⊢
  have whole : (Chunk.definition signature (front ++ code.rest) records).bytes =
      front ++ (Chunk.definition signature (front ++ code.rest) records).codeBytes := by
    rw [Chunk.bytes, Chunk.codeBytes, bytes]
  by_cases short : cut < front.length
  · exact record.cutOff whole positive short maxDepth depth cursor.base cursor.position
  · -- The code is split off as a whole before anything in it is read.
    obtain ⟨more, rfl⟩ := Nat.exists_eq_add_of_le (Nat.not_lt.mp short)
    have width := record.length_used
    rw [Chunk.bytes, List.length_append] at inside
    have small : (code.rest.take more).length = more := by
      rw [List.length_take]
      omega
    refine ⟨3 + body.length, (front ++ code.rest).length,
      ⟨.code ⟨opcode, length, front, record, whole⟩, Nat.le_refl _, by omega, ?_⟩, ?_⟩
    · rw [List.length_append]
      omega
    · rw [Chunk.bytes, List.take_length_add_append, missing _ (by omega), small, ← width,
        List.length_append, Nat.add_sub_add_left, Cursor.offset, Nat.add_assoc]

/-- **A block is cut off in one of its records**: what comes before it is read as ever. -/
theorem Decodes.cutOff {progress after : Progress} {rows : List Located}
    (decodes : Decodes maxDepth depth cursor progress rows after)
    {early late : List Chunk} {chunk : Chunk}
    (records : chunksFrom maxDepth depth cursor = early ++ chunk :: late)
    (inside : cut < chunk.bytes.length) :
    ∃ first stop, chunk.CutIn cut first stop ∧ ∃ after', ∀ done,
      decodeFrom maxDepth depth done
          ⟨cursor.base, cursor.position, bytesOf early ++ chunk.bytes.take cut⟩ progress =
        .error (.read (.unexpectedEnd (cursor.offset + (bytesOf early).length + first)
          (stop - cut))) after' := by
  have nonempty (base position : Nat) (front : List UInt8) :
      ¬ (Cursor.mk base position (front ++ chunk.bytes.take cut)).isEmpty = true := by
    refine Cursor.nonempty_iff.mpr ?_
    rw [List.length_append, List.length_take]
    omega
  -- Rows that are ready say how much was left of the block, so the fault is stated after any.
  induction decodes generalizing early with
  | ended empty _ =>
    rw [chunksFrom_empty empty] at records
    cases early <;> cases records
  | @instruction _ cursor _ progress _ _ _ full found _ ih =>
    rw [chunksFrom_instruction full found] at records
    cases early with
    | nil =>
      obtain ⟨rfl, -⟩ := List.cons.inj records
      obtain ⟨first, stop, cutIn, fault⟩ := nextStep_of_cut_instruction positive found inside
      exact ⟨first, stop, cutIn, progress, fun done =>
        decodeFrom_fault (nonempty _ _ []) fault done progress⟩
    | cons head early =>
      obtain ⟨rfl, later⟩ := List.cons.inj records
      obtain ⟨first, stop, cutIn, after', fault⟩ := ih later
      obtain ⟨used, moved, _, always⟩ := nextStep_of_instruction found
      refine ⟨first, stop, cutIn, after', fun done => ?_⟩
      rw [bytesOf_cons, Chunk.bytes, moved.upTo, List.append_assoc,
        decodeFrom_instruction (by rw [← List.append_assoc]; exact nonempty _ _ _)
          (always _ _ _ rfl),
        ← moved.base, ← moved.position, fault, moved.offset, List.length_append,
        Nat.add_assoc cursor.offset]
  | @definition _ cursor code _ progress _ _ _ _ _ _ _ full found code' finishes _ _ ih =>
    rw [chunksFrom_definition full found] at records
    cases early with
    | nil =>
      obtain ⟨rfl, -⟩ := List.cons.inj records
      obtain ⟨first, stop, cutIn, fault⟩ :=
        nextStep_of_cut_definition positive found code'.read.bytes inside
      exact ⟨first, stop, cutIn, progress, fun done =>
        decodeFrom_fault (nonempty _ _ []) fault done progress⟩
    | cons head early =>
      obtain ⟨rfl, later⟩ := List.cons.inj records
      obtain ⟨first, stop, cutIn, after', fault⟩ := ih later
      obtain ⟨_, _, _, front, _, moved, always, _⟩ := nextStep_of_definition found
      generalize front ++ code.rest = used at moved always
      refine ⟨first, stop, cutIn, after', fun done => ?_⟩
      rw [bytesOf_cons, Chunk.bytes, moved.upTo, List.append_assoc,
        decodeFrom_definition (by rw [← List.append_assoc]; exact nonempty _ _ _)
          (always _ _ _ rfl) (decodeFrom_ok_iff.mpr code') finishes,
        ← moved.base, ← moved.position, fault, moved.offset, List.length_append,
        Nat.add_assoc cursor.offset]

end

/-- **Truncation is always detected.** A buffer that is accepted is its records, one after another.
If it is cut off inside one of them, then the part of this record that the cut goes through is
reported, with the number of its bytes that are missing; and nothing else. -/
theorem disassemble_truncated {settings : DisassemblySettings} {bytes : List UInt8}
    {actions : List Action} (success : (disassemble settings bytes).result = .ok actions)
    {early late : List Chunk} {chunk : Chunk}
    (records : chunks settings.maxDepth bytes = early ++ chunk :: late) {cut : Nat}
    (after : (bytesOf early).length < cut)
    (before : cut < (bytesOf early).length + chunk.bytes.length) :
    bytes = bytesOf early ++ (chunk.bytes ++ bytesOf late) ∧
    ∃ offset needed,
      (disassemble settings (bytes.take cut)).result = .error (.read (.unexpectedEnd offset needed)) ∧
      (bytesOf early).length ≤ offset ∧ offset ≤ cut ∧ 0 < needed ∧
      cut + needed ≤ (bytesOf early).length + chunk.bytes.length ∧
      chunk.Part (offset - (bytesOf early).length) (cut + needed - (bytesOf early).length) := by
  have whole : bytes = bytesOf early ++ (chunk.bytes ++ bytesOf late) := by
    rw [← (disassemble_ok success).1.whole, records, bytesOf, List.flatMap_append, List.flatMap_cons]
    rfl
  refine ⟨whole, ?_⟩
  obtain ⟨inside, rfl⟩ := Nat.exists_eq_add_of_le (Nat.le_of_lt after)
  have taken : bytes.take ((bytesOf early).length + inside) =
      bytesOf early ++ chunk.bytes.take inside := by
    rw [whole, List.take_length_add_append, List.take_append_of_le_length (by omega)]
  have positive : 0 < inside := by omega
  obtain ⟨_, _, block, _⟩ := disassemble_eq_ok_iff.mp success
  obtain ⟨rows, middle, decodes, _⟩ := disassembleBlock_ok_iff.mp block
  obtain ⟨first, stop, cutIn, last, fault⟩ := decodes.cutOff positive records (by omega)
  have failed : disassembleBlock settings.maxDepth 0
      (Cursor.start 0 (bytesOf early ++ chunk.bytes.take inside)) ⟨0, #[]⟩ =
      .error (.read (.unexpectedEnd ((bytesOf early).length + first) (stop - inside))) last := by
    have same := fault #[]
    rw [Cursor.offset, Cursor.start, Nat.zero_add, Nat.zero_add] at same
    rw [disassembleBlock, Cursor.start, same]
  have within := cutIn.within
  have front := cutIn.before
  have later := cutIn.after
  refine ⟨(bytesOf early).length + first, stop - inside, ?_, by omega, by omega, by omega, by omega,
    ?_⟩
  · rw [taken]
    exact disassemble_eq_error_iff.mpr ⟨last, failed⟩
  · rw [Nat.add_sub_cancel_left, Nat.add_assoc, Nat.add_sub_cancel_left,
      Nat.add_sub_cancel' (by omega)]
    exact cutIn.part

/-- An action, and a definition whose code holds two more. -/
def playAndDefine : List UInt8 := [6, 0x9b, 6, 0, 0x66, 0, 0, 0, 2, 0, 6, 7]

/-- A definition that is cut off in its code. -/
theorem disassemble_truncated_code :
    ∃ actions early late chunk, (disassemble .raw playAndDefine).result = .ok actions ∧
      chunks defaultMaxDepth playAndDefine = early ++ chunk :: late ∧
      (bytesOf early).length < 11 ∧ 11 < (bytesOf early).length + chunk.bytes.length ∧
      (disassemble .raw (playAndDefine.take 11)).result = .error (.read (.unexpectedEnd 10 1)) ∧
      ∃ offset needed,
        (disassemble .raw (playAndDefine.take 11)).result =
          .error (.read (.unexpectedEnd offset needed)) ∧
        (bytesOf early).length ≤ offset ∧ offset ≤ 11 ∧ 0 < needed ∧
        11 + needed ≤ (bytesOf early).length + chunk.bytes.length ∧
        chunk.Part (offset - (bytesOf early).length) (11 + needed - (bytesOf early).length) := by
  have success : (disassemble .raw playAndDefine).result = .ok
      [.plain (.basic .play),
        .define (.simple "f" []) [.plain (.basic .play), .plain (.basic .stop)]] := by
    decide +kernel
  have records : chunks defaultMaxDepth playAndDefine =
      [.instruction (.basic .play) [6]] ++
        .definition (.simple "f" []) [0x9b, 6, 0, 0x66, 0, 0, 0, 2, 0, 6, 7]
          [.instruction (.basic .play) [6], .instruction (.basic .stop) [7]] :: [] := by
    cbv
  exact ⟨_, _, _, _, success, records, by decide, by decide, by decide +kernel,
    (@disassemble_truncated .raw _ _ success _ _ _ records 11 (by decide) (by decide)).2⟩

end ActionCode
