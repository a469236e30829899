/-
**Bodies, written and read.**

* `Instruction.canon`: an instruction as it is read back. Counts and labels are not written, a single
  push comes back as a list, and two bits follow from the other fields.
* **`Body.readInstruction_image`**: the body of an instruction that was written is read back.
* **`Body.readInstruction_spelled`**: a body that can be read has the length of the image of its
  instruction, and is that image if its boolean operands are zero or one.
* `Body.read_declaration`, `Body.declaration_of_read`: the same for the declaration of a definition.
-/

import ActionCode.Decoding
import ActionCode.Encoding
import ActionCode.Proofs.Bytes.Literals

namespace ActionCode

/-! ### Sizes are words -/

theorem Field.image_size {field : SizeField} (wide : field.bits = 16) (value : UInt16) :
    (Field.size field value.toNat).image = (Field.word value).image := by
  have fits : field.fits value.toNat = true := by
    rw [SizeField.fits, wide, decide_eq_true_iff]
    exact value.toNat_lt
  rw [image, image, if_pos fits]

/-- A size that was written is that of a word. -/
theorem Field.word_of_size {field : SizeField} (wide : field.bits = 16) {size : Nat}
    {image : List UInt8} (written : (Field.size field size).image = some image) :
    ∃ value : UInt16, value.toNat = size ∧ image = Bytes.toBytes 2 value.toNat := by
  rw [Field.image] at written
  split at written
  · rename_i fits
    cases written
    rw [SizeField.fits, wide, decide_eq_true_iff] at fits
    have same : (UInt16.ofNat size).toNat = size := by
      rw [UInt16.toNat_ofNat']
      exact Nat.mod_eq_of_lt fits
    exact ⟨UInt16.ofNat size, same, by rw [same]⟩
  · cases written

/-! ### Instructions as they are read back -/

/-- An instruction as it is read back. -/
def Instruction.canon : Instruction → Instruction
  | .counted op _ => .counted op none
  | .push value => .pushList [value]
  | .branch jump => .branch { jump with label := none }
  | .block (.exception handlers) => .block (.exception { handlers with flags := handlers.writtenFlags })
  | .gotoFrame2 flags (some bias) => .gotoFrame2 (flags ||| biasBit) (some bias)
  | .gotoFrame2 flags none => .gotoFrame2 (flags &&& ~~~biasBit) none
  | instruction => instruction

/-! ### Flags -/

/-- Whether a caught value goes to a register. -/
def CatchTarget.isRegister : CatchTarget → Bool
  | .register _ => true
  | .variable _ => false

/-- The field that names where a caught value goes. -/
def CatchTarget.field : CatchTarget → Field
  | .variable name => .text name
  | .register index => .byte index.index

theorem TryBlock.isRegister_of_writtenFlags (block : TryBlock) :
    TryFlags.containsAll block.writtenFlags TryFlag.caughtInRegister.mask =
      block.target.isRegister := by
  have set : ∀ flags : UInt8, TryFlags.containsAll (flags ||| 4) 4 = true := by
    intro flags
    rw [TryFlags.containsAll, beq_iff_eq]
    apply UInt8.toBitVec_inj.mp
    rw [UInt8.toBitVec_and, UInt8.toBitVec_or]
    ext index bound
    simp only [BitVec.getElem_and, BitVec.getElem_or]
    cases flags.toBitVec[index] <;> simp
  have cleared : ∀ flags : UInt8, TryFlags.containsAll (flags &&& ~~~4) 4 = false := by
    intro flags
    rw [TryFlags.containsAll, UInt8.and_assoc]
    have none : (~~~4 : UInt8) &&& 4 = 0 := by decide
    rw [none, UInt8.and_zero]
    rfl
  obtain ⟨flags, trySize, catchSize, finallySize, name | index⟩ := block
  · exact cleared flags
  · exact set flags

/-- Written flags are written as they are. -/
theorem TryBlock.writtenFlags_of_read {flags : UInt8} {target : CatchTarget}
    (follows : TryFlags.containsAll flags TryFlag.caughtInRegister.mask = target.isRegister)
    (trySize catchSize finallySize : UInt16) :
    (TryBlock.mk flags trySize catchSize finallySize target).writtenFlags = flags := by
  have both : ∀ bits : BitVec 8, bits &&& 4 = 4 → bits ||| 4 = bits := by decide
  have neither : ∀ bits : BitVec 8, bits &&& 4 ≠ 4 → bits &&& ~~~4 = bits := by decide
  rcases target with name | index
  · apply UInt8.toBitVec_inj.mp
    refine neither flags.toBitVec fun equal => ?_
    have contains : TryFlags.containsAll flags TryFlag.caughtInRegister.mask = true :=
      beq_iff_eq.mpr (UInt8.toBitVec_inj.mp equal)
    rw [contains] at follows
    cases follows
  · apply UInt8.toBitVec_inj.mp
    refine both flags.toBitVec ?_
    exact congrArg UInt8.toBitVec (beq_iff_eq.mp follows)

theorem Instruction.biasBit_set (flags : UInt8) : (flags ||| biasBit) &&& biasBit ≠ 0 := by
  have set : ∀ bits : BitVec 8, (bits ||| 2) &&& 2 ≠ 0 := by decide
  exact fun equal => set flags.toBitVec (congrArg UInt8.toBitVec equal)

theorem Instruction.biasBit_cleared (flags : UInt8) : (flags &&& ~~~biasBit) &&& biasBit = 0 := by
  have cleared : ∀ bits : BitVec 8, (bits &&& ~~~2) &&& 2 = 0 := by decide
  exact UInt8.toBitVec_inj.mp (cleared flags.toBitVec)

theorem Instruction.or_biasBit {flags : UInt8} (set : flags &&& biasBit ≠ 0) :
    flags ||| biasBit = flags := by
  have same : ∀ bits : BitVec 8, bits &&& 2 ≠ 0 → bits ||| 2 = bits := by decide
  exact UInt8.toBitVec_inj.mp (same flags.toBitVec fun equal => set (UInt8.toBitVec_inj.mp equal))

theorem Instruction.and_biasBit {flags : UInt8} (cleared : flags &&& biasBit = 0) :
    flags &&& ~~~biasBit = flags := by
  have same : ∀ bits : BitVec 8, bits &&& 2 = 0 → bits &&& ~~~2 = bits := by decide
  exact UInt8.toBitVec_inj.mp (same flags.toBitVec (congrArg UInt8.toBitVec cleared))

/-! ### Reading what was written -/

/-- What an image is taken off for, if nothing follows. -/
theorem Reader.Takes.all {α : Type} {reader : Reader α} {image : List UInt8} {value : α}
    (takes : reader.Takes image value) (base position : Nat) :
    reader ⟨base, position, image⟩ = .ok value ⟨base, position + image.length, []⟩ := by
  have whole := takes base position []
  rwa [List.append_nil] at whole

/-- An instruction that can be read back: a single byte that stands for nothing else, or a body. -/
def Instruction.Readable : Instruction → Prop
  | .basic op => op.byte < bodyThreshold ∧ op.isCounted = false
  | .unknown value payload =>
    Opcode.ofByte? value = none ∧ (value < bodyThreshold → payload = [])
  | _ => True

namespace Body

theorem readCatchTarget_takes {flags : UInt8} {target : CatchTarget} {image : List UInt8}
    (follows : TryFlags.containsAll flags TryFlag.caughtInRegister.mask = target.isRegister)
    (written : Field.images [target.field] = some image) :
    (readCatchTarget flags).Takes image target := by
  unfold readCatchTarget
  rw [Field.images_cons, Field.images_nil, joined_some_nil] at written
  rw [follows]
  rcases target with name | index
  · rw [CatchTarget.isRegister, if_neg Bool.false_ne_true]
    exact (Reader.text_takes written).map CatchTarget.variable
  · rw [CatchTarget.isRegister, if_pos rfl]
    cases written
    exact (Reader.byte_takes index.index).map fun byte => CatchTarget.register ⟨byte⟩

theorem readTry_takes {block : TryBlock} {image : List UInt8}
    (written : Field.images (Instruction.block (.exception block)).layout = some image) :
    readTry.Takes image { block with flags := block.writtenFlags } := by
  obtain ⟨flags, afterFlags, first, sizes, rfl⟩ := joined_eq_some_iff.mp written
  obtain ⟨trySize, afterTry, second, handlers, rfl⟩ := joined_eq_some_iff.mp sizes
  obtain ⟨catchSize, afterCatch, third, cleanup, rfl⟩ := joined_eq_some_iff.mp handlers
  obtain ⟨finallySize, afterFinally, fourth, last, rfl⟩ := joined_eq_some_iff.mp cleanup
  cases first
  cases second
  cases third
  cases fourth
  have target := readCatchTarget_takes block.isRegister_of_writtenFlags last
  unfold readTry
  refine (Reader.byte_takes _).bind ?_
  refine (Reader.word_takes _).bind ?_
  refine (Reader.word_takes _).bind ?_
  refine (Reader.word_takes _).bind ?_
  exact target.map fun target =>
    TryBlock.mk block.writtenFlags block.trySize block.catchSize block.finallySize target

theorem readGotoFrame2_takes {flags : UInt8} {bias : Option UInt16} {image : List UInt8}
    (written : Field.images (Instruction.gotoFrame2 flags bias).layout = some image) :
    readGotoFrame2.Takes image (Instruction.gotoFrame2 flags bias).canon := by
  unfold readGotoFrame2
  cases bias with
  | none =>
    cases written
    refine Reader.Takes.bind (Reader.byte_takes _) ?_
    have cleared : ((flags &&& ~~~Instruction.biasBit) &&& Instruction.biasBit != 0) = false := by
      rw [Instruction.biasBit_cleared]
      rfl
    rw [cleared, if_neg Bool.false_ne_true]
    exact .pure _
  | some bias =>
    cases written
    refine Reader.Takes.bind (Reader.byte_takes _) ?_
    have set : ((flags ||| Instruction.biasBit) &&& Instruction.biasBit != 0) = true :=
      bne_iff_ne.mpr (Instruction.biasBit_set flags)
    rw [set, if_pos rfl]
    exact (Reader.word_takes bias).map fun word =>
      Instruction.gotoFrame2 (flags ||| Instruction.biasBit) (some word)

/-- A list of texts after its length, and what comes next. -/
theorem counted_texts_take {β : Type} (field : SizeField) (wide : field.bits = 16)
    {texts : List String} {image back : List UInt8} {result : β} (next : List String → Reader β)
    (written : Field.images (.size field texts.length :: texts.map .text) = some image)
    (rest : (next texts).Takes back result) :
    Reader.Takes (Reader.word >>= fun count => Reader.text.times count.toNat >>= next)
      (image ++ back) result := by
  obtain ⟨front, middle, first, second, rfl⟩ := joined_eq_some_iff.mp written
  obtain ⟨count, same, rfl⟩ := Field.word_of_size wide first
  rw [List.append_assoc]
  refine (Reader.word_takes count).bind ?_
  rw [same]
  rw [List.map_eq_flatMap] at second
  refine Reader.Takes.bind (Reader.times_takes (fun value image written => ?_) texts second) rest
  rw [Field.images_cons, Field.images_nil, joined_some_nil] at written
  exact Reader.text_takes written

/-- The body of an instruction other than a push, as it is taken off the front. -/
theorem readInstruction_takes {instruction : Instruction} {op : Opcode} {image : List UInt8}
    (known : instruction.opcode = .ok op) (long : bodyThreshold ≤ op.byte)
    (readable : instruction.Readable) (other : op ≠ .push)
    (written : Field.images instruction.layout = some image) :
    (readInstruction op).Takes image instruction.canon := by
  cases instruction with
  | basic name =>
    cases known
    exact absurd long (UInt8.not_le.mpr readable.1)
  | counted name count =>
    cases known
    cases name <;> exact absurd long (by decide)
  | gotoFrame frame =>
    cases known
    cases written
    exact (Reader.word_takes frame).map Instruction.gotoFrame
  | getUrl url target =>
    cases known
    obtain ⟨front, back, first, rest, rfl⟩ := joined_eq_some_iff.mp written
    rw [Field.images_cons, Field.images_nil, joined_some_nil] at rest
    exact (Reader.text_takes first).bind ((Reader.text_takes rest).map (Instruction.getUrl url))
  | storeRegister register =>
    cases known
    cases written
    exact (Reader.byte_takes register.index).map fun byte => Instruction.storeRegister ⟨byte⟩
  | constantPool constants =>
    cases known
    have takes := counted_texts_take .constantCount rfl
      (fun texts => pure (Instruction.constantPool texts)) written (.pure _)
    rw [List.append_nil] at takes
    exact takes
  | setTarget target =>
    cases known
    rw [Instruction.layout, Field.images_cons, Field.images_nil, joined_some_nil] at written
    exact (Reader.text_takes written).map Instruction.setTarget
  | goToLabel frameLabel =>
    cases known
    rw [Instruction.layout, Field.images_cons, Field.images_nil, joined_some_nil] at written
    exact (Reader.text_takes written).map Instruction.goToLabel
  | block opened =>
    rcases opened with size | ⟨_ | frame, skipCount⟩ | handlers
    · cases known
      cases written
      exact (Reader.word_takes size).map fun word => Instruction.block (.scope word)
    · cases known
      cases written
      exact (Reader.byte_takes skipCount).map fun byte => Instruction.block (.wait none byte)
    · cases known
      cases written
      refine Reader.Takes.bind (Reader.word_takes frame) ?_
      exact (Reader.byte_takes skipCount).map fun byte => Instruction.block (.wait (some frame) byte)
    · cases known
      exact (readTry_takes written).map fun handlers => Instruction.block (.exception handlers)
  | push value =>
    cases known
    exact absurd rfl other
  | pushList values =>
    cases known
    exact absurd rfl other
  | branch jump =>
    obtain ⟨conditional, offset, label⟩ := jump
    cases written
    have word := Reader.word_takes offset.toUInt16
    cases conditional with
    | false =>
      cases known
      exact word.map fun word => Instruction.branch ⟨false, word.toInt16, none⟩
    | true =>
      cases known
      exact word.map fun word => Instruction.branch ⟨true, word.toInt16, none⟩
  | getUrl2 flags =>
    cases known
    cases written
    exact (Reader.byte_takes flags).map Instruction.getUrl2
  | call =>
    cases known
    cases written
    exact .pure _
  | gotoFrame2 flags bias =>
    cases known
    exact readGotoFrame2_takes written
  | unknown value payload => cases known

/-- **The body of an instruction that was written is read back.** -/
theorem readInstruction_image {instruction : Instruction} {op : Opcode} {image : List UInt8}
    (known : instruction.opcode = .ok op) (long : bodyThreshold ≤ op.byte)
    (readable : instruction.Readable) (written : Field.images instruction.layout = some image)
    (base position : Nat) :
    readInstruction op ⟨base, position, image⟩ =
      .ok instruction.canon ⟨base, position + image.length, []⟩ := by
  by_cases pushes : op = .push
  · subst pushes
    have reads : ∀ values : List PushValue,
        Field.images (values.flatMap PushValue.fields) = some image →
          readInstruction .push ⟨base, position, image⟩ =
            .ok (.pushList values) ⟨base, position + image.length, []⟩ := by
      intro values written
      refine bind_ok_iff.mpr ⟨values, _, PushValue.readAll_image written base position, ?_⟩
      rfl
    cases instruction with
    | push value =>
      refine reads [value] ?_
      rwa [List.flatMap_singleton]
    | pushList values => exact reads values written
    | basic name =>
      cases known
      exact absurd long (UInt8.not_le.mpr readable.1)
    | counted name count => cases name <;> cases known
    | block opened => rcases opened with size | ⟨_ | frame, skipCount⟩ | handlers <;> cases known
    | branch jump =>
      obtain ⟨conditional, offset, label⟩ := jump
      cases conditional <;> cases known
    | gotoFrame _ | getUrl _ _ | storeRegister _ | constantPool _ | setTarget _ | goToLabel _
    | getUrl2 _ | call | gotoFrame2 _ _ | unknown _ _ => cases known
  · exact (readInstruction_takes known long readable pushes written).all base position

/-! ### What a body was read from -/

/-- An instruction of an opcode that is what is read back. -/
structure ReadAs (op : Opcode) (instruction : Instruction) : Prop where
  readable : instruction.Readable
  canon : instruction.canon = instruction
  opcode : instruction.opcode = .ok op

theorem readCatchTarget_spells {flags : UInt8} {before after : Cursor} {target : CatchTarget}
    (success : readCatchTarget flags before = .ok target after) :
    TryFlags.containsAll flags TryFlag.caughtInRegister.mask = target.isRegister ∧
      ∃ used, Cursor.Moved used before after ∧ Field.images [target.field] = some used := by
  unfold readCatchTarget at success
  split at success
  · rename_i register
    obtain ⟨byte, found, rfl⟩ := Reader.bind_pure_ok_iff.mp success
    exact ⟨register, Reader.byte_spells found⟩
  · rename_i other
    obtain ⟨name, found, rfl⟩ := Reader.bind_pure_ok_iff.mp success
    exact ⟨Bool.eq_false_iff.mpr other, Reader.text_spells found⟩

theorem readTry_spells {before after : Cursor} {block : TryBlock}
    (success : readTry before = .ok block after) :
    block.writtenFlags = block.flags ∧ ∃ used, Cursor.Moved used before after ∧
      Field.images (Instruction.block (.exception block)).layout = some used := by
  obtain ⟨flags, afterFlags, found, success⟩ := bind_ok_iff.mp success
  obtain ⟨trySize, afterTry, found', success⟩ := bind_ok_iff.mp success
  obtain ⟨catchSize, afterCatch, found'', success⟩ := bind_ok_iff.mp success
  obtain ⟨finallySize, afterFinally, foundFinally, success⟩ := bind_ok_iff.mp success
  obtain ⟨target, foundTarget, rfl⟩ := Reader.bind_pure_ok_iff.mp success
  obtain ⟨first, moved, spelled⟩ := Reader.byte_spells found
  obtain ⟨second, moved', spelled'⟩ := Reader.word_spells found'
  obtain ⟨third, moved'', spelled''⟩ := Reader.word_spells found''
  obtain ⟨fourth, movedFinally, spelledFinally⟩ := Reader.word_spells foundFinally
  obtain ⟨follows, fifth, movedTarget, spelledTarget⟩ := readCatchTarget_spells foundTarget
  have same := TryBlock.writtenFlags_of_read follows trySize catchSize finallySize
  refine ⟨same, first ++ (second ++ (third ++ (fourth ++ fifth))), ?_, ?_⟩
  · exact moved.trans (moved'.trans (moved''.trans (movedFinally.trans movedTarget)))
  · have layout : (Instruction.block (.exception
        ⟨flags, trySize, catchSize, finallySize, target⟩)).layout =
          [.byte flags] ++ ([.word trySize] ++ ([.word catchSize] ++ ([.word finallySize] ++
            [target.field]))) := by
      rw [Instruction.layout, same]
      rfl
    rw [layout, Field.images_append, Field.images_append, Field.images_append,
      Field.images_append, spelled, spelled', spelled'', spelledFinally, spelledTarget]
    rfl

theorem readGotoFrame2_spells {before after : Cursor} {instruction : Instruction}
    (success : readGotoFrame2 before = .ok instruction after) :
    ReadAs .gotoFrame2 instruction ∧ ∃ used, Cursor.Moved used before after ∧
      Field.images instruction.layout = some used := by
  obtain ⟨flags, middle, found, success⟩ := bind_ok_iff.mp success
  obtain ⟨first, moved, spelled⟩ := Reader.byte_spells found
  split at success
  · rename_i set
    obtain ⟨bias, found', rfl⟩ := Reader.bind_pure_ok_iff.mp success
    obtain ⟨second, moved', spelled'⟩ := Reader.word_spells found'
    have same := Instruction.or_biasBit (bne_iff_ne.mp set)
    refine ⟨⟨trivial, ?_, rfl⟩, first ++ second, moved.trans moved', ?_⟩
    · rw [Instruction.canon, same]
    · have layout : (Instruction.gotoFrame2 flags (some bias)).layout =
          [.byte flags] ++ [.word bias] := by
        rw [Instruction.layout, same]
        rfl
      rw [layout, Field.images_append, spelled, spelled']
      rfl
  · rename_i cleared
    obtain ⟨rfl, rfl⟩ := Reader.pure_ok_iff.mp success
    have zero : flags &&& Instruction.biasBit = 0 := by
      rwa [bne_iff_ne, not_not] at cleared
    have same := Instruction.and_biasBit zero
    refine ⟨⟨trivial, ?_, rfl⟩, first, moved, ?_⟩
    · rw [Instruction.canon, same]
    · rw [Instruction.layout, same, spelled]

/-- A list of texts and the word before it. -/
theorem counted_texts_spelled (field : SizeField) (wide : field.bits = 16) {count : UInt16}
    {texts : List String} {before middle after : Cursor}
    (counted : Reader.word before = .ok count middle)
    (success : Reader.text.times count.toNat middle = .ok texts after) :
    ∃ used, Cursor.Moved used before after ∧
      Field.images (.size field texts.length :: texts.map .text) = some used := by
  obtain ⟨first, moved, spelled⟩ := Reader.word_spells counted
  obtain ⟨full, second, moved', spelled'⟩ := Reader.times_spells Reader.text_spells success
  refine ⟨first ++ second, moved.trans moved', ?_⟩
  rw [Field.images_cons, Field.images_nil, joined_some_nil] at spelled
  rw [Field.images_cons, full, Field.image_size wide, spelled, List.map_eq_flatMap, spelled']
  rfl

/-- An opcode with a body that holds no code. -/
structure Plain (op : Opcode) : Prop where
  long : bodyThreshold ≤ op.byte
  notSimple : op ≠ .defineFunction
  notRegisters : op ≠ .defineFunction2

/-- The body of an instruction other than a push is the image of the instruction. -/
theorem readInstruction_spells {op : Opcode} (plain : Plain op) (other : op ≠ .push)
    {before after : Cursor} {instruction : Instruction}
    (success : readInstruction op before = .ok instruction after) :
    ReadAs op instruction ∧ ∃ used, Cursor.Moved used before after ∧
      Field.images instruction.layout = some used := by
  unfold readInstruction at success
  split at success
  · obtain ⟨frame, found, rfl⟩ := Reader.bind_pure_ok_iff.mp success
    exact ⟨⟨trivial, rfl, rfl⟩, Reader.word_spells found⟩
  · obtain ⟨url, middle, found, success⟩ := bind_ok_iff.mp success
    obtain ⟨target, found', rfl⟩ := Reader.bind_pure_ok_iff.mp success
    obtain ⟨first, moved, spelled⟩ := Reader.text_spells found
    obtain ⟨second, moved', spelled'⟩ := Reader.text_spells found'
    refine ⟨⟨trivial, rfl, rfl⟩, first ++ second, moved.trans moved', ?_⟩
    change Field.images ([.text url] ++ [.text target]) = _
    rw [Field.images_append, spelled, spelled']
    rfl
  · obtain ⟨index, found, rfl⟩ := Reader.bind_pure_ok_iff.mp success
    exact ⟨⟨trivial, rfl, rfl⟩, Reader.byte_spells found⟩
  · obtain ⟨count, middle, found, success⟩ := bind_ok_iff.mp success
    obtain ⟨constants, found', rfl⟩ := Reader.bind_pure_ok_iff.mp success
    exact ⟨⟨trivial, rfl, rfl⟩, counted_texts_spelled .constantCount rfl found found'⟩
  · obtain ⟨frame, middle, found, success⟩ := bind_ok_iff.mp success
    obtain ⟨skipCount, found', rfl⟩ := Reader.bind_pure_ok_iff.mp success
    obtain ⟨first, moved, spelled⟩ := Reader.word_spells found
    obtain ⟨second, moved', spelled'⟩ := Reader.byte_spells found'
    refine ⟨⟨trivial, rfl, rfl⟩, first ++ second, moved.trans moved', ?_⟩
    change Field.images ([.word frame] ++ [.byte skipCount]) = _
    rw [Field.images_append, spelled, spelled']
    rfl
  · obtain ⟨target, found, rfl⟩ := Reader.bind_pure_ok_iff.mp success
    exact ⟨⟨trivial, rfl, rfl⟩, Reader.text_spells found⟩
  · obtain ⟨frameLabel, found, rfl⟩ := Reader.bind_pure_ok_iff.mp success
    exact ⟨⟨trivial, rfl, rfl⟩, Reader.text_spells found⟩
  · obtain ⟨skipCount, found, rfl⟩ := Reader.bind_pure_ok_iff.mp success
    exact ⟨⟨trivial, rfl, rfl⟩, Reader.byte_spells found⟩
  · obtain ⟨block, found, rfl⟩ := Reader.bind_pure_ok_iff.mp success
    obtain ⟨same, spelled⟩ := readTry_spells found
    refine ⟨⟨trivial, ?_, rfl⟩, spelled⟩
    rw [Instruction.canon, same]
  · obtain ⟨size, found, rfl⟩ := Reader.bind_pure_ok_iff.mp success
    exact ⟨⟨trivial, rfl, rfl⟩, Reader.word_spells found⟩
  · exact absurd rfl other
  · obtain ⟨offset, found, rfl⟩ := Reader.bind_pure_ok_iff.mp success
    exact ⟨⟨trivial, rfl, rfl⟩, Reader.word_spells found⟩
  · obtain ⟨offset, found, rfl⟩ := Reader.bind_pure_ok_iff.mp success
    exact ⟨⟨trivial, rfl, rfl⟩, Reader.word_spells found⟩
  · obtain ⟨flags, found, rfl⟩ := Reader.bind_pure_ok_iff.mp success
    exact ⟨⟨trivial, rfl, rfl⟩, Reader.byte_spells found⟩
  · obtain ⟨rfl, rfl⟩ := Reader.pure_ok_iff.mp success
    exact ⟨⟨trivial, rfl, rfl⟩, [], .refl _, rfl⟩
  · exact readGotoFrame2_spells success
  · obtain ⟨long, notSimple, notRegisters⟩ := plain
    cases op <;> first | exact absurd long (by decide) | exact absurd rfl (by assumption)

/-- **A body that can be read has the length of the image of its instruction**, and is that image if
its boolean operands are zero or one. -/
theorem readInstruction_spelled {op : Opcode} (plain : Plain op) {before after : Cursor}
    {instruction : Instruction} (success : readInstruction op before = .ok instruction after)
    (ended : after.rest = []) :
    ReadAs op instruction ∧ Cursor.Moved before.rest before after ∧
      ∃ image, Field.images instruction.layout = some image ∧
        image.length = before.rest.length ∧
        ((op = .push → ∀ byte ∈ booleanOperands before.rest, byte = 0 ∨ byte = 1) →
          image = before.rest) := by
  by_cases pushes : op = .push
  · subst pushes
    obtain ⟨values, found, rfl⟩ := Reader.bind_pure_ok_iff.mp success
    obtain ⟨_, moved, image, written, long, same⟩ := PushValue.readAll_spelled found
    exact ⟨⟨trivial, rfl, rfl⟩, moved, image, written, long, fun tidy => same (tidy rfl)⟩
  · obtain ⟨as, used, moved, spelled⟩ := readInstruction_spells plain pushes success
    have whole : before.rest = used := by
      rw [moved.rest, ended, List.append_nil]
    exact ⟨as, whole ▸ moved, used, spelled, by rw [whole], fun _ => whole.symm⟩

/-! ### Declarations -/

/-- The fields of a parameter with a register. -/
def paramFields (param : RegisterParam) : List Field :=
  [.byte param.register.index, .text param.name]

theorem readParam_takes (param : RegisterParam) (image : List UInt8)
    (written : Field.images (paramFields param) = some image) : readParam.Takes image param := by
  obtain ⟨front, back, first, rest, rfl⟩ := joined_eq_some_iff.mp written
  rw [Field.images_cons, Field.images_nil, joined_some_nil] at rest
  cases first
  refine (Reader.byte_takes param.register.index).bind ?_
  exact (Reader.text_takes rest).map fun name => RegisterParam.mk ⟨param.register.index⟩ name

theorem readParam_spells : readParam.Spells paramFields := by
  intro before after param success
  obtain ⟨register, middle, found, success⟩ := bind_ok_iff.mp success
  obtain ⟨name, found', rfl⟩ := Reader.bind_pure_ok_iff.mp success
  obtain ⟨first, moved, spelled⟩ := Reader.byte_spells found
  obtain ⟨second, moved', spelled'⟩ := Reader.text_spells found'
  refine ⟨first ++ second, moved.trans moved', ?_⟩
  change Field.images ([.byte register] ++ [.text name]) = _
  rw [Field.images_append, spelled, spelled']
  rfl

/-- The body of a definition: its declaration and the size of its code. -/
def declaration (signature : Signature) (codeSize : Nat) : List Field :=
  signature.layout ++ [.size .codeSize codeSize]

theorem width_declaration (signature : Signature) (codeSize : Nat) :
    Field.totalWidth (declaration signature codeSize) = signature.bodyLength := by
  rw [declaration, Field.totalWidth_append, ← signature.totalWidth_layout]
  rfl

/-- **A declaration that was written is read back.** -/
theorem read_declaration {signature : Signature} {codeSize : Nat} {image : List UInt8}
    (written : Field.images (declaration signature codeSize) = some image) :
    (read signature.opcode).Takes image (.definition signature codeSize) := by
  rw [declaration, Field.images_append] at written
  obtain ⟨fields, tail, layout, size, rfl⟩ := joined_eq_some_iff.mp written
  rw [Field.images_cons, Field.images_nil, joined_some_nil] at size
  obtain ⟨stored, rfl, rfl⟩ := Field.word_of_size rfl size
  have last := Reader.word_takes stored
  cases signature with
  | simple name params =>
    obtain ⟨front, back, first, rest, rfl⟩ := joined_eq_some_iff.mp layout
    rw [List.append_assoc]
    have whole := counted_texts_take .parameterCount rfl
      (fun params => Reader.word >>= fun codeSize =>
        pure (Body.definition (.simple name params) codeSize.toNat)) rest
      (last.map fun word => Body.definition (.simple name params) word.toNat)
    exact (Reader.text_takes first).bind whole
  | withRegisters name registerCount flags params =>
    obtain ⟨front, counted, first, rest, rfl⟩ := joined_eq_some_iff.mp layout
    obtain ⟨front', registers, second, rest', rfl⟩ := joined_eq_some_iff.mp rest
    obtain ⟨count, same, rfl⟩ := Field.word_of_size rfl second
    obtain ⟨front'', flagged, third, rest'', rfl⟩ := joined_eq_some_iff.mp rest'
    obtain ⟨lastFront, body, fourth, lastRest, rfl⟩ := joined_eq_some_iff.mp rest''
    cases third
    cases fourth
    have values := Reader.times_takes readParam_takes params lastRest
    rw [← same] at values
    simp only [List.append_assoc]
    refine (Reader.text_takes first).bind ?_
    refine (Reader.word_takes count).bind ?_
    refine (Reader.byte_takes registerCount).bind ?_
    refine (Reader.word_takes flags).bind ?_
    exact values.bind (last.map fun word =>
      Body.definition (.withRegisters name registerCount flags params) word.toNat)

/-- **A declaration that can be read is the image of its fields.** -/
theorem declaration_of_read {op : Opcode} {before after : Cursor} {signature : Signature}
    {codeSize : Nat} (success : read op before = .ok (.definition signature codeSize) after) :
    op = signature.opcode ∧ ∃ used, Cursor.Moved used before after ∧
      Field.images (declaration signature codeSize) = some used := by
  unfold read at success
  split at success
  · obtain ⟨name, afterName, found, success⟩ := bind_ok_iff.mp success
    obtain ⟨count, afterCount, found', success⟩ := bind_ok_iff.mp success
    obtain ⟨params, afterParams, found'', success⟩ := bind_ok_iff.mp success
    obtain ⟨stored, last, foundSize, result⟩ := bind_ok_iff.mp success
    obtain ⟨equal, rfl⟩ := Reader.pure_ok_iff.mp result
    cases equal
    obtain ⟨first, moved, spelled⟩ := Reader.text_spells found
    obtain ⟨second, moved', spelled'⟩ := counted_texts_spelled .parameterCount rfl found' found''
    obtain ⟨third, moved'', spelled''⟩ := Reader.word_spells foundSize
    refine ⟨rfl, first ++ (second ++ third), moved.trans (moved'.trans moved''), ?_⟩
    have layout : declaration (.simple name params) stored.toNat =
        [.text name] ++ (.size .parameterCount params.length :: params.map .text) ++
          [.size .codeSize stored.toNat] := rfl
    rw [layout, List.append_assoc, Field.images_append, Field.images_append, spelled, spelled',
      Field.images_cons, Field.image_size rfl, ← Field.images_cons, spelled'']
    rfl
  · obtain ⟨name, afterName, found, success⟩ := bind_ok_iff.mp success
    obtain ⟨count, afterCount, found', success⟩ := bind_ok_iff.mp success
    obtain ⟨registerCount, afterRegisters, found'', success⟩ := bind_ok_iff.mp success
    obtain ⟨flags, afterFlags, foundFlags, success⟩ := bind_ok_iff.mp success
    obtain ⟨params, afterParams, foundParams, success⟩ := bind_ok_iff.mp success
    obtain ⟨stored, last, foundSize, result⟩ := bind_ok_iff.mp success
    obtain ⟨equal, rfl⟩ := Reader.pure_ok_iff.mp result
    cases equal
    obtain ⟨first, moved, spelled⟩ := Reader.text_spells found
    obtain ⟨second, moved', spelled'⟩ := Reader.word_spells found'
    obtain ⟨third, moved'', spelled''⟩ := Reader.byte_spells found''
    obtain ⟨fourth, movedFlags, spelledFlags⟩ := Reader.word_spells foundFlags
    obtain ⟨full, fifth, movedParams, spelledParams⟩ := Reader.times_spells readParam_spells foundParams
    obtain ⟨sixth, movedSize, spelledSize⟩ := Reader.word_spells foundSize
    refine ⟨rfl, first ++ (second ++ (third ++ (fourth ++ (fifth ++ sixth)))), ?_, ?_⟩
    · exact moved.trans (moved'.trans (moved''.trans (movedFlags.trans (movedParams.trans movedSize))))
    · have layout : declaration (.withRegisters name registerCount flags params) stored.toNat =
          [.text name] ++ ([.size .parameterCount params.length] ++ ([.byte registerCount] ++
            ([.word flags] ++ (params.flatMap paramFields ++ [.size .codeSize stored.toNat])))) :=
        rfl
      have counted : Field.images [.size .parameterCount params.length] = some second := by
        rw [Field.images_cons, full, Field.image_size rfl, ← Field.images_cons, spelled']
      have sized : Field.images [.size .codeSize stored.toNat] = some sixth := by
        rw [Field.images_cons, Field.image_size rfl, ← Field.images_cons, spelledSize]
      rw [layout, Field.images_append, Field.images_append, Field.images_append,
        Field.images_append, Field.images_append, spelled, counted, spelled'', spelledFlags,
        spelledParams, sized]
      rfl
  · obtain ⟨instruction, middle, found, result⟩ := bind_ok_iff.mp success
    obtain ⟨equal, _⟩ := Reader.pure_ok_iff.mp result
    cases equal

end Body

end ActionCode
