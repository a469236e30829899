/-
**One action from the front of a block.**

* `Body.read`: the fields after the opcode and the length, by opcode. A definition declares the size
  of its code, which lies after the body.
* `nextStep`: the next action of a block, or the declaration of a definition together with the block
  that is its code. **`nextStep_shorter`**: what remains, and the code of a definition, are shorter
  than what there was.

Faults come in the order in which the bytes are read, with two exceptions: the nesting limit is
tested before the code of a definition is split off, and a body with bytes left over is reported
only after the code of its definition has been read.
-/

import ActionCode.Action

namespace ActionCode

/-! ### Faults -/

/-- Why bytes are not the code of a program. Offsets are absolute, targets are relative to their
sequence. -/
inductive DisassemblyFault where
  | read (fault : ReadFault)
  /-- A branch leaves its sequence. -/
  | branchOutOfRange (offset : Nat) (target : Int)
  /-- A branch goes to a byte inside an action. -/
  | misalignedBranch (offset target : Nat)
  /-- A block spans more than its sequence holds. -/
  | blockOverrun (offset size : Nat)
  /-- A block ends inside an action. -/
  | misalignedBlock (offset size : Nat)
  /-- A definition lies in too many others. -/
  | tooDeep (offset maxDepth : Nat)
deriving DecidableEq

namespace DisassemblyFault

/-- The absolute offset a fault refers to. -/
def offset : DisassemblyFault → Nat
  | .read fault => fault.offset
  | .branchOutOfRange offset _ | .misalignedBranch offset _ | .blockOverrun offset _
  | .misalignedBlock offset _ | .tooDeep offset _ => offset

/-- The wording of a fault. -/
def message : DisassemblyFault → String
  | .read fault => fault.message
  | .branchOutOfRange offset target =>
    s!"Branch at offset {offset} targets {target}, outside its sequence"
  | .misalignedBranch offset target =>
    s!"Branch at offset {offset} targets byte {target}, inside an action"
  | .blockOverrun offset size =>
    s!"Block at offset {offset} spans {size} past the end of its sequence"
  | .misalignedBlock offset size =>
    s!"Block at offset {offset} spans {size}, ending inside an action"
  | .tooDeep offset maxDepth => s!"Function at offset {offset} nested deeper than {maxDepth}"

end DisassemblyFault

/-! ### Bodies -/

/-- What the body of a known opcode holds. -/
inductive Body where
  | instruction (instruction : Instruction)
  /-- A definition, whose code of the given size lies after the body. -/
  | definition (signature : Signature) (codeSize : Nat)

namespace Body

/-- A parameter of a definition with registers. -/
def readParam : Reader RegisterParam := do
  let register ← Reader.byte
  let name ← Reader.text
  return ⟨⟨register⟩, name⟩

/-- The declaration of a definition. -/
def readSimple : Reader Body := do
  let name ← Reader.text
  let count ← Reader.word
  let params ← Reader.text.times count.toNat
  let codeSize ← Reader.word
  return .definition (.simple name params) codeSize.toNat

/-- The declaration of a definition with registers. -/
def readWithRegisters : Reader Body := do
  let name ← Reader.text
  let count ← Reader.word
  let registerCount ← Reader.byte
  let flags ← Reader.word
  let params ← readParam.times count.toNat
  let codeSize ← Reader.word
  return .definition (.withRegisters name registerCount flags params) codeSize.toNat

/-- Where the caught value goes, as the flags of the block say. -/
def readCatchTarget (flags : UInt8) : Reader CatchTarget := do
  if TryFlags.containsAll flags TryFlag.caughtInRegister.mask then
    return .register ⟨← Reader.byte⟩
  else
    return .variable (← Reader.text)

/-- An exception block. -/
def readTry : Reader TryBlock := do
  let flags ← Reader.byte
  let trySize ← Reader.word
  let catchSize ← Reader.word
  let finallySize ← Reader.word
  let target ← readCatchTarget flags
  return ⟨flags, trySize, catchSize, finallySize, target⟩

/-- The frame action whose bias is there if its flags say so. -/
def readGotoFrame2 : Reader Instruction := do
  let flags ← Reader.byte
  if flags &&& Instruction.biasBit != 0 then
    return .gotoFrame2 flags (some (← Reader.word))
  else
    return .gotoFrame2 flags none

/-- All bytes that are left. -/
def readRest : Reader (List UInt8) := do
  Reader.bytes (← get).remaining

/-- The instruction of an opcode that is no definition. -/
def readInstruction (op : Opcode) : Reader Instruction :=
  match op with
  | .gotoFrame => return .gotoFrame (← Reader.word)
  | .getUrl => do
    let url ← Reader.text
    return .getUrl url (← Reader.text)
  | .storeRegister => return .storeRegister ⟨← Reader.byte⟩
  | .constantPool => do
    let count ← Reader.word
    return .constantPool (← Reader.text.times count.toNat)
  | .waitForFrame => do
    let frame ← Reader.word
    return .block (.wait (some frame) (← Reader.byte))
  | .setTarget => return .setTarget (← Reader.text)
  | .goToLabel => return .goToLabel (← Reader.text)
  | .waitForFrame2 => return .block (.wait none (← Reader.byte))
  | .tryBlock => return .block (.exception (← readTry))
  | .withScope => return .block (.scope (← Reader.word))
  | .push => return .pushList (← PushValue.readAll)
  | .jump => return .branch ⟨false, (← Reader.word).toInt16, none⟩
  | .ifTrue => return .branch ⟨true, (← Reader.word).toInt16, none⟩
  | .getUrl2 => return .getUrl2 (← Reader.byte)
  | .call => return .call
  | .gotoFrame2 => readGotoFrame2
  | op => return .unknown op.byte (← readRest)

/-- The body of a known opcode. -/
def read (op : Opcode) : Reader Body :=
  match op with
  | .defineFunction => readSimple
  | .defineFunction2 => readWithRegisters
  | op => return .instruction (← readInstruction op)

end Body

/-! ### Steps -/

/-- What stands at the front of a block, and the cursor after it. -/
inductive Step where
  | instruction (instruction : Instruction) (next : Cursor)
  /-- The fault is that of a body with bytes left over, to be reported once the code is read. -/
  | definition (signature : Signature) (code next : Cursor) (leftover : Option ReadFault)

/-- Run a reader at a cursor. -/
def Reader.at {α : Type} (reader : Reader α) (cursor : Cursor) :
    Except DisassemblyFault (α × Cursor) :=
  match reader cursor with
  | .ok value next => .ok (value, next)
  | .error fault _ => .error (.read fault)

/-- A declared length and the block of that length. -/
def readBlock : Reader Cursor := do
  let declared ← Reader.word
  Reader.splitOff declared.toNat

/-- The fault of a body that has been read up to a cursor, if bytes are left over. -/
def leftover? (opcode : UInt8) (offset declared : Nat) (stop : Cursor) : Option ReadFault :=
  if stop.isEmpty then none else some (.bodyLength opcode offset declared stop.position)

/-- The step of a known opcode whose body and the cursor after it are given. -/
def knownStep (maxDepth depth : Nat) (op : Opcode) (offset : Nat) (block after : Cursor) :
    Except DisassemblyFault Step := do
  let (body, stop) ← (Body.read op).at block
  let leftover := leftover? op.byte offset block.remaining stop
  match body with
  | .instruction instruction =>
    match leftover with
    | some fault => throw (.read fault)
    | none => return .instruction instruction after
  | .definition signature codeSize =>
    if maxDepth < depth + 1 then throw (.tooDeep offset maxDepth)
    let (code, next) ← (Reader.splitOff codeSize).at after
    return .definition signature code next leftover

/-- What stands at the front of a block that lies `depth` definitions deep. -/
def nextStep (maxDepth depth : Nat) (cursor : Cursor) : Except DisassemblyFault Step := do
  let (opcode, afterOpcode) ← Reader.byte.at cursor
  if opcode < bodyThreshold then
    return .instruction (Instruction.ofByte opcode) afterOpcode
  let (block, after) ← readBlock.at afterOpcode
  match Opcode.ofByte? opcode with
  | some op => knownStep maxDepth depth op cursor.offset block after
  | none => return .instruction (.unknown opcode block.rest) after

/-! ### Every step makes the rest shorter -/

theorem Reader.eq_of_at {α : Type} {reader : Reader α} {cursor next : Cursor} {value : α}
    (found : reader.at cursor = .ok (value, next)) : reader cursor = .ok value next := by
  unfold Reader.at at found
  split at found
  · rename_i equal
    obtain ⟨rfl, rfl⟩ := Prod.mk.inj (Except.ok.inj found)
    exact equal
  · cases found

theorem Reader.moved_of_splitOff {count : Nat} {before after block : Cursor}
    (success : Reader.splitOff count before = .ok block after) :
    Cursor.Moved block.rest before after ∧ block = Cursor.start before.offset block.rest ∧
      block.rest.length = count := by
  change EStateM.bind (Reader.bytes count) _ before = _ at success
  unfold EStateM.bind at success
  split at success
  · rename_i front middle found
    cases success
    obtain ⟨moved, full⟩ := Reader.moved_of_bytes found
    exact ⟨moved, rfl, full⟩
  · cases success

theorem readBlock_advances : readBlock.Advances := by
  refine Reader.word_advances.bind fun declared => ?_
  intro before after block success
  exact ⟨_, (Reader.moved_of_splitOff success).1⟩

/-- What remains after a step is shorter than what there was. -/
def Step.ShorterThan (cursor : Cursor) : Step → Prop
  | .instruction _ next => next.rest.length < cursor.rest.length
  | .definition _ code next _ =>
    code.rest.length < cursor.rest.length ∧ next.rest.length < cursor.rest.length

theorem knownStep_shorter {maxDepth depth offset : Nat} {op : Opcode} {block after cursor : Cursor}
    {step : Step} (shorter : after.rest.length < cursor.rest.length)
    (found : knownStep maxDepth depth op offset block after = .ok step) :
    step.ShorterThan cursor := by
  unfold knownStep at found
  simp only [bind, Except.bind, pure, Except.pure, throw, throwThe, MonadExceptOf.throw] at found
  split at found
  · cases found
  · split at found
    · split at found
      · cases found
      · cases found
        exact shorter
    · split at found
      · cases found
      · split at found
        · cases found
        · rename_i isSplit equal
          cases found
          have moved := (Reader.moved_of_splitOff (Reader.eq_of_at equal)).1.length_rest
          constructor <;> omega

/-- **Every step makes the rest shorter.** -/
theorem nextStep_shorter {maxDepth depth : Nat} {cursor : Cursor} {step : Step}
    (found : nextStep maxDepth depth cursor = .ok step) : step.ShorterThan cursor := by
  unfold nextStep at found
  simp only [bind, Except.bind, pure, Except.pure] at found
  split at found
  · cases found
  · rename_i first equal
    have opcode := Reader.byte_consumes (Reader.eq_of_at equal)
    split at found
    · cases found
      exact opcode
    · split at found
      · cases found
      · rename_i second equal'
        have block := readBlock_advances.length_rest_le (Reader.eq_of_at equal')
        have shorter := Nat.lt_of_le_of_lt block opcode
        split at found
        · exact knownStep_shorter shorter found
        · cases found
          exact shorter

end ActionCode
