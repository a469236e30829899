/-
**Reading at another offset.**

* `Cursor.shifted`: the same position in a block that lies further on. Faults and steps are shifted
  with it.
* `Reader.Local`: a reader does the same in a block that lies further on, **and its faults lie in its
  block**. The readers of the format are local, from the fields up to bodies.
* **`nextStep_shifted`**: so is a step. Of the depth and the limit on it, it sees the difference only.
-/

import ActionCode.Proofs.Bytes.Fields
import ActionCode.Decoding

namespace ActionCode

variable {α β γ : Type}

/-! ### Further on -/

/-- The same position in a block that lies further on. -/
def Cursor.shifted (distance : Nat) (cursor : Cursor) : Cursor :=
  { cursor with base := distance + cursor.base }

theorem Cursor.offset_shifted (distance : Nat) (cursor : Cursor) :
    (cursor.shifted distance).offset = distance + cursor.offset := Nat.add_assoc ..

/-- Absolute offset of the end of the block. -/
def Cursor.stop (cursor : Cursor) : Nat := cursor.offset + cursor.remaining

theorem Cursor.offset_le_stop (cursor : Cursor) : cursor.offset ≤ cursor.stop := Nat.le_add_right ..

theorem Cursor.Moved.stop {used : List UInt8} {before after : Cursor}
    (moved : Cursor.Moved used before after) : after.stop = before.stop := by
  unfold Cursor.stop Cursor.remaining
  rw [moved.offset, moved.length_rest, Nat.add_assoc]

/-- A fault in a block that lies further on. -/
def ReadFault.shifted (distance : Nat) : ReadFault → ReadFault
  | .unexpectedEnd offset needed => .unexpectedEnd (distance + offset) needed
  | .unterminatedText offset => .unterminatedText (distance + offset)
  | .invalidText offset => .invalidText (distance + offset)
  | .unknownValueTag tag offset => .unknownValueTag tag (distance + offset)
  | .bodyLength opcode offset declared consumed =>
    .bodyLength opcode (distance + offset) declared consumed

/-- A fault in a block that lies further on, where another limit on nesting is reported. **Targets
are relative to their sequence**, so they stay. -/
def DisassemblyFault.shifted (distance limit : Nat) : DisassemblyFault → DisassemblyFault
  | .read fault => .read (fault.shifted distance)
  | .branchOutOfRange offset target => .branchOutOfRange (distance + offset) target
  | .misalignedBranch offset target => .misalignedBranch (distance + offset) target
  | .blockOverrun offset size => .blockOverrun (distance + offset) size
  | .misalignedBlock offset size => .misalignedBlock (distance + offset) size
  | .tooDeep offset _ => .tooDeep (distance + offset) limit

/-! ### Local readers -/

/-- What came of a reader, in a block that lies further on. -/
def shiftedResult (distance : Nat) (move : α → β) :
    EStateM.Result ReadFault Cursor α → EStateM.Result ReadFault Cursor β
  | .ok value after => .ok (move value) (after.shifted distance)
  | .error fault after => .error (fault.shifted distance) (after.shifted distance)

/-- What came of a reader lies in a block that ends at `stop`. -/
def Inside (stop : Nat) : EStateM.Result ReadFault Cursor α → Prop
  | .ok _ after => after.stop = stop
  | .error fault _ => fault.offset ≤ stop

namespace Reader

/-- **A reader does the same in a block that lies further on**, and stays in its block, which ends at
`stop`. -/
structure Local (distance stop : Nat) (move : α → β) (reader : Reader α) (other : Reader β) :
    Prop where
  moves : ∀ cursor : Cursor, cursor.stop = stop →
    other (cursor.shifted distance) = shiftedResult distance move (reader cursor)
  inside : ∀ cursor : Cursor, cursor.stop = stop → Inside stop (reader cursor)

variable {distance stop : Nat}

theorem Local.pure (move : α → β) (value : α) :
    Local distance stop move (pure value) (pure (move value)) where
  moves _ _ := rfl
  inside _ isStop := isStop

theorem Local.bind {δ : Type} {move : α → β} {further : γ → δ} {reader : Reader α} {other : Reader β}
    {next : α → Reader γ} {next' : β → Reader δ} (first : Local distance stop move reader other)
    (second : ∀ value, Local distance stop further (next value) (next' (move value))) :
    Local distance stop further (reader >>= next) (other >>= next') where
  moves cursor isStop := by
    show EStateM.bind other next' _ = shiftedResult _ _ (EStateM.bind reader next cursor)
    have within := first.inside cursor isStop
    unfold EStateM.bind
    rw [first.moves cursor isStop]
    cases found : reader cursor with
    | error fault after => rfl
    | ok value after =>
      rw [found] at within
      exact (second value).moves after within
  inside cursor isStop := by
    show Inside stop (EStateM.bind reader next cursor)
    have within := first.inside cursor isStop
    unfold EStateM.bind
    cases found : reader cursor with
    | error fault after =>
      rw [found] at within
      exact within
    | ok value after =>
      rw [found] at within
      exact (second value).inside after within

/-- What is built from a local reader is local. -/
theorem Local.build {reader : Reader α} (first : Local distance stop id reader reader)
    (build : α → β) :
    Local distance stop id (reader >>= fun value => Pure.pure (build value))
      (reader >>= fun value => Pure.pure (build value)) :=
  first.bind fun value => .pure id (build value)

/-! ### Fields -/

theorem bytes_local (count : Nat) : Local distance stop id (bytes count) (bytes count) where
  moves cursor _ := by
    unfold bytes
    dsimp only [Cursor.shifted]
    split
    · rfl
    · exact congrArg (fun offset => EStateM.Result.error (ReadFault.unexpectedEnd offset _) _)
        (cursor.offset_shifted distance)
  inside cursor isStop := by
    subst isStop
    cases found : bytes count cursor with
    | ok front after => exact (moved_of_bytes found).1.stop
    | error fault after =>
      unfold bytes at found
      dsimp only at found
      split at found
      · cases found
      · cases found
        exact cursor.offset_le_stop

theorem byte_local : Local distance stop id byte byte := (bytes_local 1).build _

theorem word_local : Local distance stop id word word := (bytes_local 2).build _

theorem long_local : Local distance stop id long long := (bytes_local 4).build _

theorem double_local : Local distance stop id double double :=
  long_local.bind fun _ => long_local.build _

theorem text_local : Local distance stop id text text where
  moves cursor _ := by
    unfold text
    dsimp only [Cursor.shifted]
    split
    · exact congrArg (fun offset => EStateM.Result.error (ReadFault.unterminatedText offset) _)
        (cursor.offset_shifted distance)
    · split
      · exact congrArg (fun offset => EStateM.Result.error (ReadFault.invalidText offset) _)
          (cursor.offset_shifted distance)
      · rfl
  inside cursor isStop := by
    subst isStop
    cases found : text cursor with
    | ok value after =>
      obtain ⟨used, moved⟩ := text_advances found
      exact moved.stop
    | error fault after =>
      unfold text at found
      split at found
      · cases found
        exact cursor.offset_le_stop
      · dsimp only at found
        split at found <;> cases found
        exact cursor.offset_le_stop

/-- A block of its own lies further on as well. -/
theorem splitOff_local (count : Nat) :
    Local distance stop (Cursor.shifted distance) (splitOff count) (splitOff count) where
  moves cursor isStop := by
    show EStateM.bind (bytes count) _ _ = shiftedResult _ _ (EStateM.bind (bytes count) _ cursor)
    unfold EStateM.bind
    rw [(bytes_local count).moves cursor isStop]
    cases bytes count cursor with
    | error fault after => rfl
    | ok block after =>
      show EStateM.Result.ok (Cursor.start (cursor.shifted distance).offset block) _ = _
      rw [cursor.offset_shifted]
      rfl
  inside cursor isStop := by
    show Inside stop (EStateM.bind (bytes count) _ cursor)
    have front : Local distance stop id (bytes count) (bytes count) := bytes_local count
    have within := front.inside cursor isStop
    unfold EStateM.bind
    cases found : bytes count cursor with
    | error fault after =>
      rw [found] at within
      exact within
    | ok block after =>
      rw [found] at within
      exact within

/-! ### Repetition -/

theorem timesFrom_local {reader : Reader α} (each : Local distance stop id reader reader)
    (count : Nat) (done : Array α) :
    Local distance stop id (timesFrom reader done count) (timesFrom reader done count) := by
  induction count generalizing done with
  | zero => exact .pure id _
  | succ count ih => exact each.bind fun value => ih _

theorem times_local {reader : Reader α} (each : Local distance stop id reader reader) (count : Nat) :
    Local distance stop id (reader.times count) (reader.times count) := timesFrom_local each count #[]

theorem untilEmpty_local {reader : Reader α} (consumes : reader.Consumes)
    (each : Local distance stop id reader reader) :
    Local distance stop id (reader.untilEmpty consumes) (reader.untilEmpty consumes) := by
  suffices general : ∀ (done : Array α) (cursor : Cursor), cursor.stop = stop →
      untilEmptyFrom reader consumes done (cursor.shifted distance) =
        shiftedResult distance id (untilEmptyFrom reader consumes done cursor) ∧
      Inside stop (untilEmptyFrom reader consumes done cursor) from
    ⟨fun cursor isStop => (general #[] cursor isStop).1,
      fun cursor isStop => (general #[] cursor isStop).2⟩
  intro done cursor
  fun_induction untilEmptyFrom reader consumes done cursor with
  | case1 done cursor empty =>
    intro isStop
    rw [untilEmptyFrom, if_pos (show (cursor.shifted distance).isEmpty = true from empty)]
    exact ⟨rfl, isStop⟩
  | case2 done cursor filled fault after found =>
    intro isStop
    have moves := each.moves cursor isStop
    have within := each.inside cursor isStop
    rw [found] at moves within
    refine ⟨?_, within⟩
    rw [untilEmptyFrom, if_neg (show ¬ (cursor.shifted distance).isEmpty = true from filled)]
    split
    · rename_i equal
      rw [moves] at equal
      cases equal
      rfl
    · rename_i equal
      rw [moves] at equal
      cases equal
  | case3 done cursor filled value after found ih =>
    intro isStop
    have moves := each.moves cursor isStop
    have within := each.inside cursor isStop
    rw [found] at moves within
    refine ⟨?_, (ih within).2⟩
    rw [untilEmptyFrom, if_neg (show ¬ (cursor.shifted distance).isEmpty = true from filled)]
    split
    · rename_i equal
      rw [moves] at equal
      cases equal
    · rename_i equal
      rw [moves] at equal
      cases equal
      exact (ih within).1

end Reader

/-! ### Bodies -/

section

variable {distance stop : Nat}

open Reader

theorem PushValue.readOperand_local (tag : UInt8) {offset : Nat} (within : offset ≤ stop) :
    Local distance stop id (readOperand tag offset) (readOperand tag (distance + offset)) := by
  unfold readOperand
  split
  · exact text_local.build _
  · exact long_local.build _
  · exact .pure id _
  · exact .pure id _
  · exact byte_local.build _
  · exact byte_local.build _
  · exact double_local.build _
  · exact long_local.build _
  · exact byte_local.build _
  · exact word_local.build _
  · exact ⟨fun _ _ => rfl, fun _ _ => within⟩

theorem PushValue.read_local : Local distance stop id read read where
  moves cursor isStop := by
    have offset : cursor.offset ≤ stop := isStop ▸ cursor.offset_le_stop
    have here : Local distance stop id (byte >>= fun tag => readOperand tag cursor.offset)
        (byte >>= fun tag => readOperand tag (distance + cursor.offset)) :=
      byte_local.bind fun tag => readOperand_local tag offset
    have moves := here.moves cursor isStop
    rw [← cursor.offset_shifted] at moves
    exact moves
  inside cursor isStop := by
    have offset : cursor.offset ≤ stop := isStop ▸ cursor.offset_le_stop
    have here : Local distance stop id (byte >>= fun tag => readOperand tag cursor.offset)
        (byte >>= fun tag => readOperand tag (distance + cursor.offset)) :=
      byte_local.bind fun tag => readOperand_local tag offset
    exact here.inside cursor isStop

namespace Body

theorem readParam_local : Local distance stop id readParam readParam :=
  byte_local.bind fun _ => text_local.build _

theorem readSimple_local : Local distance stop id readSimple readSimple :=
  text_local.bind fun _ => word_local.bind fun _ => (times_local text_local _).bind fun _ =>
    word_local.build _

theorem readWithRegisters_local : Local distance stop id readWithRegisters readWithRegisters :=
  text_local.bind fun _ => word_local.bind fun _ => byte_local.bind fun _ => word_local.bind fun _ =>
    (times_local readParam_local _).bind fun _ => word_local.build _

theorem readCatchTarget_local (flags : UInt8) :
    Local distance stop id (readCatchTarget flags) (readCatchTarget flags) := by
  unfold readCatchTarget
  split
  · exact byte_local.build _
  · exact text_local.build _

theorem readTry_local : Local distance stop id readTry readTry :=
  byte_local.bind fun _ => word_local.bind fun _ => word_local.bind fun _ => word_local.bind fun _ =>
    (readCatchTarget_local _).build _

theorem readGotoFrame2_local : Local distance stop id readGotoFrame2 readGotoFrame2 := by
  refine byte_local.bind fun flags => ?_
  dsimp only [id]
  split
  · exact word_local.build _
  · exact .pure id _

theorem readRest_local : Local distance stop id readRest readRest where
  moves cursor := (bytes_local cursor.remaining).moves cursor
  inside cursor :=
    have front : Local distance stop id (bytes cursor.remaining) (bytes cursor.remaining) :=
      bytes_local cursor.remaining
    front.inside cursor

theorem readInstruction_local (op : Opcode) :
    Local distance stop id (readInstruction op) (readInstruction op) := by
  unfold readInstruction
  split
  case h_1 | h_10 | h_12 | h_13 => exact word_local.build _
  case h_2 => exact text_local.bind fun _ => text_local.build _
  case h_3 | h_8 | h_14 => exact byte_local.build _
  case h_4 => exact word_local.bind fun _ => (times_local text_local _).build _
  case h_5 => exact word_local.bind fun _ => byte_local.build _
  case h_6 | h_7 => exact text_local.build _
  case h_9 => exact readTry_local.build _
  case h_11 => exact (untilEmpty_local _ PushValue.read_local).build _
  case h_15 => exact .pure id _
  case h_16 => exact readGotoFrame2_local
  case h_17 => exact readRest_local.build _

/-- **Every body is read in the same way further on.** -/
theorem read_local (op : Opcode) : Local distance stop id (Body.read op) (Body.read op) := by
  unfold Body.read
  split
  · exact readSimple_local
  · exact readWithRegisters_local
  · exact (readInstruction_local _).build _

end Body

end

/-! ### Steps -/

/-- A step of a block that lies further on. -/
def Step.shifted (distance : Nat) : Step → Step
  | .instruction read next => .instruction read (next.shifted distance)
  | .definition signature code next leftover =>
    .definition signature (code.shifted distance) (next.shifted distance)
      (leftover.map (ReadFault.shifted distance))

/-- A step and the code of its definition lie in a block that ends at `stop`, and so do the faults. -/
def StepInside (stop : Nat) : Except DisassemblyFault Step → Prop
  | .ok (.instruction _ next) => next.stop = stop
  | .ok (.definition _ code next leftover) =>
    code.stop ≤ stop ∧ next.stop = stop ∧ ∀ fault, leftover = some fault → fault.offset ≤ stop
  | .error fault => fault.offset ≤ stop

/-- What came of a computation, in a block that lies further on. -/
def shiftedOutcome (distance limit : Nat) (move : α → β) :
    Except DisassemblyFault α → Except DisassemblyFault β
  | .ok value => .ok (move value)
  | .error fault => .error (fault.shifted distance limit)

section

variable {distance stop : Nat}

theorem Reader.Local.at {move : α → β} {reader : Reader α} {other : Reader β}
    (here : Reader.Local distance stop move reader other) {cursor : Cursor} (isStop : cursor.stop = stop)
    (limit : Nat) :
    other.at (cursor.shifted distance) =
      shiftedOutcome distance limit (Prod.map move (Cursor.shifted distance)) (reader.at cursor) := by
  rw [Reader.at, here.moves cursor isStop, Reader.at]
  cases reader cursor <;> rfl

theorem Reader.Local.inside_of_at {move : α → β} {reader : Reader α} {other : Reader β}
    (here : Reader.Local distance stop move reader other) {cursor : Cursor}
    (isStop : cursor.stop = stop) :
    (∀ {value : α} {next : Cursor}, reader.at cursor = .ok (value, next) → next.stop = stop) ∧
    ∀ {fault : DisassemblyFault}, reader.at cursor = .error fault → fault.offset ≤ stop := by
  have within := here.inside cursor isStop
  unfold Reader.at
  cases found : reader cursor with
  | error fault after =>
    rw [found] at within
    exact ⟨nofun, fun equal => by cases equal; exact within⟩
  | ok value after =>
    rw [found] at within
    exact ⟨fun equal => by cases equal; exact within, nofun⟩

theorem leftover?_shifted (opcode : UInt8) (offset declared : Nat) (last : Cursor) :
    leftover? opcode (distance + offset) declared (last.shifted distance) =
      (leftover? opcode offset declared last).map (ReadFault.shifted distance) := by
  unfold leftover?
  show (if last.isEmpty = true then _ else _) = _
  split <;> rfl

theorem offset_of_leftover {opcode : UInt8} {offset declared : Nat} {last : Cursor}
    {fault : ReadFault} (found : leftover? opcode offset declared last = some fault) :
    fault.offset = offset := by
  unfold leftover? at found
  split at found
  · cases found
  · cases found
    rfl

theorem knownStep_shifted {maxDepth depth maxDepth' depth' : Nat}
    (room : maxDepth' - depth' = maxDepth - depth) (op : Opcode) (offset : Nat) (block after : Cursor) :
    knownStep maxDepth' depth' op (distance + offset) (block.shifted distance)
        (after.shifted distance) =
      shiftedOutcome distance maxDepth' (Step.shifted distance)
        (knownStep maxDepth depth op offset block after) := by
  unfold knownStep
  rw [(Body.read_local op).at rfl maxDepth']
  cases (Body.read op).at block with
  | error fault => rfl
  | ok found =>
    obtain ⟨body, last⟩ := found
    simp only [bind, Except.bind, pure, Except.pure, throw, throwThe, MonadExceptOf.throw,
      shiftedOutcome, Prod.map, id]
    rw [show (block.shifted distance).remaining = block.remaining from rfl, leftover?_shifted]
    cases body with
    | instruction read => cases leftover? op.byte offset block.remaining last <;> rfl
    | definition signature codeSize =>
      dsimp only
      by_cases deep : maxDepth < depth + 1
      · rw [if_pos deep, if_pos (show maxDepth' < depth' + 1 by omega)]
        rfl
      · rw [if_neg deep, if_neg (show ¬ maxDepth' < depth' + 1 by omega),
          (Reader.splitOff_local codeSize).at rfl maxDepth']
        cases (Reader.splitOff codeSize).at after <;> rfl

/-- A block of its own ends where the block around it does, or before. -/
theorem stop_of_splitOff {count : Nat} {before after block : Cursor}
    (success : Reader.splitOff count before = .ok block after) : block.stop ≤ before.stop := by
  obtain ⟨moved, same, -⟩ := Reader.moved_of_splitOff success
  rw [same]
  show before.offset + 0 + block.rest.length ≤ before.offset + before.rest.length
  have length := moved.length_rest
  omega

theorem stop_of_readBlock {before after block : Cursor}
    (success : readBlock before = .ok block after) : block.stop ≤ before.stop := by
  obtain ⟨length, middle, found, split⟩ := bind_ok_iff.mp success
  obtain ⟨used, moved⟩ := Reader.word_advances found
  exact moved.stop ▸ stop_of_splitOff split

theorem knownStep_inside {maxDepth depth offset : Nat} {op : Opcode} {block after : Cursor}
    (front : offset ≤ stop) (within : block.stop ≤ stop) (isStop : after.stop = stop) :
    StepInside stop (knownStep maxDepth depth op offset block after) := by
  unfold knownStep
  have body : Reader.Local 0 block.stop id (Body.read op) (Body.read op) := Body.read_local op
  cases read : (Body.read op).at block with
  | error fault => exact Nat.le_trans ((body.inside_of_at rfl).2 read) within
  | ok found =>
    obtain ⟨body, last⟩ := found
    simp only [bind, Except.bind, pure, Except.pure, throw, throwThe, MonadExceptOf.throw]
    cases body with
    | instruction read =>
      cases extra : leftover? op.byte offset block.remaining last with
      | none => exact isStop
      | some fault => exact offset_of_leftover extra ▸ front
    | definition signature codeSize =>
      dsimp only
      by_cases deep : maxDepth < depth + 1
      · rw [if_pos deep]
        exact front
      · rw [if_neg deep]
        cases split : (Reader.splitOff codeSize).at after with
        | error fault =>
          have code : Reader.Local 0 stop (Cursor.shifted 0) (Reader.splitOff codeSize)
              (Reader.splitOff codeSize) := Reader.splitOff_local codeSize
          exact (code.inside_of_at isStop).2 split
        | ok found =>
          obtain ⟨code, next⟩ := found
          have moved := (Reader.moved_of_splitOff (Reader.eq_of_at split)).1
          exact ⟨isStop ▸ stop_of_splitOff (Reader.eq_of_at split), moved.stop.trans isStop,
            fun fault extra => offset_of_leftover extra ▸ front⟩

theorem readBlock_local :
    Reader.Local distance stop (Cursor.shifted distance) readBlock readBlock :=
  Reader.word_local.bind fun _ => Reader.splitOff_local _

/-- **A step is the same further on.** Of the depth and the limit on it, it sees the difference only. -/
theorem nextStep_shifted {maxDepth depth maxDepth' depth' : Nat}
    (room : maxDepth' - depth' = maxDepth - depth) (cursor : Cursor) :
    nextStep maxDepth' depth' (cursor.shifted distance) =
      shiftedOutcome distance maxDepth' (Step.shifted distance) (nextStep maxDepth depth cursor) := by
  unfold nextStep
  rw [Reader.byte_local.at rfl maxDepth']
  cases Reader.byte.at cursor with
  | error fault => rfl
  | ok found =>
    obtain ⟨opcode, afterOpcode⟩ := found
    simp only [bind, Except.bind, pure, Except.pure, shiftedOutcome, Prod.map, id]
    by_cases short : opcode < bodyThreshold
    · rw [if_pos short, if_pos short]
      rfl
    · rw [if_neg short, if_neg short, readBlock_local.at rfl maxDepth']
      cases readBlock.at afterOpcode with
      | error fault => rfl
      | ok found =>
        obtain ⟨block, after⟩ := found
        simp only [shiftedOutcome, Prod.map]
        cases Opcode.ofByte? opcode with
        | none => rfl
        | some op =>
          dsimp only
          rw [cursor.offset_shifted]
          exact knownStep_shifted room op cursor.offset block after

/-- **A step lies in its block**, and so do the faults. -/
theorem nextStep_inside (maxDepth depth : Nat) (cursor : Cursor) :
    StepInside cursor.stop (nextStep maxDepth depth cursor) := by
  unfold nextStep
  have byte : Reader.Local 0 cursor.stop id Reader.byte Reader.byte := Reader.byte_local
  have length : Reader.Local 0 cursor.stop (Cursor.shifted 0) readBlock readBlock := readBlock_local
  have first := byte.inside_of_at (rfl : cursor.stop = cursor.stop)
  cases read : Reader.byte.at cursor with
  | error fault => exact first.2 read
  | ok found =>
    obtain ⟨opcode, afterOpcode⟩ := found
    simp only [bind, Except.bind, pure, Except.pure]
    by_cases short : opcode < bodyThreshold
    · rw [if_pos short]
      exact first.1 read
    · rw [if_neg short]
      have second := length.inside_of_at (first.1 read)
      cases read' : readBlock.at afterOpcode with
      | error fault => exact second.2 read'
      | ok found =>
        obtain ⟨block, after⟩ := found
        dsimp only
        cases Opcode.ofByte? opcode with
        | none => exact second.1 read'
        | some op =>
          have within := stop_of_readBlock (Reader.eq_of_at read')
          rw [first.1 read] at within
          exact knownStep_inside cursor.offset_le_stop within (second.1 read')

end

end ActionCode
