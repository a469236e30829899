/-
**What a read takes, and what it leaves when it fails.**

* `Request`, `Request.read`: the values that a block may be asked for, and the readers of them.
* `Request.Spells`: the bytes of a value. **`Request.read_ok_iff`**: a read succeeds exactly if the
  bytes of a value come next, and takes just them.
* `Reader.Atomic`: a reader that takes nothing when it fails. `Request.lost`: what the two others
  have taken by then. **`Request.after_of_error`**: a read that fails has taken just that.
* **`splitOff_ok_iff`**: a block that is split off is what its parent has gone past.
-/

import ActionCode.Decoding
import ActionCode.Proofs.Bytes.Literals

namespace ActionCode

/-! ### Requests -/

/-- A value that a block may be asked for. -/
inductive Request where
  | byte
  | word
  | signedWord
  | long
  | signedLong
  /-- A 32-bit floating-point word. -/
  | single
  /-- A 64-bit floating-point word. -/
  | double
  | bytes (count : Nat)
  | text
  | literal
deriving DecidableEq

namespace Request

/-- The values that answer a request. -/
abbrev Answer : Request → Type
  | byte => UInt8
  | word => UInt16
  | signedWord => Int16
  | long | single => UInt32
  | signedLong => Int32
  | double => UInt64
  | bytes _ => List UInt8
  | text => String
  | literal => PushValue

/-- Read the value that is asked for. -/
def read : (request : Request) → Reader request.Answer
  | byte => Reader.byte
  | word => Reader.word
  | signedWord => return (← Reader.word).toInt16
  | long | single => Reader.long
  | signedLong => return (← Reader.long).toInt32
  | double => Reader.double
  | bytes count => Reader.bytes count
  | text => Reader.text
  | literal => PushValue.read

/-- The fields that a value takes. -/
def layout : (request : Request) → request.Answer → List Field
  | byte, value => [.byte value]
  | word, value => [.word value]
  | signedWord, value => [.word value.toUInt16]
  | long, value | single, value => [.long value]
  | signedLong, value => [.long value.toUInt32]
  | double, value => Field.double value
  | bytes _, block => [.raw block]
  | text, value => [.text value]
  | literal, value => value.fields

/-- Some bytes are those of a value. **Any byte but zero is the operand of a boolean that is true.**
-/
def Spells : (request : Request) → request.Answer → List UInt8 → Prop
  | literal, value, used => PushValue.ReadFrom used value
  | bytes count, block, used => used = block ∧ block.length = count
  | request, value, used => Field.images (request.layout value) = some used

/-- The bytes of a value are as many as its fields take. -/
theorem Spells.length {request : Request} {value : request.Answer} {used : List UInt8}
    (spells : request.Spells value used) :
    used.length = Field.totalWidth (request.layout value) := by
  cases request with
  | literal =>
    obtain ⟨image, written, same⟩ := PushValue.ReadFrom.image spells
    exact same.symm.trans (Field.length_of_images written)
  | bytes count =>
    obtain ⟨rfl, _⟩ := spells
    exact (Nat.zero_add _).symm
  | _ => exact Field.length_of_images spells

end Request

/-! ### Reads that succeed -/

/-- A reader that succeeds over some bytes at the front succeeds where a cursor is moved over them.
-/
theorem Reader.ok_of_moved {α : Type} {reader : Reader α} {used : List UInt8} {value : α}
    {before after : Cursor} (moved : Cursor.Moved used before after)
    (success : reader ⟨before.base, before.position, used ++ after.rest⟩ =
      .ok value ⟨before.base, before.position + used.length, after.rest⟩) :
    reader before = .ok value after := by
  calc reader before = reader ⟨before.base, before.position, used ++ after.rest⟩ := by
        rw [← moved.rest]
    _ = .ok value ⟨before.base, before.position + used.length, after.rest⟩ := success
    _ = .ok value after := by rw [← moved.base, ← moved.position]

namespace Request

/-- What was read was read from its bytes. -/
theorem moved_of_read {request : Request} {before after : Cursor} {value : request.Answer}
    (success : request.read before = .ok value after) :
    ∃ used, Cursor.Moved used before after ∧ request.Spells value used := by
  cases request with
  | byte => exact Reader.byte_spells success
  | word => exact Reader.word_spells success
  | signedWord =>
    obtain ⟨word, found, rfl⟩ := Reader.bind_pure_ok_iff.mp success
    exact Reader.word_spells found
  | long => exact Reader.long_spells success
  | single => exact Reader.long_spells success
  | signedLong =>
    obtain ⟨word, found, rfl⟩ := Reader.bind_pure_ok_iff.mp success
    exact Reader.long_spells found
  | double => exact Reader.double_spells success
  | bytes count =>
    obtain ⟨moved, full⟩ := Reader.moved_of_bytes success
    exact ⟨_, moved, rfl, full⟩
  | text => exact Reader.text_spells success
  | literal => exact PushValue.readFrom_of_read success

/-- The bytes of a value are read as this value, whatever follows. -/
theorem Spells.takes {request : Request} {value : request.Answer} {used : List UInt8}
    (spells : request.Spells value used) : request.read.Takes used value := by
  cases request with
  | byte =>
    cases spells
    exact Reader.byte_takes value
  | word =>
    cases spells
    exact Reader.word_takes value
  | signedWord =>
    cases spells
    exact (Reader.word_takes value.toUInt16).map UInt16.toInt16
  | long =>
    cases spells
    exact Reader.long_takes value
  | single =>
    cases spells
    exact Reader.long_takes value
  | signedLong =>
    cases spells
    exact (Reader.long_takes value.toUInt32).map UInt32.toInt32
  | double => exact Reader.double_takes spells
  | bytes count =>
    obtain ⟨rfl, rfl⟩ := spells
    exact Reader.bytes_takes used
  | text =>
    change Field.images [.text value] = some used at spells
    rw [Field.images_cons, Field.images_nil, joined_some_nil] at spells
    exact Reader.text_takes spells
  | literal => exact PushValue.ReadFrom.takes spells

/-- **A read succeeds exactly if the bytes of a value come next**, and moves over just them. -/
theorem read_ok_iff {request : Request} {before after : Cursor} {value : request.Answer} :
    request.read before = .ok value after ↔
      ∃ used, Cursor.Moved used before after ∧ request.Spells value used := by
  constructor
  · exact moved_of_read
  · rintro ⟨used, moved, spells⟩
    exact Reader.ok_of_moved moved (spells.takes _ _ _)

end Request

/-- **What is split off is a block of its own over the bytes that its parent has gone past**, at
their absolute offset. -/
theorem splitOff_ok_iff {count : Nat} {before part after : Cursor} :
    Reader.splitOff count before = .ok part after ↔
      ∃ used, Cursor.Moved used before after ∧ used.length = count ∧
        part = Cursor.start before.offset used := by
  constructor
  · intro success
    obtain ⟨moved, isPart, full⟩ := Reader.moved_of_splitOff success
    exact ⟨part.rest, moved, full, isPart⟩
  · rintro ⟨used, moved, rfl, rfl⟩
    exact Reader.ok_of_moved moved (Reader.splitOff_takes _ _ _ _)

/-! ### Reads that fail -/

namespace Reader

/-- A reader that takes nothing when it fails. -/
def Atomic {α : Type} (reader : Reader α) : Prop :=
  ∀ ⦃before after : Cursor⦄ ⦃fault : ReadFault⦄, reader before = .error fault after → after = before

/-- What fails in two steps fails in the first or in the second. -/
theorem error_of_bind {α β : Type} {reader : Reader α} {next : α → Reader β} {before after : Cursor}
    {fault : ReadFault} (failed : (reader >>= next) before = .error fault after) :
    reader before = .error fault after ∨ ∃ value middle,
      reader before = .ok value middle ∧ next value middle = .error fault after := by
  change EStateM.bind reader next before = _ at failed
  unfold EStateM.bind at failed
  split at failed
  · rename_i value middle found
    exact .inr ⟨value, middle, found, failed⟩
  · rename_i found
    cases failed
    exact .inl found

theorem Atomic.map {α β : Type} {reader : Reader α} (atomic : reader.Atomic) (build : α → β) :
    Atomic (reader >>= fun value => pure (build value)) := by
  intro before after fault failed
  obtain failed | ⟨value, middle, _, failed⟩ := error_of_bind failed
  · exact atomic failed
  · cases failed

theorem bytes_error {count : Nat} {before after : Cursor} {fault : ReadFault}
    (failed : bytes count before = .error fault after) :
    after = before ∧ before.rest.length < count := by
  unfold bytes at failed
  dsimp only at failed
  split at failed
  · cases failed
  · rename_i short
    cases failed
    rw [List.length_take] at short
    exact ⟨rfl, by omega⟩

/-- What is made of so many bytes fails on fewer. -/
theorem short_of_error {α : Type} {count : Nat} {build : List UInt8 → α} {before after : Cursor}
    {fault : ReadFault}
    (failed : (bytes count >>= fun block => pure (build block)) before = .error fault after) :
    before.rest.length < count := by
  obtain failed | ⟨_, _, _, failed⟩ := error_of_bind failed
  · exact (bytes_error failed).2
  · cases failed

theorem bytes_atomic (count : Nat) : (bytes count).Atomic :=
  fun _ _ _ failed => (bytes_error failed).1

theorem byte_atomic : byte.Atomic := (bytes_atomic 1).map _

theorem word_atomic : word.Atomic := (bytes_atomic 2).map _

theorem long_atomic : long.Atomic := (bytes_atomic 4).map _

theorem text_atomic : text.Atomic := by
  intro before after fault failed
  unfold text at failed
  split at failed
  · cases failed
    rfl
  · dsimp only at failed
    split at failed
    · cases failed
      rfl
    · cases failed

theorem splitOff_atomic (count : Nat) : (splitOff count).Atomic := by
  intro before after fault failed
  obtain failed | ⟨_, _, here, failed⟩ := error_of_bind failed
  · cases failed
  · cases here
    exact ((bytes_atomic count).map _) failed

/-- A double is read in two words, and the first of them stays read. -/
theorem double_error {before after : Cursor} {fault : ReadFault}
    (failed : double before = .error fault after) :
    (after = before ∧ before.rest.length < 4) ∨
      ∃ high, Cursor.Moved high before after ∧ high.length = 4 ∧ after.rest.length < 4 := by
  obtain failed | ⟨high, middle, found, failed⟩ := error_of_bind failed
  · exact .inl ⟨long_atomic failed, short_of_error failed⟩
  · obtain ⟨used, moved, spelled⟩ := long_spells found
    obtain failed | ⟨_, _, _, failed⟩ := error_of_bind failed
    · have short := short_of_error failed
      obtain rfl := long_atomic failed
      exact .inr ⟨used, moved, Field.length_of_images spelled, short⟩
    · cases failed

end Reader

/-- The cursor so many bytes later. -/
def Cursor.skip (count : Nat) (cursor : Cursor) : Cursor :=
  ⟨cursor.base, cursor.position + count, cursor.rest.drop count⟩

theorem Cursor.skip_zero (cursor : Cursor) : cursor.skip 0 = cursor := rfl

theorem Cursor.skip_skip (first second : Nat) (cursor : Cursor) :
    (cursor.skip first).skip second = cursor.skip (first + second) := by
  simp only [skip, Nat.add_assoc, List.drop_drop]

theorem Cursor.Moved.eq_skip {used : List UInt8} {before after : Cursor}
    (moved : Moved used before after) : after = before.skip used.length := by
  have rest : before.rest.drop used.length = after.rest := by
    rw [moved.rest, List.drop_left' rfl]
  rw [skip, rest, ← moved.base, ← moved.position]

theorem Cursor.moved_skip {count : Nat} {cursor : Cursor} (room : count ≤ cursor.rest.length) :
    Moved (cursor.rest.take count) cursor (cursor.skip count) where
  base := rfl
  position := by
    rw [List.length_take_of_le room]
    rfl
  rest := (List.take_append_drop count cursor.rest).symm

/-- How many of some bytes a double that cannot be read from them has taken: those of its first
word, if only the second is cut off. -/
def lostByDouble (rest : List UInt8) : Nat := if 4 ≤ rest.length ∧ rest.length ≤ 7 then 4 else 0

/-- How many of some bytes a read that fails has taken. **All but two kinds of reads take none**: a
double takes its first word, and a literal its tag and, if this is that of a double, what the double
takes. -/
def Request.lost : Request → List UInt8 → Nat
  | double, rest => lostByDouble rest
  | literal, tag :: operand => 1 + if tag = 6 then lostByDouble operand else 0
  | _, _ => 0

theorem lostByDouble_le (rest : List UInt8) : lostByDouble rest ≤ rest.length := by
  unfold lostByDouble
  split <;> omega

theorem Request.lost_le (request : Request) (rest : List UInt8) :
    request.lost rest ≤ rest.length := by
  unfold lost
  split
  · exact lostByDouble_le rest
  · rename_i tag operand
    have double := lostByDouble_le operand
    rw [List.length_cons]
    split <;> omega
  · exact Nat.zero_le _

theorem Reader.after_of_double_error {before after : Cursor} {fault : ReadFault}
    (failed : double before = .error fault after) :
    after = before.skip (lostByDouble before.rest) := by
  obtain ⟨rfl, short⟩ | ⟨high, moved, full, short⟩ := double_error failed
  · rw [lostByDouble, if_neg (by omega), Cursor.skip_zero]
  · have length := moved.length_rest
    rw [lostByDouble, if_pos (by omega), ← full]
    exact moved.eq_skip

/-- An operand other than a double is read as a whole. -/
theorem PushValue.after_of_operand_error {tag : UInt8} {offset : Nat} {before after : Cursor}
    {fault : ReadFault} (failed : readOperand tag offset before = .error fault after) :
    after = before.skip (if tag = 6 then lostByDouble before.rest else 0) := by
  unfold readOperand at failed
  split at failed
  · exact Reader.text_atomic.map _ failed
  · exact Reader.long_atomic.map _ failed
  · cases failed
  · cases failed
  · exact Reader.byte_atomic.map _ failed
  · exact Reader.byte_atomic.map _ failed
  · obtain failed | ⟨_, _, _, failed⟩ := Reader.error_of_bind failed
    · exact Reader.after_of_double_error failed
    · cases failed
  · exact Reader.long_atomic.map _ failed
  · exact Reader.byte_atomic.map _ failed
  · exact Reader.word_atomic.map _ failed
  · cases failed
    rw [if_neg (by assumption), Cursor.skip_zero]

theorem PushValue.after_of_read_error {before after : Cursor} {fault : ReadFault}
    (failed : read before = .error fault after) :
    after = before.skip (Request.literal.lost before.rest) := by
  obtain failed | ⟨_, _, here, failed⟩ := Reader.error_of_bind failed
  · cases failed
  cases here
  obtain failed | ⟨tag, middle, found, failed⟩ := Reader.error_of_bind failed
  · have empty : before.rest = [] :=
      List.eq_nil_of_length_eq_zero (Nat.lt_one_iff.mp (Reader.short_of_error failed))
    obtain rfl := Reader.byte_atomic failed
    rw [empty]
    rfl
  · obtain ⟨used, moved, spelled⟩ := Reader.byte_spells found
    cases spelled
    have isRest : before.rest = tag :: middle.rest := moved.rest
    calc after = middle.skip (if tag = 6 then lostByDouble middle.rest else 0) :=
          after_of_operand_error failed
      _ = (before.skip 1).skip (if tag = 6 then lostByDouble middle.rest else 0) :=
          congrArg (Cursor.skip _) moved.eq_skip
      _ = before.skip (Request.literal.lost before.rest) := by
          rw [Cursor.skip_skip, isRest, Request.lost]

/-- **A read that fails has taken just what is lost by it.** -/
theorem Request.after_of_error {request : Request} {before after : Cursor} {fault : ReadFault}
    (failed : request.read before = .error fault after) :
    after = before.skip (request.lost before.rest) := by
  cases request with
  | byte => exact Reader.byte_atomic failed
  | word => exact Reader.word_atomic failed
  | signedWord => exact Reader.word_atomic.map _ failed
  | long => exact Reader.long_atomic failed
  | single => exact Reader.long_atomic failed
  | signedLong => exact Reader.long_atomic.map _ failed
  | double => exact Reader.after_of_double_error failed
  | bytes count => exact Reader.bytes_atomic count failed
  | text => exact Reader.text_atomic failed
  | literal => exact PushValue.after_of_read_error failed

end ActionCode
