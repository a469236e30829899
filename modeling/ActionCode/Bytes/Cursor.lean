/-
**Reading bytes from the front.**

A `Cursor` is a position inside a block of bytes. It knows the absolute offset of the block, so that
faults inside nested blocks name offsets of the outermost one. A `Reader` takes a value off the
front or fails, and says where the cursor stands either way.

* `Reader.bytes`, `byte`, `word`, `long`, `double`, `text`: the fields of the format.
* `Reader.splitOff`: the next bytes as a block of their own.
* `Reader.times`, `Reader.untilEmpty`: repetition.
* **`Cursor.Moved`** relates a cursor to a later one by the bytes in between, and
  `Reader.Advances` says that a reader which succeeds has moved over some bytes.
-/

import ActionCode.Text.Hex
import ActionCode.Bytes.LittleEndian
import ActionCode.Bytes.Text

namespace ActionCode

/-! ### Faults -/

/-- Why bytes could not be read. Offsets are absolute. -/
inductive ReadFault where
  /-- The block ends `needed` bytes before the field does. -/
  | unexpectedEnd (offset needed : Nat)
  /-- No zero byte ends the text that starts here. -/
  | unterminatedText (offset : Nat)
  /-- The bytes up to the zero byte are not valid UTF-8. -/
  | invalidText (offset : Nat)
  | unknownValueTag (tag : UInt8) (offset : Nat)
  /-- The fields of an action do not end where its declared body ends. -/
  | bodyLength (opcode : UInt8) (offset declared consumed : Nat)
deriving DecidableEq

namespace ReadFault

/-- The absolute offset a fault refers to. -/
def offset : ReadFault → Nat
  | .unexpectedEnd offset _ | .unterminatedText offset | .invalidText offset
  | .unknownValueTag _ offset | .bodyLength _ offset _ _ => offset

/-- The wording of a fault. -/
def message : ReadFault → String
  | .unexpectedEnd offset needed =>
    s!"Unexpected end of bytecode at offset {offset}: need {needed} more bytes"
  | .unterminatedText offset => s!"Unterminated string at offset {offset}"
  | .invalidText offset => s!"Invalid UTF-8 string at offset {offset}"
  | .unknownValueTag tag offset => s!"Unknown push value type {tag.toNat} at offset {offset}"
  | .bodyLength opcode offset declared consumed =>
    "Body length mismatch for opcode 0x" ++ Text.hexUpper 2 opcode.toNat ++
      s!" at offset {offset}: declared {declared}, consumed {consumed}"

end ReadFault

/-! ### Cursors -/

/-- A position inside a block of bytes. -/
structure Cursor where
  /-- Absolute offset of the first byte of the block. -/
  base : Nat
  /-- Bytes of the block already read. -/
  position : Nat
  /-- Bytes of the block not yet read. -/
  rest : List UInt8
deriving DecidableEq

namespace Cursor

/-- The first position of a block that lies at an absolute offset. -/
def start (base : Nat) (block : List UInt8) : Cursor := ⟨base, 0, block⟩

/-- Absolute offset of the next byte. -/
def offset (cursor : Cursor) : Nat := cursor.base + cursor.position

/-- Bytes left to read. -/
def remaining (cursor : Cursor) : Nat := cursor.rest.length

/-- Whether every byte of the block has been read. -/
def isEmpty (cursor : Cursor) : Bool := cursor.rest.isEmpty

theorem nonempty_iff {cursor : Cursor} : ¬ cursor.isEmpty = true ↔ 0 < cursor.rest.length :=
  (not_congr List.isEmpty_iff).trans List.length_pos_iff.symm

/-- The later cursor stands after the given bytes of the earlier one. -/
structure Moved (used : List UInt8) (before after : Cursor) : Prop where
  base : after.base = before.base
  position : after.position = before.position + used.length
  rest : before.rest = used ++ after.rest

theorem Moved.refl (cursor : Cursor) : Moved [] cursor cursor := ⟨rfl, rfl, rfl⟩

theorem Moved.trans {used further : List UInt8} {first second third : Cursor}
    (early : Moved used first second) (late : Moved further second third) :
    Moved (used ++ further) first third where
  base := late.base.trans early.base
  position := by rw [late.position, early.position, List.length_append, Nat.add_assoc]
  rest := by rw [early.rest, late.rest, List.append_assoc]

theorem Moved.offset {used : List UInt8} {before after : Cursor} (moved : Moved used before after) :
    after.offset = before.offset + used.length := by
  simp only [Cursor.offset, moved.base, moved.position, Nat.add_assoc]

theorem Moved.length_rest {used : List UInt8} {before after : Cursor}
    (moved : Moved used before after) : before.rest.length = used.length + after.rest.length := by
  rw [moved.rest, List.length_append]

end Cursor

/-! ### Readers -/

/-- A computation that reads from the front of a block. The cursor survives a fault. -/
abbrev Reader := EStateM ReadFault Cursor

namespace Reader

/-- A reader that succeeds has moved over some bytes of the block. -/
def Advances {α : Type} (reader : Reader α) : Prop :=
  ∀ ⦃before after : Cursor⦄ ⦃value : α⦄, reader before = .ok value after →
    ∃ used, Cursor.Moved used before after

/-- A reader that succeeds has moved over one byte at least. -/
def Consumes {α : Type} (reader : Reader α) : Prop :=
  ∀ ⦃before after : Cursor⦄ ⦃value : α⦄, reader before = .ok value after →
    after.rest.length < before.rest.length

theorem Advances.length_rest_le {α : Type} {reader : Reader α} (advances : reader.Advances)
    {before after : Cursor} {value : α} (success : reader before = .ok value after) :
    after.rest.length ≤ before.rest.length := by
  obtain ⟨used, moved⟩ := advances success
  rw [moved.length_rest]
  omega

theorem Advances.pure {α : Type} (value : α) : Advances (pure value : Reader α) := by
  intro before after result success
  cases success
  exact ⟨[], .refl _⟩

theorem Advances.throw {α : Type} (fault : ReadFault) : Advances (throw fault : Reader α) := by
  intro before after result success
  cases success

theorem Advances.bind {α β : Type} {reader : Reader α} {next : α → Reader β}
    (first : reader.Advances) (second : ∀ value, (next value).Advances) :
    Advances (reader >>= next) := by
  intro before after result success
  change EStateM.bind reader next before = _ at success
  unfold EStateM.bind at success
  split at success
  · rename_i value middle found
    obtain ⟨used, early⟩ := first found
    obtain ⟨further, late⟩ := second value success
    exact ⟨_, early.trans late⟩
  · cases success

theorem Consumes.bind {α β : Type} {reader : Reader α} {next : α → Reader β}
    (first : reader.Consumes) (second : ∀ value, (next value).Advances) :
    Consumes (reader >>= next) := by
  intro before after result success
  change EStateM.bind reader next before = _ at success
  unfold EStateM.bind at success
  split at success
  · rename_i value middle found
    exact Nat.lt_of_le_of_lt ((second value).length_rest_le success) (first found)
  · cases success

/-! ### Fields -/

/-- The next `count` bytes. **On a short block nothing is read.** -/
def bytes (count : Nat) : Reader (List UInt8) := fun cursor =>
  let front := cursor.rest.take count
  if front.length = count then
    .ok front { cursor with
      position := cursor.position + count
      rest := cursor.rest.drop count }
  else .error (.unexpectedEnd cursor.offset (count - front.length)) cursor

theorem moved_of_bytes {count : Nat} {before after : Cursor} {front : List UInt8}
    (success : bytes count before = .ok front after) :
    Cursor.Moved front before after ∧ front.length = count := by
  unfold bytes at success
  dsimp only at success
  split at success
  · rename_i full
    cases success
    exact ⟨⟨rfl, by rw [full], (List.take_append_drop _ _).symm⟩, full⟩
  · cases success

theorem bytes_advances (count : Nat) : (bytes count).Advances :=
  fun _ _ _ success => ⟨_, (moved_of_bytes success).1⟩

theorem bytes_consumes {count : Nat} (positive : 0 < count) : (bytes count).Consumes := by
  intro before after front success
  obtain ⟨moved, full⟩ := moved_of_bytes success
  rw [moved.length_rest]
  omega

/-- The next byte. -/
def byte : Reader UInt8 := do return UInt8.ofNat (Bytes.ofBytes (← bytes 1))

/-- The next 16-bit word. -/
def word : Reader UInt16 := do return UInt16.ofNat (Bytes.ofBytes (← bytes 2))

/-- The next 32-bit word. -/
def long : Reader UInt32 := do return UInt32.ofNat (Bytes.ofBytes (← bytes 4))

/-- The next 64 bits, stored as two 32-bit words **with the high word first**. -/
def double : Reader UInt64 := do
  let high ← long
  let low ← long
  return UInt64.ofNat (high.toNat * UInt32.size + low.toNat)

/-- The text up to the next zero byte, which is read too. **On a fault nothing is read.** -/
def text : Reader String := fun cursor =>
  match cursor.rest.dropWhile (· != 0) with
  | [] => .error (.unterminatedText cursor.offset) cursor
  | _ :: after =>
    let front := cursor.rest.takeWhile (· != 0)
    match Bytes.toText? front with
    | none => .error (.invalidText cursor.offset) cursor
    | some value => .ok value { cursor with
        position := cursor.position + (front.length + 1)
        rest := after }

/-- The next `count` bytes as a block of their own, at their absolute offset. -/
def splitOff (count : Nat) : Reader Cursor := do
  let cursor ← get
  let block ← bytes count
  return Cursor.start cursor.offset block

theorem byte_advances : byte.Advances := (bytes_advances 1).bind fun _ => .pure _

theorem byte_consumes : byte.Consumes := (bytes_consumes (by decide)).bind fun _ => .pure _

theorem word_advances : word.Advances := (bytes_advances 2).bind fun _ => .pure _

theorem long_advances : long.Advances := (bytes_advances 4).bind fun _ => .pure _

theorem double_advances : double.Advances :=
  long_advances.bind fun _ => long_advances.bind fun _ => .pure _

theorem text_advances : text.Advances := by
  intro before after value success
  unfold text at success
  split at success
  · cases success
  · rename_i zero tail later
    dsimp only at success
    split at success
    · cases success
    · cases success
      refine ⟨before.rest.takeWhile (· != 0) ++ [zero], rfl, by simp, ?_⟩
      have whole := List.takeWhile_append_dropWhile (p := (· != 0)) (l := before.rest)
      rw [later] at whole
      simpa using whole.symm

/-! ### Repetition -/

/-- Read `count` values after those in `done`. -/
def timesFrom {α : Type} (reader : Reader α) (done : Array α) : Nat → Reader (List α)
  | 0 => return done.toList
  | count + 1 => do
    let value ← reader
    timesFrom reader (done.push value) count

/-- The next `count` values. -/
def times {α : Type} (reader : Reader α) (count : Nat) : Reader (List α) :=
  timesFrom reader #[] count

/-- Read values after those in `done` until the block is used up. -/
def untilEmptyFrom {α : Type} (reader : Reader α) (consumes : reader.Consumes) (done : Array α)
    (cursor : Cursor) : EStateM.Result ReadFault Cursor (List α) :=
  if cursor.isEmpty then .ok done.toList cursor
  else
    match _ : reader cursor with
    | .error fault after => .error fault after
    | .ok value after => untilEmptyFrom reader consumes (done.push value) after
termination_by cursor.rest.length
decreasing_by exact consumes (by assumption)

/-- All values of the block. Each must take a byte at least. -/
def untilEmpty {α : Type} (reader : Reader α) (consumes : reader.Consumes) : Reader (List α) :=
  untilEmptyFrom reader consumes #[]

end Reader

end ActionCode
