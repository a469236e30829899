/-
**Literals as bytes.**

Literals are read back as they were written. The other way around, the bytes of a literal follow from
it **except for the operand byte of a boolean**, where any byte but zero reads as true.

* `PushValue.read_takes`, **`PushValue.readAll_image`**: reading what was written.
* `booleanOperands`: the operand bytes of the booleans in a body of literals.
* **`PushValue.readAll_spelled`**: a body that can be read has the length of the image of its
  literals, and is that image if its boolean operands are zero or one.
-/

import ActionCode.PushValue
import ActionCode.Proofs.Bytes.Fields

namespace ActionCode

namespace PushValue

/-! ### Reading what was written -/

/-- The offset of a reader is only used in faults. -/
theorem read_takes_of_operand {image : List UInt8} {value : PushValue} (tag : UInt8)
    (operand : ∀ offset, (readOperand tag offset).Takes image value) :
    read.Takes (tag :: image) value := by
  intro base position tail
  unfold read
  rw [bind_ok_iff]
  refine ⟨_, _, rfl, ?_⟩
  rw [bind_ok_iff]
  refine ⟨tag, _, Reader.byte_takes tag base position (image ++ tail), ?_⟩
  rw [operand _ base _ tail, List.length_singleton, List.length_cons, Nat.add_assoc,
    Nat.add_comm 1 image.length]

theorem readOperand_takes {value : PushValue} {image : List UInt8} (offset : Nat)
    (written : Field.images value.operand = some image) :
    (readOperand value.tag offset).Takes image value := by
  cases value with
  | text value =>
    rw [operand, Field.images_cons, Field.images_nil, joined_some_nil] at written
    exact (Reader.text_takes written).map text
  | single word =>
    cases written
    exact (Reader.long_takes word).map single
  | null =>
    cases written
    exact .pure _
  | undefined =>
    cases written
    exact .pure _
  | register source =>
    cases written
    exact (Reader.byte_takes source.index).map fun index => register ⟨index⟩
  | boolean value =>
    cases written
    have whole := (Reader.byte_takes (if value then 1 else 0)).map fun byte => boolean (byte != 0)
    cases value <;> exact whole
  | double word => exact (Reader.double_takes written).map double
  | integer value =>
    cases written
    have whole := (Reader.long_takes value.toUInt32).map fun word => integer word.toInt32
    exact whole
  | constant8 index =>
    cases written
    exact (Reader.byte_takes index).map constant8
  | constant16 index =>
    cases written
    exact (Reader.word_takes index).map constant16

/-- A literal that was written is read back. -/
theorem read_takes {value : PushValue} {image : List UInt8}
    (written : Field.images value.fields = some image) : read.Takes image value := by
  obtain ⟨front, back, first, rest, rfl⟩ := joined_eq_some_iff.mp written
  cases first
  exact read_takes_of_operand value.tag fun offset => readOperand_takes offset rest

/-- **Any byte but zero is true.** -/
theorem read_takes_boolean (operand : UInt8) : read.Takes [5, operand] (.boolean (operand != 0)) :=
  read_takes_of_operand 5 fun _ => (Reader.byte_takes operand).map fun byte => boolean (byte != 0)

/-! ### What a literal was read from -/

/-- The bytes a literal can be read from: its image, or a boolean tag and any operand. -/
def ReadFrom (used : List UInt8) (value : PushValue) : Prop :=
  Field.images value.fields = some used ∨
    ∃ operand, used = [5, operand] ∧ value = .boolean (operand != 0)

/-- The layout of a literal whose operand spells its tag and the bytes of the operand. -/
theorem readFrom_of_operand {tag : UInt8} {used : List UInt8} {value : PushValue}
    (same : tag = value.tag) (spelled : Field.images value.operand = some used) :
    ReadFrom (tag :: used) value := by
  refine .inl ?_
  rw [fields, Field.images_cons, spelled, same]
  rfl

theorem readFrom_of_readOperand {tag : UInt8} {offset : Nat} {before after : Cursor}
    {value : PushValue} (success : readOperand tag offset before = .ok value after) :
    ∃ used, Cursor.Moved used before after ∧ ReadFrom (tag :: used) value := by
  unfold readOperand at success
  split at success
  · obtain ⟨text, found, rfl⟩ := Reader.bind_pure_ok_iff.mp success
    obtain ⟨used, moved, spelled⟩ := Reader.text_spells found
    exact ⟨used, moved, readFrom_of_operand rfl spelled⟩
  · obtain ⟨word, found, rfl⟩ := Reader.bind_pure_ok_iff.mp success
    obtain ⟨used, moved, spelled⟩ := Reader.long_spells found
    exact ⟨used, moved, readFrom_of_operand rfl spelled⟩
  · obtain ⟨rfl, rfl⟩ := Reader.pure_ok_iff.mp success
    exact ⟨[], .refl _, readFrom_of_operand rfl rfl⟩
  · obtain ⟨rfl, rfl⟩ := Reader.pure_ok_iff.mp success
    exact ⟨[], .refl _, readFrom_of_operand rfl rfl⟩
  · obtain ⟨byte, found, rfl⟩ := Reader.bind_pure_ok_iff.mp success
    obtain ⟨used, moved, spelled⟩ := Reader.byte_spells found
    exact ⟨used, moved, readFrom_of_operand rfl spelled⟩
  · obtain ⟨byte, found, rfl⟩ := Reader.bind_pure_ok_iff.mp success
    obtain ⟨used, moved, spelled⟩ := Reader.byte_spells found
    cases spelled
    exact ⟨[byte], moved, .inr ⟨byte, rfl, rfl⟩⟩
  · obtain ⟨word, found, rfl⟩ := Reader.bind_pure_ok_iff.mp success
    obtain ⟨used, moved, spelled⟩ := Reader.double_spells found
    exact ⟨used, moved, readFrom_of_operand rfl spelled⟩
  · obtain ⟨word, found, rfl⟩ := Reader.bind_pure_ok_iff.mp success
    obtain ⟨used, moved, spelled⟩ := Reader.long_spells found
    exact ⟨used, moved, readFrom_of_operand rfl spelled⟩
  · obtain ⟨byte, found, rfl⟩ := Reader.bind_pure_ok_iff.mp success
    obtain ⟨used, moved, spelled⟩ := Reader.byte_spells found
    exact ⟨used, moved, readFrom_of_operand rfl spelled⟩
  · obtain ⟨word, found, rfl⟩ := Reader.bind_pure_ok_iff.mp success
    obtain ⟨used, moved, spelled⟩ := Reader.word_spells found
    exact ⟨used, moved, readFrom_of_operand rfl spelled⟩
  · cases success

/-- A literal that was read was read from bytes of its own. -/
theorem readFrom_of_read {before after : Cursor} {value : PushValue}
    (success : read before = .ok value after) :
    ∃ used, Cursor.Moved used before after ∧ ReadFrom used value := by
  obtain ⟨_, _, here, success'⟩ := bind_ok_iff.mp success
  cases here
  obtain ⟨tag, middle, found, operand⟩ := bind_ok_iff.mp success'
  obtain ⟨used, moved, spelled⟩ := Reader.byte_spells found
  cases spelled
  obtain ⟨further, moved', readsAs⟩ := readFrom_of_readOperand operand
  exact ⟨tag :: further, moved.trans moved', readsAs⟩

theorem ReadFrom.takes {used : List UInt8} {value : PushValue} (readsAs : ReadFrom used value) :
    read.Takes used value := by
  obtain written | ⟨operand, rfl, rfl⟩ := readsAs
  · exact read_takes written
  · exact read_takes_boolean operand

/-- The bytes of a literal are as many as its width says. -/
theorem length_of_image {value : PushValue} {bytes : List UInt8}
    (written : Field.images value.fields = some bytes) : bytes.length = value.width :=
  (Field.length_of_images written).trans value.totalWidth_fields

theorem length_of_imageAll {values : List PushValue} {bytes : List UInt8}
    (written : Field.images (values.flatMap fields) = some bytes) :
    bytes.length = (values.map width).sum := by
  rw [Field.length_of_images written, totalWidth_flatMap_fields, totalOf_eq_sum]

/-- A literal that was read can be written, in as many bytes. -/
theorem ReadFrom.image {used : List UInt8} {value : PushValue} (readsAs : ReadFrom used value) :
    ∃ image, Field.images value.fields = some image ∧ image.length = used.length := by
  obtain written | ⟨operand, rfl, rfl⟩ := readsAs
  · exact ⟨used, written, rfl⟩
  · exact ⟨[5, if operand != 0 then 1 else 0], rfl, rfl⟩

end PushValue

/-! ### Bodies of literals -/

/-- The operand byte of a boolean, if the bytes begin with one. -/
def booleanOperand : List UInt8 → List UInt8
  | 5 :: operand :: _ => [operand]
  | _ => []

/-- The operand bytes of the booleans in a body of literals. -/
def booleanOperands (body : List UInt8) : List UInt8 :=
  match _found : PushValue.read (Cursor.start 0 body) with
  | .error _ _ => []
  | .ok _ next => booleanOperand body ++ booleanOperands next.rest
termination_by body.length
decreasing_by exact PushValue.read_consumes _found

namespace PushValue

/-- The image of a literal read from its bytes is those bytes, unless they hold a boolean with an
operand above one. -/
theorem ReadFrom.image_eq {used rest : List UInt8} {value : PushValue}
    (readsAs : ReadFrom used value) (tidy : ∀ byte ∈ booleanOperand (used ++ rest), byte = 0 ∨ byte = 1) :
    Field.images value.fields = some used := by
  obtain written | ⟨operand, rfl, rfl⟩ := readsAs
  · exact written
  · have small : operand = 0 ∨ operand = 1 := tidy operand (by simp [booleanOperand])
    obtain rfl | rfl := small <;> rfl

theorem booleanOperands_of_readFrom {used rest : List UInt8} {value : PushValue}
    (readsAs : ReadFrom used value) :
    booleanOperands (used ++ rest) = booleanOperand (used ++ rest) ++ booleanOperands rest := by
  rw [booleanOperands]
  have found : read (Cursor.start 0 (used ++ rest)) = .ok value ⟨0, 0 + used.length, rest⟩ :=
    readsAs.takes 0 0 rest
  split
  · rename_i equal
    rw [found] at equal
    cases equal
  · rename_i equal
    rw [found] at equal
    cases equal
    rfl

/-- **A body that was written is read back.** -/
theorem readAll_image {values : List PushValue} {image : List UInt8}
    (written : Field.images (values.flatMap fields) = some image) (base position : Nat) :
    readAll ⟨base, position, image⟩ = .ok values ⟨base, position + image.length, []⟩ := by
  suffices general : ∀ (done : Array PushValue) (position : Nat),
      Reader.untilEmptyFrom read read_consumes done ⟨base, position, image⟩ =
        .ok (done.toList ++ values) ⟨base, position + image.length, []⟩ from
    general #[] position
  induction values generalizing image with
  | nil =>
    cases written
    intro done position
    have ended : (Cursor.mk base position []).isEmpty = true := rfl
    rw [Reader.untilEmptyFrom, if_pos ended, List.append_nil]
    rfl
  | cons value values ih =>
    intro done position
    rw [List.flatMap_cons, Field.images_append] at written
    obtain ⟨front, back, first, rest, rfl⟩ := joined_eq_some_iff.mp written
    have found := read_takes first base position back
    have filled : 0 < (front ++ back).length := by
      have long := length_of_image first
      have positive := value.width_pos
      rw [List.length_append]
      omega
    rw [Reader.untilEmptyFrom, if_neg (Cursor.nonempty_iff.mpr filled)]
    split
    · rename_i equal
      rw [found] at equal
      cases equal
    · rename_i equal
      rw [found] at equal
      cases equal
      rw [ih rest (done.push value) (position + front.length), Array.toList_push,
        List.append_assoc, List.length_append, Nat.add_assoc]
      rfl

/-- **A body that can be read has the length of the image of its literals**, and is that image if
its boolean operands are zero or one. -/
theorem readAll_spelled {before after : Cursor} {values : List PushValue}
    (success : readAll before = .ok values after) :
    after.rest = [] ∧ Cursor.Moved before.rest before after ∧
      ∃ image, Field.images (values.flatMap fields) = some image ∧
        image.length = before.rest.length ∧
        ((∀ byte ∈ booleanOperands before.rest, byte = 0 ∨ byte = 1) → image = before.rest) := by
  suffices general : ∀ (done : Array PushValue) (before : Cursor) {values : List PushValue}
      {after : Cursor}, Reader.untilEmptyFrom read read_consumes done before = .ok values after →
        ∃ read, values = done.toList ++ read ∧ after.rest = [] ∧
          Cursor.Moved before.rest before after ∧
          ∃ image, Field.images (read.flatMap fields) = some image ∧
            image.length = before.rest.length ∧
            ((∀ byte ∈ booleanOperands before.rest, byte = 0 ∨ byte = 1) →
              image = before.rest) by
    obtain ⟨read, rfl, ended, moved, image⟩ := general #[] before success
    exact ⟨ended, moved, image⟩
  intro done before
  fun_induction Reader.untilEmptyFrom read read_consumes done before with
  | case1 done before empty =>
    intro values after success
    cases success
    have ended : before.rest = [] := List.isEmpty_iff.mp empty
    refine ⟨[], (List.append_nil _).symm, ended, ?_, [], rfl, by rw [ended], fun _ => ended.symm⟩
    rw [ended]
    exact .refl _
  | case2 =>
    intro values after success
    cases success
  | case3 done before nonempty value middle found ih =>
    intro values after success
    obtain ⟨read, rfl, ended, moved, image, written, long, same⟩ := ih success
    obtain ⟨used, moved', readsAs⟩ := readFrom_of_read found
    obtain ⟨first, written', long'⟩ := readsAs.image
    have whole : before.rest = used ++ middle.rest := moved'.rest
    refine ⟨value :: read, ?_, ended, ?_, first ++ image, ?_, ?_, ?_⟩
    · rw [Array.toList_push, List.append_assoc]
      rfl
    · rw [whole]
      exact moved'.trans moved
    · rw [List.flatMap_cons, Field.images_append, written', written]
      rfl
    · rw [List.length_append, long, long', whole, List.length_append]
    · intro tidy
      rw [whole, booleanOperands_of_readFrom readsAs] at tidy
      have early := readsAs.image_eq fun byte inside => tidy byte (List.mem_append_left _ inside)
      have late := same fun byte inside => tidy byte (List.mem_append_right _ inside)
      rw [early] at written'
      cases written'
      rw [late, whole]

end PushValue

end ActionCode
