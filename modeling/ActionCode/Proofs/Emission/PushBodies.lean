/-
**Bodies of literals, read and written.**

* `PushValue.Occupies`: the bytes of a literal are as many as it is wide, and it is read from them
  whatever follows. `PushValue.Clean`: a literal that can be written.
* `tidied`: the bytes of a literal with one for an operand of a boolean that is true.
  **`images_of_readFrom`**: what is read from bytes is written as those bytes, tidied.
* `exists_parts`: a body that can be read is made of the bytes of its literals.
* **`push_bodies_exact`**: what is written is read back, literal by literal, and what is read is
  written back but for the operands of booleans.
-/

import ActionCode.Proofs.Bytes.Literals
import ActionCode.Proofs.Emission.Records
import Mathlib.Data.List.Forall2

namespace ActionCode

namespace PushValue

/-! ### The bytes of a literal -/

/-- A literal without a null character. -/
def Clean (value : PushValue) : Prop := ∀ text, value = .text text → '\x00' ∉ text.toList

/-- Bytes are those of a literal: as many as it is wide, and it is read from them **whatever
follows**. -/
structure Occupies (value : PushValue) (part : List UInt8) : Prop where
  width : part.length = value.width
  reads : ∀ base position suffix, read ⟨base, position, part ++ suffix⟩ =
    .ok value ⟨base, position + value.width, suffix⟩

theorem ReadFrom.occupies {part : List UInt8} {value : PushValue} (readsAs : ReadFrom part value) :
    value.Occupies part := by
  obtain ⟨image, written, same⟩ := readsAs.image
  have width : part.length = value.width := same.symm.trans (length_of_image written)
  refine ⟨width, ?_⟩
  intro base position suffix
  rw [← width]
  exact readsAs.takes base position suffix

/-- A literal without a null character can be written. -/
theorem Clean.exists_image {value : PushValue} (clean : value.Clean) :
    ∃ image, Field.images value.fields = some image := by
  refine Option.ne_none_iff_exists'.mp (Field.images_ne_none_iff.mpr ?_)
  intro field inside
  by_contra faulty
  obtain ⟨fault, found⟩ := Option.ne_none_iff_exists'.mp faulty
  obtain ⟨text, rfl, null, _⟩ | ⟨kind, size, rfl, _⟩ := Field.eq_of_fault? found
  · have isText := text_mem_fields_iff.mp inside
    cases value with
    | text value =>
      obtain rfl := Option.some.inj isText
      exact clean value rfl null
    | _ => cases isText
  · exact size_notMem_fields inside

/-- What is written for a literal are bytes of it. -/
theorem write_run_iff {value : PushValue} {part : List UInt8} :
    value.write.run = (.ok (), part) ↔ Field.images value.fields = some part :=
  Writer.run_ok_iff (Writer.fields_images value.fields)

/-- Literals are written one after another. -/
theorem forM_write_images (values : List PushValue) :
    Writer.Images (values.forM write) (Field.images (values.flatMap fields)) := by
  induction values with
  | nil => exact .pure
  | cons value rest ih =>
    rw [List.flatMap_cons, Field.images_append]
    exact (Writer.fields_images value.fields).bind ih

/-! ### Operands of booleans -/

/-- The bytes of a literal with one for an operand of a boolean that is not zero. -/
def tidied : List UInt8 → List UInt8
  | [tag, operand] => [tag, if tag = 5 ∧ operand ≠ 0 then 1 else operand]
  | part => part

theorem tidied_of_ne {tag : UInt8} (other : tag ≠ 5) (operand : List UInt8) :
    tidied (tag :: operand) = tag :: operand := by
  match operand with
  | [] | _ :: _ :: _ => rfl
  | [byte] => rw [tidied, if_neg fun boolean => other boolean.1]

/-- What is written is tidy. -/
theorem tidied_image {value : PushValue} {image : List UInt8}
    (written : Field.images value.fields = some image) : tidied image = image := by
  obtain ⟨front, operand, isTag, isOperand, rfl⟩ := joined_eq_some_iff.mp written
  obtain rfl := Option.some.inj isTag
  by_cases boolean : value.tag = 5
  · cases value with
    | boolean value =>
      obtain rfl := Option.some.inj isOperand
      cases value <;> rfl
    | _ => cases boolean
  · exact tidied_of_ne boolean operand

/-- **What is read from bytes is written as those bytes**, tidied. -/
theorem images_of_readFrom {part : List UInt8} {value : PushValue} (readsAs : ReadFrom part value) :
    Field.images value.fields = some (tidied part) := by
  obtain written | ⟨operand, rfl, rfl⟩ := readsAs
  · rw [tidied_image written, written]
  · by_cases zero : operand = 0
    · subst zero
      rfl
    · have isTrue : (operand != 0) = true := bne_iff_ne.mpr zero
      rw [tidied, if_pos ⟨rfl, zero⟩, isTrue]
      rfl

theorem images_of_parts {values : List PushValue} {parts : List (List UInt8)}
    (each : List.Forall₂ (fun value part => ReadFrom part value) values parts) :
    Field.images (values.flatMap fields) = some (parts.map tidied).flatten := by
  induction each with
  | nil => rfl
  | cons readsAs _ ih =>
    rw [List.flatMap_cons, Field.images_append, images_of_readFrom readsAs, ih]
    rfl

/-! ### Bodies of literals -/

/-- A body that can be read is made of the bytes of its literals, one after another. -/
theorem exists_parts {before after : Cursor} {values : List PushValue}
    (success : readAll before = .ok values after) :
    ∃ parts, before.rest = parts.flatten ∧
      List.Forall₂ (fun value part => ReadFrom part value) values parts := by
  suffices general : ∀ (done : Array PushValue) (before : Cursor) {values : List PushValue}
      {after : Cursor}, Reader.untilEmptyFrom read read_consumes done before = .ok values after →
        ∃ later parts, values = done.toList ++ later ∧ before.rest = parts.flatten ∧
          List.Forall₂ (fun value part => ReadFrom part value) later parts by
    obtain ⟨later, parts, rfl, whole, each⟩ := general #[] before success
    exact ⟨parts, whole, each⟩
  intro done before
  fun_induction Reader.untilEmptyFrom read read_consumes done before with
  | case1 done before empty =>
    intro values after success
    cases success
    exact ⟨[], [], (List.append_nil _).symm, List.isEmpty_iff.mp empty, .nil⟩
  | case2 =>
    intro values after success
    cases success
  | case3 done before nonempty value middle found ih =>
    intro values after success
    obtain ⟨later, parts, rfl, whole, each⟩ := ih success
    obtain ⟨used, moved, readsAs⟩ := readFrom_of_read found
    refine ⟨value :: later, used :: parts, ?_, ?_, .cons readsAs each⟩
    · rw [Array.toList_push, List.append_assoc]
      rfl
    · rw [moved.rest, whole]
      rfl

/-- Literals that can be written are written in parts. -/
theorem exists_images {values : List PushValue} (clean : ∀ value ∈ values, value.Clean) :
    ∃ parts, Field.images (values.flatMap fields) = some parts.flatten ∧
      List.Forall₂ (fun value part => Field.images value.fields = some part) values parts := by
  induction values with
  | nil => exact ⟨[], rfl, .nil⟩
  | cons value rest ih =>
    obtain ⟨first, written⟩ := (clean value List.mem_cons_self).exists_image
    obtain ⟨parts, later, each⟩ := ih fun other inside => clean other (List.mem_cons_of_mem _ inside)
    refine ⟨first :: parts, ?_, .cons written each⟩
    rw [List.flatMap_cons, Field.images_append, written, later]
    rfl

end PushValue

/-- **Bodies of literals are read as they were written, and written as they were read.** Literals
without a null character can be written; each is read back from its bytes whatever follows, and all
of them from the bytes of all. The other way around, a body that can be read is made of the bytes of its
literals, and these are written as they were but for the operands of booleans. -/
theorem push_bodies_exact :
    (∀ values : List PushValue, (∀ value ∈ values, value.Clean) →
      ∃ parts, List.Forall₂ (fun value part =>
          value.write.run = (.ok (), part) ∧ value.Occupies part) values parts ∧
        (values.forM PushValue.write).run = (.ok (), parts.flatten) ∧
        ∀ base position, PushValue.readAll ⟨base, position, parts.flatten⟩ =
          .ok values ⟨base, position + parts.flatten.length, []⟩) ∧
    ∀ before values after, PushValue.readAll before = .ok values after →
      after = ⟨before.base, before.position + before.rest.length, []⟩ ∧
      ∃ parts, before.rest = parts.flatten ∧ List.Forall₂ PushValue.Occupies values parts ∧
        (values.forM PushValue.write).run = (.ok (), (parts.map PushValue.tidied).flatten) := by
  constructor
  · intro values clean
    obtain ⟨parts, written, each⟩ := PushValue.exists_images clean
    refine ⟨parts, each.imp ?_, ?_, PushValue.readAll_image written⟩
    · intro value part isPart
      exact ⟨PushValue.write_run_iff.mpr isPart, PushValue.ReadFrom.occupies (.inl isPart)⟩
    · exact (Writer.run_ok_iff (PushValue.forM_write_images values)).mpr written
  · intro before values after success
    obtain ⟨ended, moved, _⟩ := PushValue.readAll_spelled success
    obtain ⟨parts, whole, each⟩ := PushValue.exists_parts success
    refine ⟨?_, parts, whole, each.imp fun _ _ readsAs => readsAs.occupies, ?_⟩
    · obtain ⟨base, position, rest⟩ := after
      obtain ⟨rfl, rfl, _⟩ := moved
      obtain rfl : rest = [] := ended
      rfl
    · exact (Writer.run_ok_iff (PushValue.forM_write_images values)).mpr
        (PushValue.images_of_parts each)

/-- A text is read back, and a boolean with an operand of seven is written with one. -/
theorem push_bodies_exact_boolean :
    (∀ value ∈ [PushValue.text "a", .null], value.Clean) ∧
      ([PushValue.text "a", .null].forM PushValue.write).run.1 = .ok () ∧
      PushValue.readAll (Cursor.start 0 [5, 7, 4, 1]) =
        .ok [.boolean true, .register ⟨1⟩] ⟨0, 4, []⟩ ∧
      ∃ parts : List (List UInt8), [5, 7, 4, 1] = parts.flatten ∧
        ([PushValue.boolean true, .register ⟨1⟩].forM PushValue.write).run =
          (.ok (), (parts.map PushValue.tidied).flatten) := by
  have clean : ∀ value ∈ [PushValue.text "a", .null], value.Clean := by
    intro value inside text isText
    subst isText
    obtain rfl : text = "a" := by simpa using inside
    decide
  have accepted : PushValue.readAll (Cursor.start 0 [5, 7, 4, 1]) =
      .ok [.boolean true, .register ⟨1⟩] ⟨0, 4, []⟩ := by
    cbv
  obtain ⟨_, _, written, _⟩ := push_bodies_exact.1 _ clean
  obtain ⟨_, parts, whole, _, rewritten⟩ := push_bodies_exact.2 _ _ _ accepted
  exact ⟨clean, congrArg Prod.fst written, accepted, parts, whole, rewritten⟩

end ActionCode
