/-
**Fields as bytes, written and read.**

The bytes of a field do not depend on where it is written: they are its `image`, and a field that
cannot be written has none.

* `ofBytes_toBytes`, `toBytes_ofBytes`: the numbers below `256 ^ width` are lists of `width` bytes.
* `Writer.Images`: a writer that appends exactly an image, and fails if there is none;
  **`fields_images`** for a layout.
* `Reader.Takes`: a reader that finds an image at the front takes it off **whatever follows**, and
  gives a value.
* `Reader.Spells`: a reader that succeeds has moved over the image of the layout of its value.
-/

import ActionCode.Bytes.Cursor
import ActionCode.Bytes.Output
import Mathlib.Algebra.Ring.Nat
import Mathlib.Data.List.TakeWhile
import Mathlib.Tactic.Common

namespace ActionCode

/-! ### Numbers -/

theorem totalOf_eq_sum {α : Type} (measure : α → Nat) (items : List α) :
    totalOf measure items = (items.map measure).sum := by
  induction items with
  | nil => rfl
  | cons item rest ih => rw [totalOf_cons, ih, List.map_cons, List.sum_cons]

namespace Bytes

theorem ofBytes_lt (bytes : List UInt8) : ofBytes bytes < 256 ^ bytes.length := by
  induction bytes with
  | nil => simp [ofBytes]
  | cons byte rest ih =>
    have := byte.toNat_lt
    simp only [ofBytes, List.length_cons, Nat.pow_succ]
    omega

/-- **Writing a number and reading it back gives its remainder.** -/
theorem ofBytes_toBytes (width value : Nat) :
    ofBytes (toBytes width value) = value % 256 ^ width := by
  induction width generalizing value with
  | zero => simp [toBytes, ofBytes, Nat.mod_one]
  | succ width ih =>
    rw [toBytes, ofBytes, ih, Nat.pow_succ, Nat.mul_comm (256 ^ width) 256, Nat.mod_mul]
    simp [UInt8.toNat_ofNat']

/-- **Reading bytes and writing the number gives the bytes.** -/
theorem toBytes_ofBytes (bytes : List UInt8) : toBytes bytes.length (ofBytes bytes) = bytes := by
  induction bytes with
  | nil => rfl
  | cons byte rest ih =>
    have := byte.toNat_lt
    have low : UInt8.ofNat (byte.toNat + 256 * ofBytes rest) = byte := by
      apply UInt8.toNat_inj.mp
      rw [UInt8.toNat_ofNat']
      omega
    have high : (byte.toNat + 256 * ofBytes rest) / 256 = ofBytes rest := by omega
    simp only [List.length_cons, toBytes, ofBytes, low, high, ih]

end Bytes

/-! ### Images -/

/-- One image after another; none if either is none. -/
def joined (front back : Option (List UInt8)) : Option (List UInt8) :=
  front.bind fun first => back.map fun second => first ++ second

theorem joined_eq_some_iff {front back : Option (List UInt8)} {bytes : List UInt8} :
    joined front back = some bytes ↔
      ∃ first second, front = some first ∧ back = some second ∧ bytes = first ++ second := by
  cases front <;> cases back <;> simp [joined, eq_comm]

@[simp]
theorem joined_some_nil (front : Option (List UInt8)) : joined front (some []) = front := by
  cases front <;> simp [joined]

@[simp]
theorem joined_nil_some (back : Option (List UInt8)) : joined (some []) back = back := by
  cases back <;> simp [joined]

theorem joined_assoc (first second third : Option (List UInt8)) :
    joined (joined first second) third = joined first (joined second third) := by
  cases first <;> cases second <;> cases third <;> simp [joined]

namespace Field

/-- The bytes of a field, if it can be written. -/
def image : Field → Option (List UInt8)
  | .byte value => some [value]
  | .word value => some (Bytes.toBytes 2 value.toNat)
  | .long value => some (Bytes.toBytes 4 value.toNat)
  | .size field value => if field.fits value then some (Bytes.toBytes 2 value) else none
  | .text value =>
    if (Bytes.ofText value).contains 0 then none else some (Bytes.ofText value ++ [0])
  | .raw value => some value

/-- The bytes of a layout, if all its fields can be written. -/
def images : List Field → Option (List UInt8)
  | [] => some []
  | field :: fields => joined field.image (images fields)

@[simp]
theorem images_nil : images [] = some [] := rfl

@[simp]
theorem images_cons (field : Field) (fields : List Field) :
    images (field :: fields) = joined field.image (images fields) := rfl

theorem images_append (front back : List Field) :
    images (front ++ back) = joined (images front) (images back) := by
  induction front with
  | nil => rw [List.nil_append, images_nil, joined_nil_some]
  | cons field fields ih => rw [List.cons_append, images_cons, ih, images_cons, joined_assoc]

/-- The image of a field is as long as the field is wide. -/
theorem length_of_image {field : Field} {bytes : List UInt8} (found : field.image = some bytes) :
    bytes.length = field.width := by
  cases field with
  | byte value => cases found; rfl
  | word value => cases found; exact Bytes.length_toBytes _ _
  | long value => cases found; exact Bytes.length_toBytes _ _
  | size field value =>
    rw [image] at found
    split at found
    · cases found; exact Bytes.length_toBytes _ _
    · cases found
  | text value =>
    rw [image] at found
    split at found
    · cases found
    · cases found
      rw [List.length_append, Bytes.length_ofText]
      rfl
  | raw value => cases found; rfl

/-- The image of a layout is as long as the layout is wide. -/
theorem length_of_images {fields : List Field} {bytes : List UInt8}
    (found : images fields = some bytes) : bytes.length = totalWidth fields := by
  induction fields generalizing bytes with
  | nil => cases found; rfl
  | cons field fields ih =>
    obtain ⟨first, second, front, back, rfl⟩ := joined_eq_some_iff.mp found
    rw [List.length_append, length_of_image front, ih back, totalWidth_cons]

end Field

/-! ### Writers -/

/-- What comes next in a computation begins where the first part ends. -/
theorem bind_ok_iff {ε σ α β : Type} {first : EStateM ε σ α} {next : α → EStateM ε σ β}
    {before after : σ} {result : β} :
    (first >>= next) before = .ok result after ↔
      ∃ value middle, first before = .ok value middle ∧ next value middle = .ok result after := by
  change EStateM.bind first next before = _ ↔ _
  unfold EStateM.bind
  split
  · rename_i equal
    constructor
    · exact fun success => ⟨_, _, equal, success⟩
    · rintro ⟨value, middle, found, success⟩
      rw [equal] at found
      cases found
      exact success
  · rename_i equal
    constructor
    · intro success
      cases success
    · rintro ⟨value, middle, found, _⟩
      rw [equal] at found
      cases found

namespace Writer

/-- A writer that appends an image, and fails if there is none. -/
def Images (writer : Writer Unit) (image : Option (List UInt8)) : Prop :=
  ∀ output output' : Array UInt8,
    writer output = .ok () output' ↔ ∃ bytes, image = some bytes ∧ output' = output ++ bytes

/-- A writer has one image. -/
theorem Images.unique {writer : Writer Unit} {image other : Option (List UInt8)}
    (first : Images writer image) (second : Images writer other) : image = other := by
  apply Option.ext
  intro bytes
  have same : ∀ image : Option (List UInt8), Images writer image →
      (image = some bytes ↔ writer #[] = .ok () ((#[] : Array UInt8) ++ bytes)) := by
    intro image images
    rw [images]
    constructor
    · exact fun equal => ⟨bytes, equal, rfl⟩
    · rintro ⟨found, equal, appended⟩
      have bytesEqual : bytes = found := by
        simpa using congrArg Array.toList appended
      rw [equal, bytesEqual]
  rw [same image first, same other second]

theorem Images.pure : Images (pure ()) (some []) := by
  intro output output'
  constructor
  · intro success
    cases success
    exact ⟨[], rfl, by simp⟩
  · rintro ⟨bytes, equal, rfl⟩
    cases equal
    simp [Pure.pure, EStateM.pure]

theorem Images.bytes (block : List UInt8) : Images (bytes block) (some block) := by
  intro output output'
  constructor
  · intro success
    cases success
    exact ⟨block, rfl, rfl⟩
  · rintro ⟨found, equal, rfl⟩
    cases equal
    rfl

theorem Images.throw (fault : WriteFault) : Images (throw fault) none := by
  intro output output'
  constructor
  · intro success
    cases success
  · rintro ⟨bytes, equal, _⟩
    cases equal

/-- Appending twice appends both. -/
theorem append_append (output : Array UInt8) (first second : List UInt8) :
    output ++ first ++ second = output ++ (first ++ second) := by
  apply Array.toList_inj.mp
  simp

theorem Images.bind {first second : Writer Unit} {front back : Option (List UInt8)}
    (early : Images first front) (late : Images second back) :
    Images (first >>= fun _ => second) (joined front back) := by
  intro output output'
  rw [bind_ok_iff]
  constructor
  · rintro ⟨_, middle, success, success'⟩
    obtain ⟨bytes, rfl, rfl⟩ := (early _ _).mp success
    obtain ⟨bytes', rfl, rfl⟩ := (late _ _).mp success'
    exact ⟨bytes ++ bytes', rfl, append_append output bytes bytes'⟩
  · rintro ⟨bytes, whole, rfl⟩
    obtain ⟨before, after, frontIs, backIs, rfl⟩ := joined_eq_some_iff.mp whole
    exact ⟨(), output ++ before, (early _ _).mpr ⟨before, frontIs, rfl⟩,
      (late _ _).mpr ⟨after, backIs, (append_append output before after).symm⟩⟩

theorem text_images (value : String) : Images (text value) (Field.text value).image := by
  by_cases inside : (Bytes.ofText value).contains 0 = true
  · rw [text, Field.image, if_pos inside, if_pos inside]
    exact .throw _
  · rw [text, Field.image, if_neg inside, if_neg inside]
    exact .bytes _

theorem size_images (field : SizeField) (value : Nat) :
    Images (size field value) (Field.size field value).image := by
  by_cases fits : field.fits value = true
  · rw [size, Field.image, if_pos fits, if_pos fits]
    exact .bytes _
  · rw [size, Field.image, if_neg fits, if_neg fits]
    exact .throw _

theorem field_images (field : Field) : Images (Writer.field field) field.image := by
  cases field with
  | byte value => exact .bytes _
  | word value => exact .bytes _
  | long value => exact .bytes _
  | size field value => exact size_images field value
  | text value => exact text_images value
  | raw value => exact .bytes _

/-- **A layout is written as its image.** -/
theorem fields_images (layout : List Field) : Images (fields layout) (Field.images layout) := by
  induction layout with
  | nil => exact .pure
  | cons field layout ih => exact (field_images field).bind ih

/-- The head of a record: an opcode and the length of the body that follows. -/
theorem header_images (opcode : UInt8) (length : Nat) :
    Images (header opcode length)
      (Field.images [.byte opcode, .size .bodyLength length]) := by
  unfold header
  split
  · rename_i fits
    have whole : Field.images [.byte opcode, .size .bodyLength length] =
        some (opcode :: Bytes.toBytes 2 length) := by
      simp [Field.image, joined, fits]
    rw [whole]
    exact .bytes _
  · rename_i tooLong
    have whole : Field.images [.byte opcode, .size .bodyLength length] = none := by
      simp [Field.image, joined, tooLong]
    rw [whole]
    exact .throw _

/-- The outcome of a writer on an empty output is its image. -/
theorem run_ok_iff {writer : Writer Unit} {image : Option (List UInt8)}
    (images : Images writer image) {bytes : List UInt8} :
    writer.run = (.ok (), bytes) ↔ image = some bytes := by
  unfold run
  constructor
  · intro success
    split at success
    · rename_i value output equal
      obtain ⟨found, rfl, rfl⟩ := (images _ _).mp equal
      have same := congrArg Prod.snd success
      simpa using same
    · cases congrArg Prod.fst success
  · rintro rfl
    rw [(images #[] (#[] ++ bytes)).mpr ⟨bytes, rfl, rfl⟩]
    simp

end Writer

/-! ### Readers -/

namespace Reader

/-- A reader that takes an image off the front, whatever follows, and gives a value. -/
def Takes {α : Type} (reader : Reader α) (image : List UInt8) (value : α) : Prop :=
  ∀ (base position : Nat) (tail : List UInt8),
    reader ⟨base, position, image ++ tail⟩ = .ok value ⟨base, position + image.length, tail⟩

/-- A reader that succeeds has moved over the image of the layout of its value. -/
def Spells {α : Type} (reader : Reader α) (layout : α → List Field) : Prop :=
  ∀ ⦃before after : Cursor⦄ ⦃value : α⦄, reader before = .ok value after →
    ∃ used, Cursor.Moved used before after ∧ Field.images (layout value) = some used

theorem pure_ok_iff {α : Type} {value result : α} {before after : Cursor} :
    (pure value : Reader α) before = .ok result after ↔ value = result ∧ before = after := by
  constructor
  · intro success
    cases success
    exact ⟨rfl, rfl⟩
  · rintro ⟨rfl, rfl⟩
    rfl

/-- What is built from a value is read if the value is. -/
theorem bind_pure_ok_iff {α β : Type} {reader : Reader α} {build : α → β} {before after : Cursor}
    {result : β} :
    (reader >>= fun value => Pure.pure (build value)) before = .ok result after ↔
      ∃ value, reader before = .ok value after ∧ build value = result := by
  rw [bind_ok_iff]
  constructor
  · rintro ⟨value, middle, found, built⟩
    obtain ⟨rfl, rfl⟩ := pure_ok_iff.mp built
    exact ⟨value, found, rfl⟩
  · rintro ⟨value, found, rfl⟩
    exact ⟨value, after, found, rfl⟩

/-! #### Taking images -/

theorem Takes.pure {α : Type} (value : α) : Takes (pure value) [] value := by
  intro base position tail
  rfl

theorem Takes.bind {α β : Type} {reader : Reader α} {next : α → Reader β}
    {front back : List UInt8} {value : α} {result : β} (first : reader.Takes front value)
    (second : (next value).Takes back result) : Takes (reader >>= next) (front ++ back) result := by
  intro base position tail
  rw [bind_ok_iff]
  refine ⟨value, ⟨base, position + front.length, back ++ tail⟩, ?_, ?_⟩
  · rw [List.append_assoc]
    exact first base position (back ++ tail)
  · rw [List.length_append, ← Nat.add_assoc]
    exact second base (position + front.length) tail

/-- The value may be rebuilt from what was read. -/
theorem Takes.map {α β : Type} {reader : Reader α} {image : List UInt8} {value : α}
    (takes : reader.Takes image value) (build : α → β) :
    Takes (reader >>= fun read => Pure.pure (build read)) image (build value) := by
  have whole : Takes (reader >>= fun read => Pure.pure (build read)) (image ++ []) (build value) :=
    takes.bind (Takes.pure (build value))
  rwa [List.append_nil] at whole

theorem bytes_takes (block : List UInt8) : (bytes block.length).Takes block block := by
  intro base position tail
  unfold bytes
  dsimp only
  rw [List.take_left' rfl, List.drop_left' rfl, if_pos rfl]

theorem byte_takes (value : UInt8) : byte.Takes [value] value := by
  have whole := (bytes_takes [value]).map fun block => UInt8.ofNat (Bytes.ofBytes block)
  have same : UInt8.ofNat (Bytes.ofBytes [value]) = value := by simp [Bytes.ofBytes]
  rw [same] at whole
  exact whole

/-- A number is read back from its bytes if there are enough of them. -/
theorem number_takes {α : Type} {build : Nat → α} {value : α} {width number : Nat}
    (built : build number = value) (small : number < 256 ^ width) :
    Takes (bytes width >>= fun block => Pure.pure (build (Bytes.ofBytes block)))
      (Bytes.toBytes width number) value := by
  have whole := (bytes_takes (Bytes.toBytes width number)).map fun block =>
    build (Bytes.ofBytes block)
  rwa [Bytes.ofBytes_toBytes, Nat.mod_eq_of_lt small, built, Bytes.length_toBytes] at whole

theorem word_takes (value : UInt16) : word.Takes (Bytes.toBytes 2 value.toNat) value :=
  number_takes UInt16.ofNat_toNat (value.toNat_lt.trans_eq (by decide))

theorem long_takes (value : UInt32) : long.Takes (Bytes.toBytes 4 value.toNat) value :=
  number_takes UInt32.ofNat_toNat (value.toNat_lt.trans_eq (by decide))

/-- The two words of a double hold all its bits. -/
theorem double_of_words (value : UInt64) :
    UInt64.ofNat ((UInt32.ofNat (value.toNat / UInt32.size)).toNat * UInt32.size +
      (UInt32.ofNat value.toNat).toNat) = value := by
  have bound := value.toNat_lt
  rw [show UInt32.size = 2 ^ 32 from rfl]
  have high : (UInt32.ofNat (value.toNat / 2 ^ 32)).toNat = value.toNat / 2 ^ 32 := by
    rw [UInt32.toNat_ofNat']
    exact Nat.mod_eq_of_lt (by omega)
  have low : (UInt32.ofNat value.toNat).toNat = value.toNat % 2 ^ 32 := UInt32.toNat_ofNat'
  rw [high, low]
  have whole : value.toNat / 2 ^ 32 * 2 ^ 32 + value.toNat % 2 ^ 32 = value.toNat := by omega
  rw [whole, UInt64.ofNat_toNat]

theorem double_takes {value : UInt64} {image : List UInt8}
    (written : Field.images (Field.double value) = some image) : double.Takes image value := by
  cases written
  unfold double
  refine Takes.bind (long_takes (UInt32.ofNat (value.toNat / UInt32.size))) ?_
  have whole := (long_takes (UInt32.ofNat value.toNat)).map fun low => UInt64.ofNat
    ((UInt32.ofNat (value.toNat / UInt32.size)).toNat * UInt32.size + low.toNat)
  rw [double_of_words] at whole
  exact whole

theorem text_takes {value : String} {image : List UInt8}
    (written : (Field.text value).image = some image) : text.Takes image value := by
  unfold Field.image at written
  dsimp only at written
  split at written
  · cases written
  · rename_i clean
    cases written
    intro base position tail
    have nonzero : ∀ byte ∈ Bytes.ofText value, (byte != 0) = true := by
      intro byte inside
      rw [bne_iff_ne]
      rintro rfl
      exact clean (List.contains_iff_mem.mpr inside)
    have front : (Bytes.ofText value ++ [0] ++ tail).takeWhile (· != 0) = Bytes.ofText value := by
      rw [List.append_assoc, List.takeWhile_append_of_pos nonzero]
      simp
    have back : (Bytes.ofText value ++ [0] ++ tail).dropWhile (· != 0) = 0 :: tail := by
      rw [List.append_assoc, List.dropWhile_append_of_pos nonzero]
      simp
    unfold text
    dsimp only
    rw [back]
    dsimp only
    rw [front, Bytes.toText?_eq_some_iff.mpr rfl, List.length_append]
    rfl

/-- The next bytes, as a block of their own. -/
theorem splitOff_takes (base position : Nat) (block tail : List UInt8) :
    splitOff block.length ⟨base, position, block ++ tail⟩ =
      .ok (Cursor.start (base + position) block) ⟨base, position + block.length, tail⟩ := by
  unfold splitOff
  rw [bind_ok_iff]
  refine ⟨⟨base, position, block ++ tail⟩, _, rfl, ?_⟩
  rw [bind_ok_iff]
  exact ⟨block, _, bytes_takes block base position tail, rfl⟩

/-! #### Spelling values -/

theorem byte_spells : byte.Spells fun value => [.byte value] := by
  intro before after value success
  obtain ⟨block, found, rfl⟩ := bind_pure_ok_iff.mp success
  obtain ⟨moved, full⟩ := moved_of_bytes found
  refine ⟨block, moved, ?_⟩
  obtain ⟨byte, rfl⟩ := List.length_eq_one_iff.mp full
  simp [Field.image, joined, Bytes.ofBytes]

/-- A number that was read has the bytes that it was read from. -/
theorem number_spells {α : Type} {build : Nat → α} {field : α → Field} {width : Nat}
    (spelled : ∀ number < 256 ^ width,
      (field (build number)).image = some (Bytes.toBytes width number)) :
    Spells (bytes width >>= fun block => Pure.pure (build (Bytes.ofBytes block)))
      fun value => [field value] := by
  intro before after value success
  obtain ⟨block, found, rfl⟩ := bind_pure_ok_iff.mp success
  obtain ⟨moved, full⟩ := moved_of_bytes found
  refine ⟨block, moved, ?_⟩
  have bound := Bytes.ofBytes_lt block
  have same := Bytes.toBytes_ofBytes block
  rw [full] at bound same
  rw [Field.images_cons, Field.images_nil, spelled _ bound, same, joined_some_nil]

theorem word_spells : word.Spells fun value => [.word value] :=
  number_spells fun number small => by
    rw [Field.image, UInt16.toNat_ofNat_of_lt' (small.trans_eq (by decide))]

theorem long_spells : long.Spells fun value => [.long value] :=
  number_spells fun number small => by
    rw [Field.image, UInt32.toNat_ofNat_of_lt' (small.trans_eq (by decide))]

theorem double_spells : double.Spells Field.double := by
  intro before after value success
  obtain ⟨high, middle, found, success'⟩ := bind_ok_iff.mp success
  obtain ⟨low, found', rfl⟩ := bind_pure_ok_iff.mp success'
  obtain ⟨used, moved, spelled⟩ := long_spells found
  obtain ⟨used', moved', spelled'⟩ := long_spells found'
  refine ⟨used ++ used', moved.trans moved', ?_⟩
  have highBound := high.toNat_lt
  have lowBound := low.toNat_lt
  have number : (UInt64.ofNat (high.toNat * 2 ^ 32 + low.toNat)).toNat =
      high.toNat * 2 ^ 32 + low.toNat := by
    rw [UInt64.toNat_ofNat']
    exact Nat.mod_eq_of_lt (by omega)
  have highWord : UInt32.ofNat ((high.toNat * 2 ^ 32 + low.toNat) / 2 ^ 32) = high := by
    have quotient : (high.toNat * 2 ^ 32 + low.toNat) / 2 ^ 32 = high.toNat := by omega
    rw [quotient, UInt32.ofNat_toNat]
  have lowWord : UInt32.ofNat (high.toNat * 2 ^ 32 + low.toNat) = low := by
    apply UInt32.toNat_inj.mp
    rw [UInt32.toNat_ofNat']
    omega
  have split : Field.double (UInt64.ofNat (high.toNat * UInt32.size + low.toNat)) =
      [.long high] ++ [.long low] := by
    rw [Field.double, show UInt32.size = 2 ^ 32 from rfl, number, highWord, lowWord]
    rfl
  rw [split, Field.images_append, spelled, spelled']
  rfl

theorem text_spells : text.Spells fun value => [.text value] := by
  intro before after value success
  unfold text at success
  split at success
  · cases success
  · rename_i zero tail later
    dsimp only at success
    split at success
    · cases success
    · rename_i found
      cases success
      have whole := List.takeWhile_append_dropWhile (p := (· != 0)) (l := before.rest)
      rw [later] at whole
      have isZero : zero = 0 := by
        have stopped := List.head_dropWhile_not (· != 0) (l := before.rest) (by rw [later]; simp)
        simp only [later, List.head_cons] at stopped
        simpa using stopped
      subst isZero
      have bytes := Bytes.toText?_eq_some_iff.mp found
      have clean : (Bytes.ofText value).contains 0 = false := by
        rw [← bytes, ← Bool.not_eq_true, List.contains_iff_mem]
        intro inside
        simpa using List.mem_takeWhile_imp inside
      refine ⟨Bytes.ofText value ++ [0], ⟨rfl, ?_, ?_⟩, ?_⟩
      · rw [bytes, List.length_append]
        rfl
      · rw [← bytes, List.append_assoc]
        exact whole.symm
      · rw [Field.images_cons, Field.images_nil, joined_some_nil, Field.image, clean]
        rfl

/-! #### Repetition -/

theorem timesFrom_takes {α : Type} {reader : Reader α} {layout : α → List Field}
    (takes : ∀ value image, Field.images (layout value) = some image → reader.Takes image value)
    (values : List α) (done : Array α) {image : List UInt8}
    (written : Field.images (values.flatMap layout) = some image) :
    (timesFrom reader done values.length).Takes image (done.toList ++ values) := by
  induction values generalizing done image with
  | nil =>
    cases written
    rw [List.append_nil]
    exact .pure _
  | cons value values ih =>
    rw [List.flatMap_cons, Field.images_append] at written
    obtain ⟨front, back, first, rest, rfl⟩ := joined_eq_some_iff.mp written
    refine Takes.bind (takes value front first) ?_
    have tail := ih (done.push value) rest
    rw [Array.toList_push, List.append_assoc] at tail
    exact tail

/-- As many values as were written are read back. -/
theorem times_takes {α : Type} {reader : Reader α} {layout : α → List Field}
    (takes : ∀ value image, Field.images (layout value) = some image → reader.Takes image value)
    (values : List α) {image : List UInt8}
    (written : Field.images (values.flatMap layout) = some image) :
    (reader.times values.length).Takes image values := by
  have whole := timesFrom_takes takes values #[] written
  rwa [List.nil_append] at whole

theorem timesFrom_spells {α : Type} {reader : Reader α} {layout : α → List Field}
    (spells : reader.Spells layout) (count : Nat) (done : Array α) {before after : Cursor}
    {values : List α} (success : timesFrom reader done count before = .ok values after) :
    ∃ read used, values = done.toList ++ read ∧ read.length = count ∧
      Cursor.Moved used before after ∧ Field.images (read.flatMap layout) = some used := by
  induction count generalizing done before with
  | zero =>
    obtain ⟨rfl, rfl⟩ := pure_ok_iff.mp success
    exact ⟨[], [], (List.append_nil _).symm, rfl, .refl _, rfl⟩
  | succ count ih =>
    obtain ⟨value, middle, found, success'⟩ := bind_ok_iff.mp success
    obtain ⟨used, moved, spelled⟩ := spells found
    obtain ⟨read, further, rfl, full, moved', spelled'⟩ := ih (done.push value) success'
    refine ⟨value :: read, used ++ further, ?_, by rw [List.length_cons, full],
      moved.trans moved', ?_⟩
    · rw [Array.toList_push, List.append_assoc]
      rfl
    · rw [List.flatMap_cons, Field.images_append, spelled, spelled']
      rfl

/-- What is read so many times spells the layouts of all the values. -/
theorem times_spells {α : Type} {reader : Reader α} {layout : α → List Field}
    (spells : reader.Spells layout) {count : Nat} {before after : Cursor} {values : List α}
    (success : reader.times count before = .ok values after) :
    values.length = count ∧
      ∃ used, Cursor.Moved used before after ∧ Field.images (values.flatMap layout) = some used := by
  obtain ⟨read, used, rfl, full, moved, spelled⟩ := timesFrom_spells spells count #[] success
  exact ⟨full, used, moved, spelled⟩

end Reader

end ActionCode
