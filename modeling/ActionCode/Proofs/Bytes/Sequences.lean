/-
**Sequences as bytes.**

* `Action.image`, `imageFrom`: the bytes of an action and of a sequence, if all of it can be
  written; **`writeFrom_images`**.
* **`length_of_imageFrom`**: the image of a sequence has its encoded length.
* `Spaced`: no single push follows another. **The image of a spaced sequence is that of its actions,
  one after another** (`imageFrom_of_spaced`), and its extent is the sum of theirs.
-/

import ActionCode.Proofs.Bytes.Steps
import Mathlib.Data.List.Chain

namespace ActionCode

/-! ### Images of sequences -/

/-- The head of a run of pushes whose literals take the given bytes. -/
def runHead (width : Nat) : Option (List UInt8) :=
  Field.images [.byte Opcode.push.byte, .size .bodyLength width]

mutual

/-- The bytes of an action as a record of its own, if it can be written. -/
def Action.image : Action → Option (List UInt8)
  | .plain instruction => instruction.image
  | .define signature body =>
    joined (signature.image (encodedLength body)) (imageFrom false body)
  | .marker _ => some []

/-- The bytes of a sequence, if it can be written. If `inRun`, pushes at the front belong to a run
whose head comes before them. -/
def imageFrom (inRun : Bool) : List Action → Option (List UInt8)
  | [] => some []
  | .plain (.push value) :: rest =>
    joined (if inRun then some [] else runHead (pushRun 1 value.width rest).2)
      (joined (Field.images value.fields) (imageFrom true rest))
  | action :: rest => joined action.image (imageFrom false rest)

end

/-- An action is a single push, or it is not. -/
theorem Action.push_or_other (action : Action) :
    (∃ value, action = .plain (.push value)) ∨ action.isPush = false := by
  cases action with
  | plain instruction =>
    cases instruction with
    | push value => exact .inl ⟨value, rfl⟩
    | _ => exact .inr rfl
  | define signature body => exact .inr rfl
  | marker marker => exact .inr rfl

theorem imageFrom_cons {action : Action} (other : action.isPush = false) (inRun : Bool)
    (rest : List Action) :
    imageFrom inRun (action :: rest) = joined action.image (imageFrom false rest) := by
  rw [imageFrom]
  rintro value rfl
  cases other

theorem writeFrom_cons {action : Action} (other : action.isPush = false) (inRun : Bool)
    (rest : List Action) :
    writeFrom inRun (action :: rest) = (action.write >>= fun _ => writeFrom false rest) := by
  rw [writeFrom]
  rintro value rfl
  cases other

theorem writeFrom_push (inRun : Bool) (value : PushValue) (rest : List Action) :
    writeFrom inRun (.plain (.push value) :: rest) =
      ((if inRun then pure () else Writer.header Opcode.push.byte (pushRun 1 value.width rest).2)
        >>= fun _ => value.write >>= fun _ => writeFrom true rest) := by
  rw [writeFrom]
  cases inRun <;> rfl

/-- The fields of a definition up to its code are written one after another. -/
theorem Signature.image_eq (signature : Signature) (codeSize : Nat) :
    signature.image codeSize =
      joined (Field.images [.byte signature.opcode.byte, .size .bodyLength signature.bodyLength])
        (joined (Field.images signature.layout) (Field.size .codeSize codeSize).image) := by
  have split : (Field.byte signature.opcode.byte :: .size .bodyLength signature.bodyLength ::
      Body.declaration signature codeSize) =
    [.byte signature.opcode.byte, .size .bodyLength signature.bodyLength] ++
      (signature.layout ++ [.size .codeSize codeSize]) := rfl
  rw [image, split, Field.images_append, Field.images_append, Field.images_cons (.size .codeSize _),
    Field.images_nil, joined_some_nil]

mutual

theorem Action.write_images : ∀ action : Action, Writer.Images action.write action.image
  | .plain instruction => by
    rw [Action.write, Action.image]
    exact instruction.write_images
  | .define signature body => by
    have head := Writer.header_images signature.opcode.byte signature.bodyLength
    have layout := Writer.fields_images signature.layout
    have size := Writer.size_images .codeSize (encodedLength body)
    have whole := head.bind (layout.bind (size.bind (writeFrom_images false body)))
    rw [Action.write, Action.image, Signature.image_eq, joined_assoc, joined_assoc]
    exact whole
  | .marker _ => by
    rw [Action.write, Action.image]
    exact .pure

/-- **A sequence is written as its image.** -/
theorem writeFrom_images : ∀ (inRun : Bool) (actions : List Action),
    Writer.Images (writeFrom inRun actions) (imageFrom inRun actions)
  | inRun, [] => by
    rw [writeFrom, imageFrom]
    exact .pure
  | inRun, action :: rest => by
    rcases action.push_or_other with ⟨value, rfl⟩ | other
    · have later := (Writer.fields_images value.fields).bind (writeFrom_images true rest)
      rw [writeFrom_push, imageFrom]
      cases inRun with
      | true => exact Writer.Images.pure.bind later
      | false => exact (Writer.header_images _ _).bind later
    · rw [writeFrom_cons other, imageFrom_cons other]
      exact (Action.write_images action).bind (writeFrom_images false rest)

end

/-! ### Lengths of images -/

/-- The extent after a single push. -/
theorem Extent.advance_push (before : Extent) (value : PushValue) :
    before.advance (.plain (.push value)) =
      if before.inRun then { before with bytes := before.bytes + value.width }
      else ⟨before.bytes + (headWidth + value.width), before.records + 1, true⟩ := rfl

/-- How many records an action is. -/
def Action.recordCount (action : Action) : Nat := if action.isMarker then 0 else 1

/-- The extent after an action that no push joins. -/
theorem Extent.advance_other {action : Action} (other : action.isPush = false) (before : Extent) :
    before.advance action =
      ⟨before.bytes + action.width, before.records + action.recordCount, false⟩ := by
  cases action with
  | plain instruction =>
    cases instruction with
    | push value => cases other
    | _ => rfl
  | define signature body => rfl
  | marker marker =>
    rw [Action.width, Action.recordCount]
    rfl

theorem length_of_runHead {width : Nat} {bytes : List UInt8} (written : runHead width = some bytes) :
    bytes.length = headWidth := Field.length_of_images written

mutual

/-- The image of an action is as long as the action is wide. -/
theorem Action.length_of_image : ∀ {action : Action} {bytes : List UInt8},
    action.image = some bytes → bytes.length = action.width
  | .plain instruction, bytes, written => by
    rw [Action.image] at written
    rw [Action.width]
    exact Instruction.length_of_image written
  | .define signature body, bytes, written => by
    rw [Action.image] at written
    obtain ⟨front, code, head, body, rfl⟩ := joined_eq_some_iff.mp written
    have length := length_of_imageFrom Extent.start body
    rw [Action.width, List.length_append, Signature.length_of_image head, length]
    change _ + code.length = _ + (0 + code.length)
    rw [Nat.zero_add]
  | .marker _, bytes, written => by
    rw [Action.image] at written
    cases written
    rw [Action.width]
    rfl

/-- **The image of a sequence takes the bytes that its extent says.** -/
theorem length_of_imageFrom : ∀ (before : Extent) {actions : List Action} {bytes : List UInt8},
    imageFrom before.inRun actions = some bytes →
      (before.through actions).bytes = before.bytes + bytes.length
  | before, [], bytes, written => by
    rw [imageFrom] at written
    cases written
    rw [Extent.through]
    rfl
  | before, action :: rest, bytes, written => by
    rw [Extent.through]
    change ((before.advance action).through rest).bytes = _
    rcases action.push_or_other with ⟨value, rfl⟩ | other
    · rw [imageFrom] at written
      obtain ⟨head, tail, isHead, isTail, rfl⟩ := joined_eq_some_iff.mp written
      obtain ⟨literal, later, isLiteral, isLater, rfl⟩ := joined_eq_some_iff.mp isTail
      have long := PushValue.length_of_image isLiteral
      rw [Extent.advance_push]
      cases inRun : before.inRun with
      | true =>
        rw [inRun] at isHead
        cases isHead
        have whole := length_of_imageFrom ⟨before.bytes + value.width, before.records, true⟩ isLater
        rw [if_pos rfl, whole, List.length_append, List.length_append, List.length_nil, long]
        dsimp only
        omega
      | false =>
        rw [inRun, if_neg Bool.false_ne_true] at isHead
        have head := length_of_runHead isHead
        rw [if_neg Bool.false_ne_true]
        have whole := length_of_imageFrom ⟨before.bytes + (headWidth + value.width),
          before.records + 1, true⟩ isLater
        rw [whole, List.length_append, List.length_append, head, long]
        dsimp only
        omega
    · rw [imageFrom_cons other] at written
      obtain ⟨front, later, isFront, isLater, rfl⟩ := joined_eq_some_iff.mp written
      rw [Extent.advance_other other]
      have whole := length_of_imageFrom ⟨before.bytes + action.width,
        before.records + action.recordCount, false⟩ isLater
      rw [whole, List.length_append, Action.length_of_image isFront, Nat.add_assoc]

end

theorem length_of_sequence {actions : List Action} {bytes : List UInt8}
    (written : imageFrom false actions = some bytes) : encodedLength actions = bytes.length := by
  have whole := length_of_imageFrom Extent.start written
  rw [encodedLength, whole]
  exact Nat.zero_add _

/-! ### Spaced sequences -/

theorem Instruction.width_pos (instruction : Instruction) : 0 < instruction.width := by
  rw [width_eq, headWidth]
  split <;> omega

/-- No single push follows another. -/
def Spaced (actions : List Action) : Prop :=
  actions.IsChain fun first second => ¬ (first.isPush = true ∧ second.isPush = true)

/-- The images of actions, one after another. -/
def imageAll : List Action → Option (List UInt8)
  | [] => some []
  | action :: rest => joined action.image (imageAll rest)

theorem Spaced.tail {action : Action} {rest : List Action} (spaced : Spaced (action :: rest)) :
    Spaced rest := List.IsChain.tail spaced

/-- What follows a single push is none. -/
theorem Spaced.other {action next : Action} {rest : List Action}
    (spaced : Spaced (action :: next :: rest)) (push : action.isPush = true) :
    next.isPush = false := by
  have apart := (List.isChain_cons_cons.mp spaced).1
  rw [push] at apart
  exact Bool.eq_false_iff.mpr fun equal => apart ⟨rfl, equal⟩

/-- A single push that no other follows is written as a record of its own. -/
theorem writeFrom_of_spaced {action : Action} {rest : List Action}
    (spaced : Spaced (action :: rest)) :
    writeFrom false (action :: rest) = (action.write >>= fun _ => writeFrom false rest) := by
  rcases action.push_or_other with ⟨value, rfl⟩ | other
  · have alone : (pushRun 1 value.width rest).2 = value.width ∧
        writeFrom true rest = writeFrom false rest := by
      cases rest with
      | nil => exact ⟨rfl, by rw [writeFrom, writeFrom]⟩
      | cons next rest =>
        have other := spaced.other rfl
        refine ⟨?_, by rw [writeFrom_cons other, writeFrom_cons other]⟩
        rw [pushRun]
        rintro _ _ equal
        cases equal
        cases other
    rw [writeFrom_push, alone.1, alone.2, if_neg Bool.false_ne_true, Action.write,
      Instruction.write, if_neg (of_decide_eq_false rfl), bind_assoc]
    rfl
  · exact writeFrom_cons other false rest

/-- **The image of a spaced sequence is that of its actions, one after another.** -/
theorem imageFrom_of_spaced {actions : List Action} (spaced : Spaced actions) :
    imageFrom false actions = imageAll actions := by
  induction actions with
  | nil => rw [imageFrom, imageAll]
  | cons action rest ih =>
    have images : Writer.Images (writeFrom false (action :: rest)) (imageAll (action :: rest)) := by
      rw [writeFrom_of_spaced spaced, imageAll, ← ih spaced.tail]
      exact (Action.write_images action).bind (writeFrom_images false rest)
    exact (writeFrom_images false (action :: rest)).unique images

end ActionCode
