/-
**The rows of a block tile its bytes.**

* `decodeWithin`: decoding with an account of the actions it tries, which ends only if there is room
  for each. **`exists_steps`**: it tries no more actions than there are bytes, and does what decoding
  does.
* `Sized`: the bytes of a record are as many as its action takes, and those of a definition are its
  declared body and its code. `Tiled`: rows that follow one another over all bytes, each over its own.
* **`decodeFrom_tiles`**: every step leaves fewer bytes, decoding ends, and its rows tile the bytes.
-/

import ActionCode.Proofs.Chunks.Grammar
import ActionCode.Proofs.Sizes.Splitting

namespace ActionCode

/-! ### Steps are counted -/

/-- The outcome of decoding. -/
abbrev DecodeResult := EStateM.Result DisassemblyFault Progress (List Located)

/-- The rows of what is left of a block, and how many actions were tried for them, those of all code
inside included. **None if there is no room for an action that is tried.** -/
def decodeWithin (maxDepth : Nat) :
    Nat → Nat → Array Located → Cursor → Progress → Option (Nat × DecodeResult)
  | 0, _, _, _, _ => none
  | room + 1, depth, done, cursor, progress =>
    if cursor.isEmpty then some (0, .ok done.toList progress)
    else
      match nextStep maxDepth depth cursor with
      | .error fault => some (1, .error fault progress)
      | .ok (.instruction instruction next) =>
        (decodeWithin maxDepth room depth (done.push (.between (.plain instruction) cursor next)) next
          progress).map fun (steps, result) => (steps + 1, result)
      | .ok (.definition signature code next leftover) =>
        (decodeWithin maxDepth room (depth + 1) #[] code progress).bind fun (inner, result) =>
          match result with
          | .error fault progress => some (inner + 1, .error fault progress)
          | .ok rows progress =>
            match finishSequence code.region rows progress with
            | .error fault progress => some (inner + 1, .error fault progress)
            | .ok body progress =>
              match leftover with
              | some fault => some (inner + 1, .error (.read fault) progress)
              | none =>
                (decodeWithin maxDepth room depth
                  (done.push (.between (.define signature body) cursor next)) next progress).map
                    fun (steps, result) => (inner + steps + 1, result)

/-- The code of a definition and what follows it are apart. -/
theorem parts_of_nextStep {maxDepth depth : Nat} {cursor code next : Cursor} {signature : Signature}
    {leftover : Option ReadFault}
    (found : nextStep maxDepth depth cursor = .ok (.definition signature code next leftover)) :
    code.rest.length + next.rest.length < cursor.rest.length := by
  obtain ⟨front, begun, moved, _⟩ := code_of_nextStep found
  have declared := List.length_pos_iff.mpr begun
  have whole := moved.length_rest
  rw [List.length_append] at whole
  omega

section

variable {maxDepth depth : Nat} {cursor : Cursor} {progress : Progress}

/-- There is room for an action, for each of the bytes. -/
theorem counted_of_room {done : Array Located} {result : DecodeResult} (steps : Nat)
    (few : steps ≤ cursor.rest.length)
    (counted : ∀ room ≥ cursor.rest.length,
      decodeWithin maxDepth (room + 1) depth done cursor progress = some (steps, result)) :
    ∃ steps ≤ cursor.rest.length, ∀ room > cursor.rest.length,
      decodeWithin maxDepth room depth done cursor progress = some (steps, result) := by
  refine ⟨steps, few, ?_⟩
  rintro (_ | room) large
  · cases large
  · exact counted room (Nat.le_of_lt_succ large)

/-- What is left of a block from a definition on, if there is room for the actions of its code. -/
theorem decodeWithin_of_definition {room inner : Nat} {code next : Cursor} {signature : Signature}
    {leftover : Option ReadFault} (nonempty : ¬ cursor.isEmpty = true)
    (found : nextStep maxDepth depth cursor = .ok (.definition signature code next leftover))
    (counted : decodeWithin maxDepth room (depth + 1) #[] code progress =
      some (inner, decodeFrom maxDepth (depth + 1) #[] code progress)) (done : Array Located) :
    decodeWithin maxDepth (room + 1) depth done cursor progress =
      match disassembleBlock maxDepth (depth + 1) code progress with
      | .error fault progress => some (inner + 1, .error fault progress)
      | .ok body progress =>
        match leftover with
        | some fault => some (inner + 1, .error (.read fault) progress)
        | none =>
          (decodeWithin maxDepth room depth
            (done.push (.between (.define signature body) cursor next)) next progress).map
              fun (steps, result) => (inner + steps + 1, result) := by
  simp only [decodeWithin, if_neg nonempty, found, counted, Option.bind_some]
  unfold disassembleBlock
  cases decodeFrom maxDepth (depth + 1) #[] code progress with
  | error fault progress => rfl
  | ok rows progress =>
    dsimp only
    cases finishSequence code.region rows progress with
    | error fault progress => rfl
    | ok body progress => cases leftover <;> rfl

end

/-- **No more actions are tried than there are bytes**, and decoding with room for each is decoding. -/
theorem exists_steps (maxDepth depth : Nat) (done : Array Located) (cursor : Cursor)
    (progress : Progress) :
    ∃ steps ≤ cursor.rest.length, ∀ room > cursor.rest.length,
      decodeWithin maxDepth room depth done cursor progress =
        some (steps, decodeFrom maxDepth depth done cursor progress) := by
  fun_induction chunksFrom maxDepth depth cursor generalizing done progress with
  | case1 depth cursor empty =>
    refine counted_of_room 0 (Nat.zero_le _) fun room _ => ?_
    rw [decodeWithin, if_pos empty, decodeFrom_empty empty]
  | case2 depth cursor nonempty fault found =>
    refine counted_of_room 1 (Cursor.nonempty_iff.mp nonempty) fun room _ => ?_
    rw [decodeWithin, if_neg nonempty, found, decodeFrom_fault nonempty found]
  | case3 depth cursor nonempty instruction next found ih =>
    obtain ⟨steps, few, counted⟩ := ih (done.push (.between (.plain instruction) cursor next))
      progress
    have shorter : next.rest.length < cursor.rest.length := nextStep_shorter found
    refine counted_of_room (steps + 1) (by omega) fun room large => ?_
    rw [decodeWithin, if_neg nonempty, found, decodeFrom_instruction nonempty found]
    dsimp only
    rw [counted room (by omega), Option.map_some]
  | case4 depth cursor nonempty signature code next leftover found ih₁ ih₂ =>
    -- The code of a definition and what follows it share the bytes, and the room for their actions.
    have parts := parts_of_nextStep found
    obtain ⟨inner, fewInner, countedInner⟩ := ih₁ #[] progress
    have one : inner + 1 ≤ cursor.rest.length := by omega
    have begun := fun room (large : room ≥ cursor.rest.length) =>
      decodeWithin_of_definition nonempty found (countedInner room (by omega)) done
    rw [decodeFrom_of_definition nonempty found]
    cases here : disassembleBlock maxDepth (depth + 1) code progress with
    | error fault middle =>
      refine counted_of_room (inner + 1) one fun room large => ?_
      rw [begun room large, here]
    | ok body middle =>
      cases leftover with
      | some fault =>
        refine counted_of_room (inner + 1) one fun room large => ?_
        rw [begun room large, here]
      | none =>
        obtain ⟨steps, few, counted⟩ := ih₂
          (done.push (.between (.define signature body) cursor next)) middle
        refine counted_of_room (inner + steps + 1) (by omega) fun room large => ?_
        rw [begun room large, here]
        dsimp only
        rw [counted room (by omega), Option.map_some]

/-! ### Rows over bytes -/

/-- The bytes of a record are as many as its action takes. Those of a definition are an opcode, a
declared length, the body of that length, which ends with the size of the code, and the code of that
size; the definition takes no more, **and less if its code joins records of pushes**. -/
def Sized (bytes : List UInt8) : Action → Prop
  | .define signature body =>
    (Action.define signature body).width ≤ bytes.length ∧
      ∃ (declared codeSize : UInt16) (layout code : List UInt8),
        bytes = signature.opcode.byte :: (Bytes.toBytes 2 declared.toNat ++
          (layout ++ Bytes.toBytes 2 codeSize.toNat ++ code)) ∧
        Field.images signature.layout = some layout ∧
        (layout ++ Bytes.toBytes 2 codeSize.toNat).length = declared.toNat ∧
        code.length = codeSize.toNat ∧
        bytes.length = headWidth + declared.toNat + codeSize.toNat
  | action => bytes.length = action.width

/-- Rows that follow one another from an offset on, over all the bytes from there; **each has bytes of
its own**, and their number is its span. -/
inductive Tiled : Nat → List UInt8 → List Located → Prop
  | ended (offset : Nat) : Tiled offset [] []
  | row {offset : Nat} {action : Action} {own later : List UInt8} {rows : List Located}
      (filled : own ≠ []) (sized : Sized own action)
      (rest : Tiled (offset + own.length) later rows) :
      Tiled offset (own ++ later) (⟨action, offset, own.length⟩ :: rows)

theorem Sized.width_le {bytes : List UInt8} {action : Action} (sized : Sized bytes action) :
    action.width ≤ bytes.length := by
  cases action with
  | define signature body => exact sized.1
  | plain instruction => exact Nat.le_of_eq sized.symm
  | marker marker => exact Nat.le_of_eq sized.symm

/-- The actions of rows take no more bytes than the rows are over. -/
theorem Tiled.sum_width_le {offset : Nat} {bytes : List UInt8} {rows : List Located}
    (tiled : Tiled offset bytes rows) :
    (rows.map fun row => row.action.width).sum ≤ bytes.length := by
  induction tiled with
  | ended offset => exact Nat.le_refl 0
  | row filled sized rest ih =>
    rw [List.map_cons, List.sum_cons, List.length_append]
    exact Nat.add_le_add sized.width_le ih

/-- A row between two cursors before others. -/
theorem Tiled.between {used : List UInt8} {cursor next : Cursor} {rows : List Located}
    {action : Action} (tiled : Tiled next.offset next.rest rows)
    (moved : Cursor.Moved used cursor next) (filled : used ≠ []) (sized : Sized used action) :
    Tiled cursor.offset cursor.rest (.between action cursor next :: rows) := by
  have later := moved.offset
  have span : Located.between action cursor next = ⟨action, cursor.offset, used.length⟩ := by
    rw [Located.between, later, Nat.add_sub_cancel_left]
  rw [span, moved.rest]
  rw [later] at tiled
  exact .row filled sized tiled

/-- The bytes of a definition that becomes no longer than its code. -/
theorem sized_define {signature : Signature} {front code : List UInt8} {body : List Action}
    (written : signature.image code.length = some front)
    (shorter : encodedLength body ≤ code.length) :
    Sized (front ++ code) (.define signature body) := by
  rw [Signature.image_eq] at written
  obtain ⟨head, tail, isHead, isTail, rfl⟩ := joined_eq_some_iff.mp written
  obtain ⟨opcode, length, isOpcode, isLength, rfl⟩ := joined_eq_some_iff.mp isHead
  obtain ⟨layout, size, isLayout, isSize, rfl⟩ := joined_eq_some_iff.mp isTail
  rw [Field.images_cons, Field.images_nil, joined_some_nil] at isLength
  obtain rfl := Option.some.inj isOpcode
  obtain ⟨declared, sameDeclared, rfl⟩ := Field.word_of_size rfl isLength
  obtain ⟨codeSize, sameSize, rfl⟩ := Field.word_of_size rfl isSize
  have width : layout.length = Field.totalWidth signature.layout := Field.length_of_images isLayout
  have isDeclared : layout.length + 2 = declared.toNat := by
    rw [sameDeclared, width, signature.totalWidth_layout]
  have whole : ([signature.opcode.byte] ++ Bytes.toBytes 2 declared.toNat ++
      (layout ++ Bytes.toBytes 2 codeSize.toNat) ++ code).length =
        headWidth + declared.toNat + codeSize.toNat := by
    simp only [List.length_append, List.length_singleton, Bytes.length_toBytes]
    rw [headWidth, sameSize, ← isDeclared]
  refine ⟨?_, declared, codeSize, layout, code, ?_, isLayout, ?_, sameSize.symm, whole⟩
  · rw [whole, Action.width, sameDeclared, sameSize]
    exact Nat.add_le_add_left shorter _
  · simp only [List.append_assoc, List.cons_append, List.nil_append]
  · rw [List.length_append, Bytes.length_toBytes, isDeclared]

/-- **The rows of a block tile its bytes.** -/
theorem Decodes.tiled {maxDepth depth : Nat} {cursor : Cursor} {progress after : Progress}
    {rows : List Located} (decodes : Decodes maxDepth depth cursor progress rows after) :
    Tiled cursor.offset cursor.rest rows := by
  induction decodes with
  | ended empty _ =>
    rw [List.isEmpty_iff.mp empty]
    exact .ended _
  | instruction nonempty found _ tiled =>
    obtain ⟨used, moved, spelled⟩ := instruction_of_nextStep found
    obtain ⟨image, written, same, _⟩ := spelled.image
    have sized : Sized used (.plain _) := same.symm.trans (Instruction.length_of_image written)
    exact tiled.between moved (List.length_pos_iff.mp spelled.length_pos) sized
  | @definition _ _ _ _ _ middle _ _ _ _ _ _ nonempty found inside finishes _ code tiled =>
    obtain ⟨_, front, written, moved, isCode⟩ := declaration_of_nextStep found
    obtain ⟨real, finishable, rfl, _⟩ := inside.finished (by rw [isCode]; rfl) finishes
    have shorter := encodedLength_finished_le real finishable.fit middle.nextLabel
    rw [List.map_map] at shorter
    have sized := sized_define written (shorter.trans code.sum_width_le)
    refine tiled.between moved (List.length_pos_iff.mp ?_) sized
    rw [List.length_append, Signature.length_of_image written, headWidth]
    omega

/-- **Decoding ends, and its rows tile the bytes.** Every step takes a byte at least, and the code of a
definition is shorter than the bytes that hold it; no more actions are tried than there are bytes. If
the end is reached, rows that are not empty follow one another over exactly these bytes: each spans as
many as its action takes, and that of a definition its declared body and its code. -/
theorem decodeFrom_tiles (maxDepth depth : Nat) (cursor : Cursor) (progress : Progress) :
    (∀ step, nextStep maxDepth depth cursor = .ok step → step.ShorterThan cursor) ∧
      (∃ steps ≤ cursor.rest.length, ∀ room > cursor.rest.length,
        decodeWithin maxDepth room depth #[] cursor progress =
          some (steps, decodeFrom maxDepth depth #[] cursor progress)) ∧
      ∀ rows after, decodeFrom maxDepth depth #[] cursor progress = .ok rows after →
        Tiled cursor.offset cursor.rest rows := by
  refine ⟨fun step found => nextStep_shorter found, exists_steps _ _ _ _ _, ?_⟩
  exact fun rows after success => (decodeFrom_ok_iff.mp success).tiled

/-- An action, and a definition whose code holds two records of pushes. -/
def playAndPushes : List UInt8 :=
  [6, 0x9b, 6, 0, 0x66, 0, 0, 0, 8, 0, 0x96, 1, 0, 2, 0x96, 1, 0, 2]

/-- A definition over more bytes than it takes once the pushes of its code are one record. -/
theorem decodeFrom_tiles_pushes :
    (∃ step, nextStep 1 0 (Cursor.start 0 playAndPushes) = .ok step ∧
      step.ShorterThan (Cursor.start 0 playAndPushes)) ∧
      (∃ steps ≤ 18, decodeWithin 1 19 0 #[] (Cursor.start 0 playAndPushes) ⟨0, #[]⟩ =
        some (steps, decodeFrom 1 0 #[] (Cursor.start 0 playAndPushes) ⟨0, #[]⟩)) ∧
      ∃ rows after, decodeFrom 1 0 #[] (Cursor.start 0 playAndPushes) ⟨0, #[]⟩ = .ok rows after ∧
        rows.map (fun row => (row.offset, row.span, row.action.width)) = [(0, 1, 1), (1, 17, 14)] ∧
        Tiled 0 playAndPushes rows := by
  have first : nextStep 1 0 (Cursor.start 0 playAndPushes) =
      .ok (.instruction (.basic .play) ⟨0, 1, playAndPushes.drop 1⟩) := by
    rfl
  -- Decoding within a bound computes, by recursion on the bound, and is decoding.
  have within : decodeWithin 1 19 0 #[] (Cursor.start 0 playAndPushes) ⟨0, #[]⟩ =
      some (4, .ok [⟨.plain (.basic .play), 0, 1⟩, ⟨.define (.simple "f" []) [.plain (.push .null),
        .plain (.push .null)], 1, 17⟩] ⟨0, #[]⟩) := by
    with_unfolding_all rfl
  obtain ⟨shorter, ⟨steps, few, counted⟩, tiles⟩ :=
    decodeFrom_tiles 1 0 (Cursor.start 0 playAndPushes) ⟨0, #[]⟩
  have bounded := counted 19 (by decide)
  have decoded := (Prod.mk.inj (Option.some.inj (bounded.symm.trans within))).2
  exact ⟨⟨_, first, shorter _ first⟩, ⟨steps, few, bounded⟩, _, _, decoded, by decide,
    tiles _ _ decoded⟩

end ActionCode
