/-
**Concatenated blocks are decoded one after the other.**

* **`Decodes.along`**: a block that is decoded is decoded in the same way before other bytes, and
  then decoding goes on with these.
* **`Decodes.append`**: so the rows of two buffers, one behind the other, are those of the first, and
  those of the second further on and with greater labels.
-/

import ActionCode.Proofs.Chunks.Truncation
import ActionCode.Proofs.Nested.Standalone

namespace ActionCode

variable {maxDepth depth : Nat}

/-- A row says where an action lies, not in which block. -/
theorem Located.between_of_moved {used : List UInt8} {cursor next : Cursor}
    (moved : Cursor.Moved used cursor next) {base position : Nat}
    (same : base + position = cursor.offset) (action : Action) (front back : List UInt8) :
    Located.between action ⟨base, position, front⟩ ⟨base, position + used.length, back⟩ =
      Located.between action cursor next := by
  have later : base + (position + used.length) = next.offset := by
    rw [moved.offset, ← same, Nat.add_assoc]
  show Located.mk action (base + position) (base + (position + used.length) - (base + position)) = _
  rw [same, later]
  rfl

/-- A step that makes the rest shorter has bytes to read, whatever follows. -/
theorem nonempty_of_shorter {used : List UInt8} {cursor next : Cursor}
    (moved : Cursor.Moved used cursor next) (shorter : next.rest.length < cursor.rest.length)
    (base position : Nat) (tail : List UInt8) :
    ¬ (Cursor.mk base position (used ++ tail)).isEmpty = true := by
  refine Cursor.nonempty_iff.mpr ?_
  have length := moved.length_rest
  rw [List.length_append]
  omega

/-- Rows are decoded in the same way before other bytes, in any block with this offset. -/
def DecodedAlong (maxDepth depth : Nat) (cursor : Cursor) (progress : Progress)
    (own : List Located) (after : Progress) : Prop :=
  ∀ base position (done : Array Located) tail, base + position = cursor.offset →
    decodeFrom maxDepth depth done ⟨base, position, cursor.rest ++ tail⟩ progress =
      decodeFrom maxDepth depth (done ++ own.toArray) ⟨base, position + cursor.rest.length, tail⟩
        after

/-- One action before others. -/
theorem DecodedAlong.cons {cursor next : Cursor} {used : List UInt8}
    {progress middle after : Progress} {own : List Located} {action : Action}
    (later : DecodedAlong maxDepth depth next middle own after)
    (moved : Cursor.Moved used cursor next)
    (step : ∀ base position (done : Array Located) tail, base + position = cursor.offset →
      decodeFrom maxDepth depth done ⟨base, position, used ++ tail⟩ progress =
        decodeFrom maxDepth depth (done.push (.between action ⟨base, position, used ++ tail⟩
          ⟨base, position + used.length, tail⟩)) ⟨base, position + used.length, tail⟩ middle) :
    DecodedAlong maxDepth depth cursor progress (.between action cursor next :: own) after := by
  intro base position done tail same
  have next' : base + (position + used.length) = next.offset := by
    rw [moved.offset, ← same, Nat.add_assoc]
  have far : position + used.length + next.rest.length = position + cursor.rest.length := by
    rw [moved.length_rest, Nat.add_assoc]
  have rows : ∀ row, done.push row ++ own.toArray = done ++ (row :: own).toArray := by simp
  rw [moved.rest, List.append_assoc, step base position done _ same,
    Located.between_of_moved moved same, later base _ _ tail next', far, rows, ← moved.rest]

/-- **Decoding a block goes on with what follows it.** -/
theorem Decodes.along {cursor : Cursor} {progress after : Progress} {rows : List Located}
    (decodes : Decodes maxDepth depth cursor progress rows after) :
    DecodedAlong maxDepth depth cursor progress rows after := by
  induction decodes with
  | ended empty _ =>
    intro base position done tail _
    rw [List.isEmpty_iff.mp empty, List.nil_append, List.length_nil, Nat.add_zero]
    exact congrArg (decodeFrom maxDepth _ · _ _) Array.append_empty.symm
  | instruction nonempty found _ later =>
    obtain ⟨used, moved, _, always⟩ := nextStep_of_instruction found
    refine later.cons moved fun base position done tail same => ?_
    exact decodeFrom_instruction (nonempty_of_shorter moved (nextStep_shorter found) _ _ _)
      (always base position tail same) done _
  | definition nonempty found inside finishes _ _ later =>
    obtain ⟨_, _, _, front, _, moved, always, _⟩ := nextStep_of_definition found
    refine later.cons moved fun base position done tail same => ?_
    exact decodeFrom_definition (nonempty_of_shorter moved (nextStep_shorter found).2 _ _ _)
      (always base position tail same) (decodeFrom_ok_iff.mpr inside) finishes done

/-- **The rows of two buffers, one behind the other**: those of the first, and those of the second
further on and with greater labels. -/
theorem Decodes.append {first second : List UInt8} {rows rows' : List Located}
    {after after' : Progress} (decodes : Decodes maxDepth 0 (Cursor.start 0 first) ⟨0, #[]⟩ rows after)
    (decodes' : Decodes maxDepth 0 (Cursor.start 0 second) ⟨0, #[]⟩ rows' after') :
    Decodes maxDepth 0 (Cursor.start 0 (first ++ second)) ⟨0, #[]⟩
      (rows ++ rows'.map (Located.shifted first.length after.nextLabel)) (after.before after') := by
  have shifted : DecodedPair first.length maxDepth (Cursor.start 0 second).stop after
      (decodeFrom maxDepth 0 #[] (Cursor.start 0 second) ⟨0, #[]⟩) (decodeFrom maxDepth 0 _ _ _) :=
    decodeFrom_shifted rfl #[] (Cursor.start 0 second) ⟨0, #[]⟩ rfl nofun
  have further := shifted.same
  rw [decodeFrom_ok_iff.mpr decodes', Array.map_empty] at further
  have fresh : after.before ⟨0, #[]⟩ = after := by
    rw [Progress.before, Array.append_empty]
    rfl
  rw [fresh] at further
  have joined := (decodeFrom_ok_iff.mp further).along 0 first.length (#[] ++ rows.toArray) []
    (Nat.add_comm ..)
  have ended : ∀ position, (Cursor.mk 0 position []).isEmpty = true := fun _ => rfl
  rw [List.append_nil, decodeFrom_empty (ended _)] at joined
  have whole := decodes.along 0 0 #[] second rfl
  rw [Nat.zero_add] at whole
  refine decodeFrom_ok_iff.mp ((whole.trans joined).trans ?_)
  simp

end ActionCode
