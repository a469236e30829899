/-
**Blocks that are read, and blocks that are split off from them.**

* `Opened`: a block, where it begins, and how far it has been read. `Opened.obey`: what one command
  makes of it. `session`: commands to all blocks that have been opened, **in any order, whether they
  succeed or fail**.
* `Opened.Sound`: what has been read of a block and what is left are the block, which lies in the
  outermost one at its absolute offset. **`Opened.Sound.obey`**: a command keeps this, and
  **`sound_of_session`**: so does a whole session.
* **`reads_in_bounds`**: with what each read takes when it succeeds and when it fails.
-/

import ActionCode.Proofs.Reading.Requests

namespace ActionCode

/-! ### Sessions -/

/-- A block, the absolute offset of its first byte, and how far it has been read. -/
structure Opened where
  base : Nat
  block : List UInt8
  cursor : Cursor
deriving DecidableEq

/-- A block of which nothing has been read. -/
def Opened.start (base : Nat) (block : List UInt8) : Opened := ⟨base, block, .start base block⟩

/-- A block read up to a cursor. -/
def Opened.upTo (cursor : Cursor) (opened : Opened) : Opened := { opened with cursor := cursor }

/-- What a block may be told: to read a value, or to split off its next bytes. -/
inductive Command where
  | read (request : Request)
  | split (count : Nat)

/-- Where a reader leaves a cursor, whether it succeeds or fails. -/
def Reader.left {α : Type} (reader : Reader α) (cursor : Cursor) : Cursor :=
  match reader cursor with
  | .ok _ after | .error _ after => after

/-- A block after a command, and the block that has been split off from it, if one has. -/
def Opened.obey (opened : Opened) : Command → Opened × Option Opened
  | .read request => (opened.upTo (request.read.left opened.cursor), none)
  | .split count =>
    match Reader.splitOff count opened.cursor with
    | .ok part after => (opened.upTo after, some ⟨part.base, part.rest, part⟩)
    | .error _ after => (opened.upTo after, none)

/-- The blocks after a command to one of them. What has been split off comes last. -/
def obeyAt (blocks : List Opened) (step : Nat × Command) : List Opened :=
  match blocks[step.1]? with
  | none => blocks
  | some opened => blocks.set step.1 (opened.obey step.2).1 ++ (opened.obey step.2).2.toList

/-- The blocks after some commands, each to one of the blocks that are open by then. -/
def session (origin : Nat) (outer : List UInt8) (steps : List (Nat × Command)) : List Opened :=
  steps.foldl obeyAt [.start origin outer]

/-! ### What every command keeps -/

/-- **What has been read of a block and what is left are the block**, which lies in an outer one
that begins at an absolute offset. -/
structure Opened.Sound (origin : Nat) (outer : List UInt8) (opened : Opened) : Prop where
  total : opened.cursor.position + opened.cursor.remaining = opened.block.length
  offset : opened.cursor.offset = opened.base + opened.cursor.position
  rest : opened.cursor.rest = opened.block.drop opened.cursor.position
  inside : ∃ front back, outer = front ++ opened.block ++ back ∧ opened.base = origin + front.length

namespace Opened

variable {origin : Nat} {outer : List UInt8} {opened : Opened}

theorem sound_start (origin : Nat) (outer : List UInt8) :
    (start origin outer).Sound origin outer where
  total := Nat.zero_add _
  offset := rfl
  rest := rfl
  inside := ⟨[], [], (List.append_nil _).symm, rfl⟩

/-- Whatever bytes a cursor has been moved over, its block stays sound. -/
theorem Sound.upTo (sound : opened.Sound origin outer) {used : List UInt8} {after : Cursor}
    (moved : Cursor.Moved used opened.cursor after) : (opened.upTo after).Sound origin outer where
  total := by
    have total : opened.cursor.position + opened.cursor.rest.length = opened.block.length :=
      sound.total
    show after.position + after.rest.length = opened.block.length
    rw [moved.length_rest] at total
    rw [moved.position, Nat.add_assoc]
    exact total
  offset := by
    show after.offset = opened.base + after.position
    rw [moved.offset, sound.offset, moved.position, Nat.add_assoc]
  rest := by
    show after.rest = opened.block.drop after.position
    rw [moved.position, ← List.drop_drop, ← sound.rest, moved.rest, List.drop_left' rfl]
  inside := sound.inside

/-- **What is split off lies where it was read.** -/
theorem Sound.part (sound : opened.Sound origin outer) {used : List UInt8} {after : Cursor}
    (moved : Cursor.Moved used opened.cursor after) :
    (start opened.cursor.offset used).Sound origin outer := by
  obtain ⟨front, back, whole, isBase⟩ := sound.inside
  have read : (opened.block.take opened.cursor.position).length = opened.cursor.position := by
    have total := sound.total
    rw [List.length_take]
    omega
  have parts : opened.block =
      opened.block.take opened.cursor.position ++ (used ++ after.rest) := by
    rw [← moved.rest, sound.rest, List.take_append_drop]
  refine { sound_start opened.cursor.offset used with
    inside := ⟨front ++ opened.block.take opened.cursor.position, after.rest ++ back, ?_, ?_⟩ }
  · calc outer = front ++ opened.block ++ back := whole
      _ = front ++ (opened.block.take opened.cursor.position ++ (used ++ after.rest)) ++ back := by
          rw [← parts]
      _ = front ++ opened.block.take opened.cursor.position ++ used ++ (after.rest ++ back) := by
          simp only [List.append_assoc]
  · show opened.cursor.offset = _
    rw [sound.offset, isBase, List.length_append, read, Nat.add_assoc]

end Opened

/-- A read leaves the cursor some bytes later, whether it succeeds or fails. -/
theorem Request.moved_left (request : Request) (cursor : Cursor) :
    ∃ used, Cursor.Moved used cursor (request.read.left cursor) := by
  unfold Reader.left
  split
  · rename_i success
    obtain ⟨used, moved, _⟩ := moved_of_read success
    exact ⟨used, moved⟩
  · rename_i failed
    rw [after_of_error failed]
    exact ⟨_, Cursor.moved_skip (request.lost_le _)⟩

/-- **A command keeps a block sound**, and what it splits off is sound. -/
theorem Opened.Sound.obey {origin : Nat} {outer : List UInt8} {opened : Opened}
    (sound : opened.Sound origin outer) (command : Command) :
    (opened.obey command).1.Sound origin outer ∧
      ∀ part ∈ (opened.obey command).2, part.Sound origin outer := by
  cases command with
  | read request =>
    obtain ⟨used, moved⟩ := request.moved_left opened.cursor
    exact ⟨sound.upTo moved, nofun⟩
  | split count =>
    unfold Opened.obey
    dsimp only
    split
    · rename_i success
      obtain ⟨used, moved, _, rfl⟩ := splitOff_ok_iff.mp success
      refine ⟨sound.upTo moved, fun part isPart => ?_⟩
      obtain rfl := Option.some.inj isPart
      exact sound.part moved
    · rename_i failed
      rw [Reader.splitOff_atomic count failed]
      exact ⟨sound, nofun⟩

/-- **All blocks of a session are sound.** -/
theorem sound_of_session {origin : Nat} {outer : List UInt8} (steps : List (Nat × Command)) :
    ∀ opened ∈ session origin outer steps, opened.Sound origin outer := by
  suffices general : ∀ blocks : List Opened, (∀ opened ∈ blocks, opened.Sound origin outer) →
      ∀ opened ∈ steps.foldl obeyAt blocks, opened.Sound origin outer from
    general [.start origin outer] fun opened inside =>
      List.mem_singleton.mp inside ▸ Opened.sound_start origin outer
  induction steps with
  | nil => exact fun _ kept => kept
  | cons step rest ih =>
    refine fun blocks kept => ih _ fun opened inside => ?_
    unfold obeyAt at inside
    split at inside
    · exact kept opened inside
    · rename_i told found
      obtain ⟨still, part⟩ := (kept told (List.mem_of_getElem? found)).obey step.2
      obtain old | new := List.mem_append.mp inside
      · obtain other | rfl := List.mem_or_eq_of_mem_set old
        · exact kept opened other
        · exact still
      · exact part opened (Option.mem_toList.mp new)

/-! ### All of it -/

/-- **Readers stay in their blocks, and a read that fails takes what it is known to take.** In a
session on a block and on blocks that are split off, reads and splits may follow one another in any
order and fail or not: what has been read of each block and what is left make up the block, at its
absolute offset in the outermost one. A read succeeds exactly if the bytes of a value come next, and
takes just them; what is split off begins as a block of the bytes that its parent has gone past, at
their offset. A split that fails takes nothing, and neither does a read, but for the first word of a
double, if only the second is cut off, and the tag of a literal with the first word of its double.
-/
theorem reads_in_bounds :
    (∀ origin outer steps, ∀ opened ∈ session origin outer steps, opened.Sound origin outer) ∧
    (∀ (request : Request) before value after, request.read before = .ok value after ↔
      ∃ used, Cursor.Moved used before after ∧ request.Spells value used) ∧
    (∀ (request : Request) value used, request.Spells value used →
      used.length = Field.totalWidth (request.layout value)) ∧
    (∀ count before part after, Reader.splitOff count before = .ok part after ↔
      ∃ used, Cursor.Moved used before after ∧ used.length = count ∧
        part = Cursor.start before.offset used) ∧
    (∀ (request : Request) before fault after, request.read before = .error fault after →
      after = before.skip (request.lost before.rest)) ∧
    ∀ count before fault after, Reader.splitOff count before = .error fault after →
      after = before :=
  ⟨fun _ _ => sound_of_session, fun _ _ _ _ => Request.read_ok_iff,
    fun _ _ _ => Request.Spells.length, fun _ _ _ _ => splitOff_ok_iff,
    fun _ _ _ _ => Request.after_of_error,
    fun count _ _ _ failed => Reader.splitOff_atomic count failed⟩

/-- A double that is cut off in its second word, a byte that is split off behind its first, and a
word for which that byte is too short. -/
theorem reads_in_bounds_cut_double :
    ⟨105, [1], ⟨105, 0, [1]⟩⟩ ∈ session 100 [6, 0, 0, 0, 0, 1, 9]
      [(0, .read .literal), (0, .split 1), (1, .read .word), (0, .split 2)] ∧
    (⟨105, [1], ⟨105, 0, [1]⟩⟩ : Opened).Sound 100 [6, 0, 0, 0, 0, 1, 9] ∧
    Request.literal.read ⟨100, 0, [6, 0, 0, 0, 0, 1, 9]⟩ =
      .error (.unexpectedEnd 105 2) ⟨100, 5, [1, 9]⟩ ∧
    (⟨100, 5, [1, 9]⟩ : Cursor) = Cursor.skip 5 ⟨100, 0, [6, 0, 0, 0, 0, 1, 9]⟩ ∧
    Request.literal.Spells (.boolean true) [5, 7] ∧
    [5, 7].length = Field.totalWidth (Request.literal.layout (.boolean true)) ∧
    Reader.splitOff 2 ⟨100, 6, [9]⟩ = .error (.unexpectedEnd 106 1) ⟨100, 6, [9]⟩ := by
  obtain ⟨sound, _, widths, _, lost, kept⟩ := reads_in_bounds
  have member : ⟨105, [1], ⟨105, 0, [1]⟩⟩ ∈ session 100 [6, 0, 0, 0, 0, 1, 9]
      [(0, .read .literal), (0, .split 1), (1, .read .word), (0, .split 2)] := by
    decide
  have cut : Request.literal.read ⟨100, 0, [6, 0, 0, 0, 0, 1, 9]⟩ =
      .error (.unexpectedEnd 105 2) ⟨100, 5, [1, 9]⟩ := rfl
  have spells : Request.literal.Spells (.boolean true) [5, 7] := .inr ⟨7, rfl, rfl⟩
  obtain ⟨after, short⟩ : ∃ after,
      Reader.splitOff 2 ⟨100, 6, [9]⟩ = .error (.unexpectedEnd 106 1) after := ⟨_, rfl⟩
  refine ⟨member, sound _ _ _ _ member, cut, lost _ _ _ _ cut, spells, widths _ _ _ spells, ?_⟩
  rw [short, kept _ _ _ _ short]

end ActionCode
