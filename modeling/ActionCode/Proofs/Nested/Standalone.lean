/-
**Nested code is decoded as if it stood alone.**

* **`decodeFrom_shifted`**: rows are decoded in the same way further on, under other definitions and
  after other labels; faults go no further than their block.
* **`disassembleBlock_alone`**: a block under some definitions is disassembled as a buffer of its own.
* `Disassembles`: some records, and the actions that they have been disassembled into.
  `Disassembles.inside`: the code of definitions in them has been so as well.
* `StandsAlone`: actions are what the bytes of records become on their own, but for labels.
  **`disassemble_nested`**: so it is along every path of a buffer, and faults lie in the buffer.
-/

import ActionCode.Proofs.Nested.Finishing
import ActionCode.Proofs.RoundTrip.Labelling

namespace ActionCode

variable {distance : Nat}

/-! ### Rows -/

theorem Cursor.region_shifted (cursor : Cursor) :
    (cursor.shifted distance).region = cursor.region.shifted distance := by
  unfold Cursor.region Region.shifted
  rw [cursor.offset_shifted, Nat.add_assoc]
  rfl

theorem Located.between_shifted (first : Nat) (action : Action) (cursor next : Cursor) :
    Located.between (action.relabelled (Label.raised first)) (cursor.shifted distance)
        (next.shifted distance) =
      (Located.between action cursor next).shifted distance first := by
  unfold Located.between Located.shifted
  rw [cursor.offset_shifted, next.offset_shifted, Nat.add_sub_add_left]

/-- Instructions that have been read name no labels. -/
theorem relabelled_of_canon {instruction : Instruction} (canon : instruction.canon = instruction)
    (names : Label → Label) :
    (Action.plain instruction).relabelled names = .plain instruction := by
  cases instruction with
  | branch branch =>
    rw [← canon]
    rfl
  | _ => rfl

/-! ### Further on -/

/-- What came of a block is the same further on and after some progress. Its rows and its faults go
no further than `stop`. -/
structure DecodedPair (distance limit stop : Nat) (earlier : Progress)
    (result other : EStateM.Result DisassemblyFault Progress (List Located)) : Prop where
  same : other = displaced distance limit earlier
    (List.map (Located.shifted distance earlier.nextLabel)) result
  rows : ∀ rows after, result = .ok rows after → RowsUpTo stop rows
  faults : ∀ fault after, result = .error fault after → fault.offset ≤ stop

variable {maxDepth maxDepth' : Nat} {earlier : Progress}

theorem DecodedPair.error {stop : Nat} {fault : DisassemblyFault} (within : fault.offset ≤ stop)
    (progress : Progress) :
    DecodedPair distance maxDepth' stop earlier (.error fault progress)
      (.error (fault.shifted distance maxDepth') (earlier.before progress)) where
  same := rfl
  rows := nofun
  faults := fun _ _ equal => by cases equal; exact within

theorem RowsUpTo.push {stop : Nat} {done : Array Located} (upTo : RowsUpTo stop done.toList)
    {row : Located} (here : row.offset ≤ stop) : RowsUpTo stop (done.push row).toList := by
  rw [Array.toList_push]
  exact List.forall_mem_append.mpr ⟨upTo, List.forall_mem_singleton.mpr here⟩

/-- A block is finished in the same way further on, if its rows are decoded so. -/
theorem DecodedPair.finish {depth depth' : Nat} {code : Cursor} {progress : Progress}
    (decoded : DecodedPair distance maxDepth' code.stop earlier
      (decodeFrom maxDepth depth #[] code progress)
      (decodeFrom maxDepth' depth' #[] (code.shifted distance) (earlier.before progress))) :
    disassembleBlock maxDepth' depth' (code.shifted distance) (earlier.before progress) =
      displaced distance maxDepth' earlier (relabelAll (Label.raised earlier.nextLabel))
        (disassembleBlock maxDepth depth code progress) ∧
    ∀ fault after, disassembleBlock maxDepth depth code progress = .error fault after →
      fault.offset ≤ code.stop := by
  unfold disassembleBlock
  rw [decoded.same]
  cases here : decodeFrom maxDepth depth #[] code progress with
  | error fault after =>
    refine ⟨rfl, fun _ _ equal => ?_⟩
    cases equal
    exact decoded.faults fault after here
  | ok rows after =>
    dsimp only [displaced]
    rw [Cursor.region_shifted]
    exact finishSequence_shifted earlier (decoded.rows rows after here) after

/-- A step is the same further on, and stays in the block. -/
theorem nextStep_within (distance : Nat) {depth depth' stop : Nat} {cursor : Cursor}
    (room : maxDepth' - depth' = maxDepth - depth) (ends : cursor.stop = stop) :
    nextStep maxDepth' depth' (cursor.shifted distance) =
        shiftedOutcome distance maxDepth' (Step.shifted distance)
          (nextStep maxDepth depth cursor) ∧
      StepInside stop (nextStep maxDepth depth cursor) :=
  ⟨nextStep_shifted room cursor, ends ▸ nextStep_inside maxDepth depth cursor⟩

/-- **Rows are decoded in the same way further on**, under other definitions, if as many more are
allowed in them. -/
theorem decodeFrom_shifted {depth depth' stop : Nat} (room : maxDepth' - depth' = maxDepth - depth)
    (done : Array Located) (cursor : Cursor) (progress : Progress) (ends : cursor.stop = stop)
    (upTo : RowsUpTo stop done.toList) :
    DecodedPair distance maxDepth' stop earlier
      (decodeFrom maxDepth depth done cursor progress)
      (decodeFrom maxDepth' depth' (done.map (Located.shifted distance earlier.nextLabel))
        (cursor.shifted distance) (earlier.before progress)) := by
  fun_induction chunksFrom maxDepth depth cursor generalizing depth' stop done progress with
  | case1 depth cursor empty =>
    have empty' : (cursor.shifted distance).isEmpty = true := empty
    rw [decodeFrom_empty empty, decodeFrom_empty empty', Array.toList_map]
    exact ⟨rfl, fun rows after equal => by cases equal; exact upTo, nofun⟩
  | case2 depth cursor nonempty fault found =>
    have nonempty' : ¬ (cursor.shifted distance).isEmpty = true := nonempty
    obtain ⟨found', inside⟩ := nextStep_within distance room ends
    rw [found] at found' inside
    rw [decodeFrom_fault nonempty found, decodeFrom_fault nonempty' found']
    exact .error inside progress
  | case3 depth cursor nonempty instruction next found ih =>
    have nonempty' : ¬ (cursor.shifted distance).isEmpty = true := nonempty
    obtain ⟨found', inside⟩ := nextStep_within distance room ends
    rw [found] at found' inside
    obtain ⟨used, moved, spelled⟩ := instruction_of_nextStep found
    have row : Located.between _ (cursor.shifted distance) (next.shifted distance) = _ :=
      Located.between_shifted earlier.nextLabel (.plain instruction) cursor next
    rw [relabelled_of_canon spelled.canon] at row
    rw [decodeFrom_instruction nonempty found, decodeFrom_instruction nonempty' found', row,
      ← Array.map_push]
    exact ih room _ progress inside (upTo.push (ends ▸ cursor.offset_le_stop))
  | case4 depth cursor nonempty signature code next leftover found ih₁ ih₂ =>
    have nonempty' : ¬ (cursor.shifted distance).isEmpty = true := nonempty
    obtain ⟨found', inside⟩ := nextStep_within distance room ends
    rw [found] at found' inside
    obtain ⟨within, stops, extra⟩ := inside
    have deeper : maxDepth' - (depth' + 1) = maxDepth - (depth + 1) := by omega
    have decoded := ih₁ deeper #[] progress rfl nofun
    rw [Array.map_empty] at decoded
    obtain ⟨block, faults⟩ := decoded.finish
    rw [decodeFrom_of_definition nonempty found,
      decodeFrom_of_definition nonempty' found', block]
    cases finishes : disassembleBlock maxDepth (depth + 1) code progress with
    | error fault after => exact .error (Nat.le_trans (faults fault after finishes) within) after
    | ok body after =>
      cases leftover with
      | some fault => exact .error (extra fault rfl) after
      | none =>
        have row : Located.between _ (cursor.shifted distance) (next.shifted distance) = _ :=
          Located.between_shifted earlier.nextLabel (.define signature body) cursor next
        rw [Action.relabelled] at row
        dsimp only [displaced, Option.map]
        rw [row, ← Array.map_push]
        exact ih₂ room _ after stops (upTo.push (ends ▸ cursor.offset_le_stop))

/-- **A block is disassembled in the same way further on**, under other definitions. -/
theorem disassembleBlock_shifted (distance : Nat) (earlier : Progress) {depth depth' : Nat}
    (room : maxDepth' - depth' = maxDepth - depth) (cursor : Cursor) (progress : Progress) :
    disassembleBlock maxDepth' depth' (cursor.shifted distance) (earlier.before progress) =
      displaced distance maxDepth' earlier (relabelAll (Label.raised earlier.nextLabel))
        (disassembleBlock maxDepth depth cursor progress) ∧
    ∀ fault after, disassembleBlock maxDepth depth cursor progress = .error fault after →
      fault.offset ≤ cursor.stop := by
  have decoded : DecodedPair distance maxDepth' cursor.stop earlier _ _ :=
    decodeFrom_shifted room #[] cursor progress rfl nofun
  rw [Array.map_empty] at decoded
  exact decoded.finish

/-- **A block is disassembled as if it stood alone**: as if it were the whole buffer, with as many
definitions allowed in it. -/
theorem disassembleBlock_alone (maxDepth depth base : Nat) (data : List UInt8) (progress : Progress) :
    disassembleBlock maxDepth depth (Cursor.start base data) progress =
      displaced base maxDepth progress (relabelAll (Label.raised progress.nextLabel))
        (disassembleBlock (maxDepth - depth) 0 (Cursor.start 0 data) ⟨0, #[]⟩) := by
  have room : maxDepth - depth = maxDepth - depth - 0 := rfl
  have whole := (disassembleBlock_shifted base progress room (Cursor.start 0 data) ⟨0, #[]⟩).1
  have fresh : progress.before ⟨0, #[]⟩ = progress := by
    rw [Progress.before, Array.append_empty]
    rfl
  rw [fresh] at whole
  exact whole

/-! ### Code along paths -/

/-- Some records are those of a block that is disassembled into a sequence, `depth` definitions
deep. -/
def Disassembles (maxDepth depth : Nat) (records : List Chunk) (actions : List Action) : Prop :=
  ∃ base progress after,
    chunksFrom maxDepth depth (Cursor.start base (bytesOf records)) = records ∧
    disassembleBlock maxDepth depth (Cursor.start base (bytesOf records)) progress =
      .ok actions after

/-- The code of the definitions among the rows of a block has been disassembled. -/
theorem Decodes.codes {depth : Nat} {cursor : Cursor} {progress after : Progress}
    {rows : List Located} (decodes : Decodes maxDepth depth cursor progress rows after) :
    List.Forall₂ (Disassembles maxDepth (depth + 1)) (codesOf (chunksFrom maxDepth depth cursor))
      (bodiesOf (rows.map Located.action)) := by
  induction decodes with
  | ended empty _ =>
    rw [chunksFrom_empty empty]
    exact .nil
  | instruction nonempty found _ codes =>
    rw [chunksFrom_instruction nonempty found]
    exact codes
  | @definition _ cursor _ _ progress _ last _ _ _ _ _ nonempty found inside finishes _ _ codes =>
    obtain ⟨_, front, _, _, isCode⟩ := declaration_of_nextStep found
    rw [chunksFrom_definition nonempty found]
    refine .cons ⟨cursor.offset + front.length, progress, last, ?_, ?_⟩ codes
    · rw [inside.read.bytes, ← isCode]
    · rw [inside.read.bytes, ← isCode]
      exact disassembleBlock_ok_iff.mpr ⟨_, _, inside, finishes⟩

theorem Disassembles.inside {depth : Nat} {records : List Chunk} {actions : List Action}
    (disassembles : Disassembles maxDepth depth records actions) :
    List.Forall₂ (Disassembles maxDepth (depth + 1)) (codesOf records) (bodiesOf actions) := by
  obtain ⟨base, progress, after, isRead, success⟩ := disassembles
  obtain ⟨rows, middle, decodes, finishes⟩ := disassembleBlock_ok_iff.mp success
  obtain ⟨real, finishable, rfl, _⟩ := decodes.finished rfl finishes
  have codes := decodes.codes
  rw [bodiesOf_finished real finishable.fit, List.map_map]
  rw [isRead] at codes
  exact codes

/-- **Code that has been disassembled is disassembled alone**, into the same actions with lesser
labels. -/
theorem Disassembles.alone {depth : Nat} {records : List Chunk} {actions : List Action}
    (disassembles : Disassembles maxDepth depth records actions) :
    ∃ count alone after,
      disassembleBlock (maxDepth - depth) 0 (Cursor.start 0 (bytesOf records)) ⟨0, #[]⟩ =
        .ok alone after ∧
      actions = relabelAll (Label.raised count) alone := by
  obtain ⟨base, progress, after, _, success⟩ := disassembles
  rw [disassembleBlock_alone] at success
  cases here : disassembleBlock (maxDepth - depth) 0 (Cursor.start 0 (bytesOf records)) ⟨0, #[]⟩ with
  | error fault last =>
    rw [here] at success
    cases success
  | ok alone last =>
    rw [here] at success
    cases success
    exact ⟨progress.nextLabel, alone, last, rfl, rfl⟩

/-! ### Buffers -/

theorem examined_relabelled (settings : DisassemblySettings) (count : Nat) (actions : List Action) :
    settings.examined (relabelAll (Label.raised count) actions) =
      relabelAll (Label.raised count) (settings.examined actions) := by
  unfold DisassemblySettings.examined
  split
  · exact examine_relabelled (Label.raised_injective count) settings.seedSlots actions
  · rfl

theorem codeAt?_examined (settings : DisassemblySettings) (path : List Nat) (actions : List Action) :
    codeAt? path (settings.examined actions) = (codeAt? path actions).map settings.examined := by
  unfold DisassemblySettings.examined
  split
  · exact codeAt?_examine path actions settings.seedSlots
  · exact Option.map_id'.symm

/-- Some code is what the bytes of its records are disassembled into alone, with lesser labels. -/
def StandsAlone (settings : DisassemblySettings) (records : List Chunk) (code : List Action) : Prop :=
  ∃ count alone, (disassemble settings (bytesOf records)).result = .ok alone ∧
    code = relabelAll (Label.raised count) alone

/-- **Nested code is decoded as if it stood alone.** A block under some definitions is disassembled
exactly if it is as a whole buffer with as many fewer definitions allowed, into the same actions with
greater labels, or with the same fault further on. So the code that a path leads to is what its bytes
are disassembled into on their own, but for its labels. Faults lie in the buffer. -/
theorem disassemble_nested :
    (∀ maxDepth depth base data progress,
      disassembleBlock maxDepth depth (Cursor.start base data) progress =
        displaced base maxDepth progress (relabelAll (Label.raised progress.nextLabel))
          (disassembleBlock (maxDepth - depth) 0 (Cursor.start 0 data) ⟨0, #[]⟩)) ∧
    (∀ settings bytes actions, (disassemble settings bytes).result = .ok actions →
      bytesOf (chunks settings.maxDepth bytes) = bytes ∧
      AllFormed Instruction.SpelledBy settings.maxDepth (chunks settings.maxDepth bytes) ∧
      ∀ path, Option.Rel
        (StandsAlone { settings with maxDepth := settings.maxDepth - path.length })
        (recordsAt? path (chunks settings.maxDepth bytes)) (codeAt? path actions)) ∧
    ∀ settings bytes fault, (disassemble settings bytes).result = .error fault →
      fault.offset ≤ bytes.length := by
  refine ⟨disassembleBlock_alone, fun settings bytes actions success => ?_,
    fun settings bytes fault failure => ?_⟩
  · have accepted := (disassemble_ok success).1
    refine ⟨accepted.whole, accepted.formed, fun path => ?_⟩
    obtain ⟨plain, after, block, rfl⟩ := disassemble_eq_ok_iff.mp success
    have start : Disassembles settings.maxDepth 0 (chunks settings.maxDepth bytes) plain := by
      refine ⟨0, ⟨0, #[]⟩, after, ?_, ?_⟩
      · rw [accepted.whole]
        rfl
      · rwa [accepted.whole]
    have along := @rel_recordsAt_of_depth _ (Disassembles settings.maxDepth)
      (fun _ _ _ => Disassembles.alone) (fun _ _ _ => Disassembles.inside) 0 _ _ start path
    rw [Nat.zero_add] at along
    rw [codeAt?_examined]
    revert along
    generalize recordsAt? path (chunks settings.maxDepth bytes) = records
    generalize codeAt? path plain = code
    rintro (⟨count, alone, last, isAlone, rfl⟩ | _)
    · exact .some ⟨count, settings.examined alone,
        disassemble_eq_ok_iff.mpr ⟨alone, last, isAlone, rfl⟩,
        examined_relabelled settings count alone⟩
    · exact .none
  · obtain ⟨after, block⟩ := disassemble_eq_error_iff.mp failure
    have within := (disassembleBlock_shifted 0 ⟨0, #[]⟩ (Eq.refl (settings.maxDepth - 0))
      (Cursor.start 0 bytes) ⟨0, #[]⟩).2 fault after block
    have stop : (Cursor.start 0 bytes).stop = bytes.length := Nat.zero_add _
    rwa [stop] at within

/-- Two definitions, each with a branch to the end of its code. -/
def twoBranches : List UInt8 :=
  [0x9b, 6, 0, 0x66, 0, 0, 0, 5, 0, 0x99, 2, 0, 0, 0,
    0x9b, 6, 0, 0x67, 0, 0, 0, 5, 0, 0x99, 2, 0, 0, 0]

/-- The label in the second definition comes after that in the first one. A branch that is cut off in
code of two bytes is reported at its place in the whole buffer. -/
theorem disassemble_nested_branches :
    (∃ actions, (disassemble .raw twoBranches).result = .ok actions ∧
      codeAt? [1] actions = some (relabelAll (Label.raised 1)
        [.plain (.branch ⟨false, 0, some ⟨0⟩⟩), .marker (.label ⟨0⟩)]) ∧
      ∀ path, Option.Rel
        (StandsAlone { DisassemblySettings.raw with maxDepth := defaultMaxDepth - path.length })
        (recordsAt? path (chunks defaultMaxDepth twoBranches)) (codeAt? path actions)) ∧
    (disassemble .raw [0x9b, 6, 0, 0x66, 0, 0, 0, 2, 0, 0x99, 2]).result =
      .error (.read (.unexpectedEnd 10 1)) ∧ 10 ≤ 11 :=
  have both : (disassemble .raw twoBranches).result = .ok
      [.define (.simple "f" []) [.plain (.branch ⟨false, 0, some ⟨0⟩⟩), .marker (.label ⟨0⟩)],
        .define (.simple "g" []) [.plain (.branch ⟨false, 0, some ⟨1⟩⟩), .marker (.label ⟨1⟩)]] := by
    decide +kernel
  have cut : (disassemble .raw [0x9b, 6, 0, 0x66, 0, 0, 0, 2, 0, 0x99, 2]).result =
      .error (.read (.unexpectedEnd 10 1)) := by
    decide +kernel
  ⟨⟨_, both, by decide +kernel, (disassemble_nested.2.1 .raw _ _ both).2.2⟩, cut,
    disassemble_nested.2.2 .raw _ _ cut⟩

end ActionCode
