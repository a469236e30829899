/-
**Joining pushes is done once.**

* `assemble_fault`: what is resolved has a fault only of writing it.
* `Coalesced.relisted`: the records of what is written are those of the listing, joined.
* **`coalescing_stable`**: the listing of a buffer whose spans nest is assembled to fewer bytes, or a
  joined push is too long. What it is assembled to is listed as the buffer was, but for offsets and
  sizes, and comes back byte for byte.
-/

import ActionCode.Proofs.RoundTrip.Coalescing

namespace ActionCode

variable {maxDepth : Nat} {bytes : List UInt8} {result : List Action}

theorem Coalesced.merged {nextLabel : Nat} {chunks : List Chunk}
    (coalesced : Coalesced nextLabel chunks result) : EveryLevel Merged result :=
  ⟨coalesced.canonical.1.merged,
    allCodeHolds_of_imp (fun _ canonical => canonical.merged) coalesced.canonical.2⟩

/-- A coalesced listing that is split again differs from the listing in offsets and sizes only. -/
theorem Coalesced.blank_split {room : Nat} {chunks : List Chunk}
    (coalesced : Coalesced 0 chunks result) (level : Level room 0 chunks) :
    recastAll Instruction.blank (mapLevels splitPushes result) =
      recastAll Instruction.blank (actionsOf 0 chunks) := by
  have passes : ∀ actions, splitPushes (recastAll Instruction.blank actions) =
      recastAll Instruction.blank (splitPushes actions) := by
    intro actions
    rw [recastAll_eq_map, recastAll_eq_map, sparesPushes_blank.recast.map_splitPushes]
  rw [← mapLevels_recastAll passes, ← coalesced.blank, mapLevels_recastAll passes,
    mapLevels_split_merge level.single.1 level.single.2]

/-- The records of the result are listed as the result, split again. -/
theorem Coalesced.relisted {chunks : List Chunk} (coalesced : Coalesced 0 chunks result)
    {written : List UInt8} (isWritten : imageFrom false result = some written) :
    actionsOf 0 (chunksOf result) = mapLevels splitPushes result :=
  actionsOf_chunksOf coalesced.canonical isWritten coalesced.inner coalesced.numbered

theorem Coalesced.nesting_split {room : Nat} {chunks : List Chunk}
    (coalesced : Coalesced 0 chunks result) (level : Level room 0 chunks) :
    nesting (mapLevels splitPushes result) = nesting (actionsOf 0 chunks) := by
  rw [nesting, ← nestingFrom_recastAll Instruction.blank, coalesced.blank_split level,
    nestingFrom_recastAll]
  rfl

/-- Merging the split result again gives it back, and it is settled. -/
theorem Coalesced.resolves_again {room : Nat} {chunks : List Chunk} {settings : AssemblySettings}
    (coalesced : Coalesced 0 chunks result) (level : Level room 0 chunks)
    (shallow : nesting (actionsOf 0 chunks) ≤ settings.maxDepth) :
    resolve settings (mapLevels splitPushes result) = .ok result := by
  refine resolve_ok_iff.mpr ⟨?_, ?_, coalesced.canonical.1.sealed.1,
    allCodeHolds_of_imp (fun _ canonical => canonical.sealed.1) coalesced.canonical.2⟩
  · rw [coalesced.nesting_split level]
    exact shallow
  · rw [mergePushes_splitPushes coalesced.merged]

/-- What is resolved and has no image is not assembled, for a cause of its writer. -/
theorem assemble_fault {settings : AssemblySettings} {actions : List Action}
    {causes : WriteFault → Prop} (resolves : resolve settings actions = .ok result)
    (unwritten : imageFrom false result = none)
    (fails : Writer.FailsOnly (writeFrom false result) causes) :
    ∃ fault, causes fault ∧ (assemble settings actions).result = .error (.write fault) := by
  have never : ∀ written, (writeSequence result).run ≠ (.ok (), written) := by
    intro written ran
    rw [writeSequence, Writer.run_ok_iff (writeFrom_images false result), unwritten] at ran
    cases ran
  rw [assemble, resolves]
  dsimp only
  rw [Writer.run] at never ⊢
  cases ran : writeSequence result #[] with
  | ok value output =>
    rw [ran] at never
    exact absurd rfl (never _)
  | error fault output => exact ⟨fault, fails _ _ _ ran, rfl⟩

/-- A push occurs wherever it does after a cast that spares pushes. -/
theorem Occurs.of_recastAll {cast : Instruction → Instruction} (spares : SparesPushes cast)
    {run : Action} (some : run.pushed ≠ []) {actions others : List Action}
    (occurs : Occurs run actions) (same : recastAll cast actions = recastAll cast others) :
    Occurs run others := by
  rw [recastAll_eq_map, recastAll_eq_map] at same
  induction occurs generalizing others with
  | here inside =>
    obtain ⟨other, isOther, alike⟩ := List.mem_map.mp
      (same ▸ List.mem_map_of_mem (f := Action.recast cast) inside)
    rw [spares.recast.same run some] at alike
    have pushed : other.pushed ≠ [] := by
      rw [← spares.recast.pushed, alike]
      exact some
    rw [spares.recast.same other pushed] at alike
    exact .here (alike ▸ isOther)
  | @deeper actions body signature isDefine inside ih =>
    obtain ⟨other, isOther, alike⟩ := List.mem_map.mp
      (same ▸ List.mem_map_of_mem (f := Action.recast cast) isDefine)
    cases other with
    | define _ code =>
      rw [Action.recast, Action.recast, Action.define.injEq] at alike
      obtain ⟨rfl, alike⟩ := alike
      rw [recastAll_eq_map, recastAll_eq_map] at alike
      exact .deeper isOther (ih alike.symm)
    | plain instruction =>
      rw [Action.recast, Action.recast] at alike
      cases alike
    | marker found =>
      rw [Action.recast, Action.recast] at alike
      cases alike

/-- **The result is the listing with its pushes merged**, but for what assembly works out. -/
theorem Coalesced.essence_eq {chunks : List Chunk} {nextLabel : Nat}
    (coalesced : Coalesced nextLabel chunks result) (settings : DisassemblySettings) :
    recastAll Instruction.essence (mergePushes (settings.examined (actionsOf nextLabel chunks))) =
      recastAll Instruction.essence result := by
  have through : ∀ actions : List Action, recastAll Instruction.essence actions =
      recastAll Instruction.essence (recastAll Instruction.blank actions) := by
    intro actions
    rw [recastAll_recastAll]
    exact congrArg (recastAll · actions)
      (funext fun instruction => instruction.essence_blank.symm)
  have merges : ∀ actions : List Action, recastAll Instruction.essence (mergePushes actions) =
      mergePushes (recastAll Instruction.essence actions) := fun actions =>
    (mapLevels_recastAll sparesPushes_essence.mergeRuns actions).symm
  rw [merges, recastAll_examined dropsCounts_essence, ← merges, through, coalesced.blank, ← through]

/-- **Joining pushes is done once.** The listing of a buffer whose spans nest at every level is not
assembled if some joined push is too long for its record. Otherwise it is assembled to a buffer that
is shorter by a head for each record of pushes that is joined with the one before. That buffer is
listed as the first one, but for offsets of labelled branches and sizes of blocks, and its listing is
assembled to the same bytes. -/
theorem coalescing_stable {disassembly : DisassemblySettings} {assembly : AssemblySettings}
    {actions : List Action} (success : (disassemble disassembly bytes).result = .ok actions)
    (deep : disassembly.maxDepth ≤ assembly.maxDepth)
    (nest : EveryCode SpansNest (chunks disassembly.maxDepth bytes)) :
    (∃ run, Occurs run (mergePushes actions) ∧ 65535 < run.pushedWidth ∧
      (assemble assembly actions).result =
        .error (.write (.overflow .bodyLength run.pushedWidth))) ∨
    ∃ shorter, (assemble assembly actions).result = .ok shorter ∧
      shorter.length + headWidth * joins (chunks disassembly.maxDepth bytes) = bytes.length ∧
      ∃ again, (disassemble disassembly shorter).result = .ok again ∧
        recastAll Instruction.blank again = recastAll Instruction.blank actions ∧
        (assemble assembly again).result = .ok shorter := by
  obtain ⟨accepted, rfl⟩ := disassemble_ok success
  obtain ⟨result, coalesced⟩ := accepted.exists_coalesced nest
  have shallow := accepted.nesting_le
  have resolves : resolve assembly (plainActions disassembly.maxDepth bytes) = .ok result :=
    coalesced.resolves (shallow.trans deep)
  simp only [assemble_examined]
  cases written : imageFrom false result with
  | none =>
    left
    have spaced : EveryLevel Spaced result := ⟨coalesced.canonical.1.merged.spaced,
      allCodeHolds_of_imp (fun _ canonical => canonical.merged.spaced) coalesced.canonical.2⟩
    obtain ⟨_, ⟨run, occurs, long, rfl⟩, fails⟩ :=
      assemble_fault resolves written (failsOnly_writeFrom coalesced.writable spaced)
    have some : run.pushed ≠ [] := fun none => by
      rw [Action.pushedWidth, none] at long
      cases long
    exact ⟨run, occurs.of_recastAll sparesPushes_essence some
      (coalesced.essence_eq disassembly).symm, long, fails⟩
  | some shorter =>
    right
    have length := coalesced.shorter
    rw [length_of_sequence written, accepted.whole] at length
    refine ⟨shorter, assemble_ok_iff.mpr ⟨result, resolves, written⟩, length,
      disassembly.examined (mapLevels splitPushes result), ?_, ?_, ?_⟩
    · have same := coalesced.relisted written
      have sealed : EveryLevel Sealed result := ⟨coalesced.canonical.1.sealed,
        allCodeHolds_of_imp (fun _ canonical => canonical.sealed) coalesced.canonical.2⟩
      rw [← same]
      refine disassemble_of_sealed sealed ?_ written
      rw [← nesting_mapLevels nesting_splitPushes, coalesced.nesting_split accepted.level]
      exact shallow
    · exact examined_blank disassembly (coalesced.blank_split accepted.level)
    · rw [assemble_examined]
      exact assemble_ok_iff.mpr ⟨result,
        coalesced.resolves_again accepted.level (shallow.trans deep), written⟩

/-- Two records of pushes that become one. -/
theorem coalescing_stable_two_pushes :
    (∃ run, Occurs run (mergePushes [.plain (.push (.boolean true)),
        .plain (.push (.boolean false)), .plain (.block (.scope 1)), .plain (.basic .play),
        .marker .endWith]) ∧ 65535 < run.pushedWidth ∧
      (assemble {} [.plain (.push (.boolean true)), .plain (.push (.boolean false)),
        .plain (.block (.scope 1)), .plain (.basic .play), .marker .endWith]).result =
        .error (.write (.overflow .bodyLength run.pushedWidth))) ∨
    ∃ shorter, (assemble {} [.plain (.push (.boolean true)), .plain (.push (.boolean false)),
        .plain (.block (.scope 1)), .plain (.basic .play), .marker .endWith]).result =
        .ok shorter ∧
      shorter.length + headWidth * joins (chunks defaultMaxDepth
        [0x96, 2, 0, 5, 1, 0x96, 2, 0, 5, 0, 0x94, 2, 0, 1, 0, 0x06]) = 16 ∧
      ∃ again, (disassemble .raw shorter).result = .ok again ∧
        recastAll Instruction.blank again = recastAll Instruction.blank
          [.plain (.push (.boolean true)), .plain (.push (.boolean false)),
            .plain (.block (.scope 1)), .plain (.basic .play), .marker .endWith] ∧
        (assemble {} again).result = .ok shorter :=
  @coalescing_stable [0x96, 2, 0, 5, 1, 0x96, 2, 0, 5, 0, 0x94, 2, 0, 1, 0, 0x06] .raw {} _
    (by decide +kernel) (by decide +kernel) (by decide +kernel)

end ActionCode
