/-
**A limit on nesting is exact, and changes nothing else.**

* `assemble_tooDeep_iff`: a sequence is refused for its depth exactly if it nests too deep, whatever
  other faults it has. `assemble_of_room`: with enough room, how much there is does not matter.
* `nesting_le_of_disassemble`: a listing nests no deeper than the limit.
* **`depth_limits_exact`**: both directions.
-/

import ActionCode.Proofs.Depth.Narrowing
import ActionCode.Proofs.Levels.Faults

namespace ActionCode

/-! ### Assembly -/

/-- A sequence that nests too deep is refused for that. -/
theorem assemble_of_deep {settings : AssemblySettings} {actions : List Action}
    (deep : settings.maxDepth < nesting actions) :
    (assemble settings actions).result = .error (.tooDeep settings.maxDepth) := by
  have thrown : resolve settings actions = .error (.tooDeep settings.maxDepth) := by
    rw [resolve, if_pos deep]
    rfl
  rw [assemble, thrown]

/-- **A sequence is refused for its depth exactly if it nests too deep**, whatever other faults it
has. -/
theorem assemble_tooDeep_iff {settings : AssemblySettings} {actions : List Action} :
    (∃ limit, (assemble settings actions).result = .error (.tooDeep limit)) ↔
      settings.maxDepth < nesting actions := by
  constructor
  · rintro ⟨limit, failed⟩
    cases assemble_error_cases failed with
    | depth deep => exact deep
    | branches _ failed => exact (ofBranches_of_resolveBranches failed).elim
    | blocks _ _ failed => exact (ofBlocks_of_measureBlocks failed).elim
  · exact fun deep => ⟨_, assemble_of_deep deep⟩

/-- **With enough room, how much there is does not matter.** -/
theorem assemble_of_room {settings other : AssemblySettings} {actions : List Action}
    (shallow : nesting actions ≤ settings.maxDepth) (shallow' : nesting actions ≤ other.maxDepth) :
    assemble settings actions = assemble other actions := by
  unfold assemble
  rw [resolve_eq shallow, resolve_eq shallow']

/-! ### Disassembly -/

/-- A listing with its counts nests no deeper than the limit. -/
theorem nesting_le_of_disassemble {settings : DisassemblySettings} {bytes : List UInt8}
    {actions : List Action} (success : (disassemble settings bytes).result = .ok actions) :
    nesting actions ≤ settings.maxDepth := by
  obtain ⟨accepted, rfl⟩ := disassemble_ok success
  rw [nesting_examined]
  exact accepted.nesting_le

/-- What is not refused for its depth is disassembled alike with more room. -/
theorem disassemble_of_more_room {settings : DisassemblySettings} {bytes : List UInt8} {room : Nat}
    (within : settings.maxDepth ≤ room)
    (undeep : ∀ offset limit, (disassemble settings bytes).result ≠ .error (.tooDeep offset limit)) :
    disassemble { settings with maxDepth := room } bytes = disassemble settings bytes := by
  obtain same | ⟨⟨offset, failed⟩, -⟩ := disassemble_narrowed settings within bytes
  · exact same
  · exact absurd failed (undeep offset _)

/-- What is accepted is disassembled alike with any limit that it keeps to. -/
theorem disassemble_of_shallow {settings : DisassemblySettings} {bytes : List UInt8} {room : Nat}
    {actions : List Action}
    (success : (disassemble { settings with maxDepth := room } bytes).result = .ok actions)
    (shallow : nesting actions ≤ settings.maxDepth) :
    disassemble settings bytes = disassemble { settings with maxDepth := room } bytes := by
  by_cases within : settings.maxDepth ≤ room
  · obtain same | ⟨-, deep⟩ := disassemble_narrowed settings within bytes
    · exact same.symm
    · exact absurd shallow (Nat.not_le.mpr (deep actions success))
  · have narrower : { settings with maxDepth := room }.maxDepth ≤ settings.maxDepth :=
      Nat.le_of_not_le within
    refine disassemble_of_more_room narrower fun offset limit failed => ?_
    rw [success] at failed
    cases failed

/-! ### Both directions -/

/-- **A limit on nesting is exact, and changes nothing else.** A sequence is refused for its depth
exactly if a path of more definitions than the limit leads to code, whatever other faults it has; it
does not matter that the limit is tested at each definition while pushes are merged. With room enough
all limits are alike. A buffer that is not refused for its depth is disassembled alike with every
greater limit. A listing nests no deeper than the limit; and with any limit that it keeps to comes the
same listing, with the same reports. -/
theorem depth_limits_exact :
    (∀ (settings : AssemblySettings) (actions : List Action),
      ((∃ limit, (assemble settings actions).result = .error (.tooDeep limit)) ↔
        settings.maxDepth < nesting actions) ∧
      (settings.maxDepth < nesting actions ↔ ∃ path code,
        codeAt? path actions = some code ∧ path.length = settings.maxDepth + 1) ∧
      mergeWithin settings.maxDepth actions =
        if settings.maxDepth < nesting actions then .error (.tooDeep settings.maxDepth)
        else .ok (mergePushes actions)) ∧
    (∀ (settings other : AssemblySettings) (actions : List Action),
      nesting actions ≤ settings.maxDepth → nesting actions ≤ other.maxDepth →
        assemble settings actions = assemble other actions) ∧
    (∀ (settings : DisassemblySettings) (bytes : List UInt8) (room : Nat),
      (∀ offset limit, (disassemble settings bytes).result ≠ .error (.tooDeep offset limit)) →
        settings.maxDepth ≤ room →
          disassemble { settings with maxDepth := room } bytes = disassemble settings bytes) ∧
    (∀ (settings : DisassemblySettings) (bytes : List UInt8) (actions : List Action),
      (disassemble settings bytes).result = .ok actions → nesting actions ≤ settings.maxDepth) ∧
    ∀ (settings : DisassemblySettings) (bytes : List UInt8) (room : Nat) (actions : List Action),
      (disassemble { settings with maxDepth := room } bytes).result = .ok actions →
        nesting actions ≤ settings.maxDepth →
          disassemble settings bytes = disassemble { settings with maxDepth := room } bytes :=
  ⟨fun _ _ => ⟨assemble_tooDeep_iff, lt_nesting_iff, mergeWithin_eq _ _⟩,
    fun _ _ _ => assemble_of_room,
    fun _ _ _ undeep within => disassemble_of_more_room within undeep,
    fun _ _ _ => nesting_le_of_disassemble, fun _ _ _ _ => disassemble_of_shallow⟩

/-- A definition in a definition, as bytes. -/
def twiceDefined : List UInt8 :=
  [0x9b, 6, 0, 0x66, 0, 0, 0, 9, 0, 0x9b, 6, 0, 0x67, 0, 0, 0, 0, 0]

/-- A definition in a definition is refused for its depth before the branch behind it is for its label,
but not if two are allowed. As bytes it is listed alike whether two are allowed or more. -/
theorem depth_limits_exact_twice :
    (∃ limit, (assemble ⟨1⟩ [.define (.simple "f" []) [.define (.simple "g" []) []],
      .plain (.branch ⟨false, 0, some ⟨7⟩⟩)]).result = .error (.tooDeep limit)) ∧
    assemble ⟨2⟩ [.define (.simple "f" []) [.define (.simple "g" []) []],
        .plain (.branch ⟨false, 0, some ⟨7⟩⟩)] =
      assemble ⟨64⟩ [.define (.simple "f" []) [.define (.simple "g" []) []],
        .plain (.branch ⟨false, 0, some ⟨7⟩⟩)] ∧
    disassemble ⟨false, 64, 0⟩ twiceDefined = disassemble ⟨false, 2, 0⟩ twiceDefined ∧
    nesting [.define (.simple "f" []) [.define (.simple "g" []) []]] ≤ 2 ∧
    disassemble ⟨false, 3, 0⟩ twiceDefined = disassemble ⟨false, 64, 0⟩ twiceDefined := by
  have narrow : (disassemble ⟨false, 2, 0⟩ twiceDefined).result =
      .ok [.define (.simple "f" []) [.define (.simple "g" []) []]] := by
    decide +kernel
  have wide : (disassemble ⟨false, 64, 0⟩ twiceDefined).result =
      .ok [.define (.simple "f" []) [.define (.simple "g" []) []]] := by
    decide +kernel
  refine ⟨(depth_limits_exact.1 ⟨1⟩ _).1.mpr (by decide),
    depth_limits_exact.2.1 ⟨2⟩ ⟨64⟩ _ (by decide) (by decide),
    depth_limits_exact.2.2.1 ⟨false, 2, 0⟩ _ 64 (fun offset limit failed => ?_) (by decide),
    depth_limits_exact.2.2.2.1 ⟨false, 2, 0⟩ _ _ narrow,
    depth_limits_exact.2.2.2.2 ⟨false, 3, 0⟩ _ 64 _ wide (by decide)⟩
  rw [narrow] at failed
  cases failed

end ActionCode
