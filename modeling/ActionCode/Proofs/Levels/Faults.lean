/-
**Which pass a fault comes from.**

* `AssemblyFault.OfBranches`, `AssemblyFault.OfBlocks`: the faults of resolving branches and of
  measuring blocks, **`ofBranches_of_resolveBranches`** and **`ofBlocks_of_measureBlocks`**.
* **`assemble_error_cases`**: a fault is that of the first pass that has one.
-/

import ActionCode.Proofs.Blocks.Refusals
import ActionCode.Proofs.Merging.Invisible

namespace ActionCode

/-- The faults of resolving branches. -/
def AssemblyFault.OfBranches : AssemblyFault → Prop
  | .missingLabel _ | .duplicateLabel _ | .branchOutOfRange _ _ => True
  | _ => False

/-- The faults of measuring blocks. -/
def AssemblyFault.OfBlocks : AssemblyFault → Prop
  | .write _ | .missingEndMarker _ _ | .unmatchedMarker _ _ | .mismatchedNesting _ _ _ => True
  | _ => False

theorem AssemblyFault.not_ofBlocks {fault : AssemblyFault} (isBranches : fault.OfBranches) :
    ¬ fault.OfBlocks := by
  cases fault <;> simp_all [OfBranches, OfBlocks]

/-! ### Branches -/

section

variable {placed : Std.TreeMap Nat Nat} {fault : AssemblyFault}

theorem ofBranches_of_placeLabel {row : Action × Nat}
    (failed : placeLabel placed row = .error fault) : fault.OfBranches := by
  unfold placeLabel at failed
  split at failed
  · cases failed
  · split at failed
    · cases failed
      trivial
    · cases failed

theorem ofBranches_of_resolveRow {row : Action × Nat}
    (failed : resolveRow placed row = .error fault) : fault.OfBranches := by
  unfold resolveRow at failed
  split at failed
  · cases failed
  · split at failed
    · rename_i other resolved
      cases failed
      unfold Branch.resolve at resolved
      split at resolved
      · cases resolved
      · split at resolved
        · cases resolved
          trivial
        · dsimp only at resolved
          split at resolved
          · cases resolved
          · cases resolved
            trivial
    · cases failed

/-- A checked step for every element fails for what some step fails for. -/
theorem exists_of_mapM_error {ε α β : Type} {step : α → Except ε β} {values : List α} {fault : ε}
    (failed : values.mapM step = .error fault) : ∃ value ∈ values, step value = .error fault := by
  induction values with
  | nil => cases failed
  | cons value rest ih =>
    rw [List.mapM_cons] at failed
    obtain here | ⟨_, _, failed⟩ := except_bind_error failed
    · exact ⟨value, List.mem_cons_self, here⟩
    · obtain later | ⟨_, _, failed⟩ := except_bind_error failed
      · obtain ⟨other, inside, found⟩ := ih later
        exact ⟨other, List.mem_cons_of_mem _ inside, found⟩
      · cases failed

/-- A checked fold fails for what some step fails for. -/
theorem exists_of_foldlM_error {ε α β : Type} {step : β → α → Except ε β} {values : List α}
    {start : β} {fault : ε} (failed : values.foldlM step start = .error fault) :
    ∃ reached, ∃ value ∈ values, step reached value = .error fault := by
  induction values generalizing start with
  | nil => cases failed
  | cons value rest ih =>
    rw [List.foldlM_cons] at failed
    obtain here | ⟨next, _, later⟩ := except_bind_error failed
    · exact ⟨start, value, List.mem_cons_self, here⟩
    · obtain ⟨reached, other, inside, found⟩ := ih later
      exact ⟨reached, other, List.mem_cons_of_mem _ inside, found⟩

theorem ofBranches_of_resolveOwnBranches {actions : List Action}
    (failed : resolveOwnBranches actions = .error fault) : fault.OfBranches := by
  unfold resolveOwnBranches at failed
  obtain placing | ⟨placed, _, resolving⟩ := except_bind_error failed
  · obtain ⟨reached, row, _, here⟩ := exists_of_foldlM_error placing
    exact ofBranches_of_placeLabel here
  · obtain ⟨row, _, here⟩ := exists_of_mapM_error resolving
    exact ofBranches_of_resolveRow here

/-- **Resolving branches fails for labels only.** -/
theorem ofBranches_of_resolveBranches {actions : List Action}
    (failed : resolveBranches actions = .error fault) : fault.OfBranches := by
  obtain ⟨_, _, _, _, _, here⟩ := tryLevels_error adjusts_resolveOwnBranches failed
  exact ofBranches_of_resolveOwnBranches here

/-! ### Blocks -/

/-- **Measuring blocks fails for markers and sizes only.** -/
theorem ofBlocks_of_measureBlocks {actions : List Action}
    (failed : measureBlocks actions = .error fault) : fault.OfBlocks := by
  obtain ⟨_, code, _, own⟩ := measureBlocks_error failed
  unfold measureOwnBlocks at own
  split at own
  · rename_i other ran
    cases own
    obtain ⟨_, _, _, _, _, _, stepped⟩ := BlockScan.exists_of_run_error ran
    obtain ⟨overflow, rfl⟩ | ⟨marker, _, refuses, _⟩ := BlockScan.step_error stepped
    · trivial
    · cases fault with
      | unmatchedMarker _ _ => trivial
      | mismatchedNesting _ _ _ => trivial
      | _ => cases refuses
  · split at own
    · cases own
    · cases own
      trivial

end

/-! ### The first pass with a fault -/

/-- Where a fault of assembly comes from. -/
inductive FaultSource (settings : AssemblySettings) (actions : List Action) :
    AssemblyFault → Prop
  | depth (deep : settings.maxDepth < nesting actions) :
      FaultSource settings actions (.tooDeep settings.maxDepth)
  | branches {fault : AssemblyFault} (shallow : nesting actions ≤ settings.maxDepth)
      (failed : resolveBranches (mergePushes actions) = .error fault) :
      FaultSource settings actions fault
  | blocks {fault : AssemblyFault} {branched : List Action}
      (shallow : nesting actions ≤ settings.maxDepth)
      (resolved : resolveBranches (mergePushes actions) = .ok branched)
      (failed : measureBlocks branched = .error fault) : FaultSource settings actions fault
  | writing {fault : WriteFault} {resolved : List Action}
      (resolves : resolve settings actions = .ok resolved) :
      FaultSource settings actions (.write fault)

/-- **A fault of assembly is that of the first pass that has one**: the limit is tested before branches
are resolved, these before blocks are measured, and these before anything is written. -/
theorem assemble_error_cases {settings : AssemblySettings} {actions : List Action}
    {fault : AssemblyFault} (failed : (assemble settings actions).result = .error fault) :
    FaultSource settings actions fault := by
  unfold assemble at failed
  by_cases deep : settings.maxDepth < nesting actions
  · have thrown : resolve settings actions = .error (.tooDeep settings.maxDepth) := by
      rw [resolve, if_pos deep]
      rfl
    rw [thrown] at failed
    cases failed
    exact .depth deep
  · have shallow : nesting actions ≤ settings.maxDepth := Nat.le_of_not_lt deep
    cases resolves : resolve settings actions with
    | error other =>
      rw [resolves] at failed
      cases failed
      rw [resolve_eq shallow] at resolves
      obtain branching | ⟨branched, resolved, measuring⟩ := except_bind_error resolves
      · exact .branches shallow branching
      · exact .blocks shallow resolved measuring
    | ok resolved =>
      rw [resolves] at failed
      dsimp only at failed
      split at failed
      · cases failed
        exact .writing resolves
      · cases failed

end ActionCode
