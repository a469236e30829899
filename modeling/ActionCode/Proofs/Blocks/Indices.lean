/-
**Where a fault of blocks points.**

* **`exists_place_of_mergePushes`**: an action that pushes nothing stands in the merged sequence as far
  in as the actions before it, merged. **`length_mergePushes_eq_iff`**: these are fewer than before,
  unless no two single pushes are neighbours among them.
* `CountsMerged`: an index counts merged actions up to a place.
* **`blockFaults_count_merged`**: markers and blocks are named by such an index.
  `blockFaults_miss_places`: so it need not be the place of the marker in the sequence as it was given.
-/

import ActionCode.Proofs.Levels.Faults
import ActionCode.Proofs.Merging.Regrouping

namespace ActionCode

/-! ### Places before and after merging -/

theorem Stops.take {rest : List Action} (stops : Stops rest) (count : Nat) :
    Stops (rest.take count) := by
  cases count with
  | zero => exact .nil
  | succ count =>
    rw [Stops, List.head?_take, if_neg (Nat.succ_ne_zero count)]
    exact stops

/-- **Where an action that pushes nothing stands in the merged sequence**, there the merged actions
before it end. -/
theorem exists_place_of_mergePushes {actions : List Action} {index : Nat} {action : Action}
    (found : (mergePushes actions)[index]? = some action) (unpushed : action.pushed = []) :
    ∃ place own, actions[place]? = some own ∧ own.mapInside mergeRuns = action ∧
      (mergePushes (actions.take place)).length = index := by
  induction actions using induction_on_runs generalizing index with
  | nil => cases found
  | other first rest other ih =>
    rw [mergePushes_cons other] at found
    cases index with
    | zero => exact ⟨0, first, rfl, Option.some.inj found, rfl⟩
    | succ index =>
      obtain ⟨place, own, here, same, rfl⟩ := ih found
      refine ⟨place + 1, own, here, same, ?_⟩
      rw [List.take_succ_cons, mergePushes_cons other, List.length_cons]
  | run values rest some stops ih =>
    rw [mergePushes_run some stops] at found
    cases index with
    | zero =>
      obtain rfl := Option.some.inj found
      rw [pushed_pushOf] at unpushed
      exact absurd unpushed some
    | succ index =>
      obtain ⟨place, own, here, same, rfl⟩ := ih found
      have length : (values.map fun value => Action.plain (.push value)).length = values.length :=
        List.length_map _
      refine ⟨values.length + place, own, ?_, same, ?_⟩
      · rw [← length, List.getElem?_append_right (Nat.le_add_right _ _), Nat.add_sub_cancel_left]
        exact here
      · rw [← length, List.take_length_add_append, mergePushes_run some (stops.take place),
          List.length_cons]

/-- Merging makes no sequence longer. -/
theorem length_mergePushes_le (actions : List Action) :
    (mergePushes actions).length ≤ actions.length := by
  induction actions using induction_on_runs with
  | nil => exact Nat.le_refl 0
  | other action rest other ih =>
    rw [mergePushes_cons other]
    exact Nat.succ_le_succ ih
  | run values rest some stops ih =>
    have positive := List.length_pos_iff.mpr some
    rw [mergePushes_run some stops, List.length_cons, List.length_append, List.length_map]
    omega

theorem spaced_cons_iff {action : Action} (other : action.isPush = false) {rest : List Action} :
    Spaced (action :: rest) ↔ Spaced rest :=
  ⟨Spaced.tail, fun spaced => spaced_split other .nil spaced⟩

/-- A run that no push follows is spaced if it is one push. -/
theorem spaced_run_iff {values : List PushValue} (some : values ≠ []) {rest : List Action}
    (stops : Stops rest) :
    Spaced (values.map (fun value => .plain (.push value)) ++ rest) ↔
      values.length = 1 ∧ Spaced rest := by
  rcases values with _ | ⟨value, _ | ⟨next, values⟩⟩
  · exact absurd rfl some
  · refine ⟨fun spaced => ⟨rfl, spaced.tail⟩, fun spaced => spaced.2.cons fun first isFirst both => ?_⟩
    rw [stops first isFirst] at both
    cases both.2
  · refine iff_of_false (fun spaced => ?_) fun single => by cases single.1
    exact Bool.false_ne_true (spaced.other rfl).symm

/-- **Merging makes a sequence shorter, unless no two single pushes are neighbours.** -/
theorem length_mergePushes_eq_iff (actions : List Action) :
    (mergePushes actions).length = actions.length ↔ Spaced actions := by
  induction actions using induction_on_runs with
  | nil => exact iff_of_true rfl .nil
  | other action rest other ih =>
    rw [mergePushes_cons other, spaced_cons_iff other, ← ih, List.length_cons, List.length_cons,
      Nat.add_right_cancel_iff]
  | run values rest some stops ih =>
    have positive := List.length_pos_iff.mpr some
    have shorter := length_mergePushes_le rest
    rw [mergePushes_run some stops, spaced_run_iff some stops, ← ih, List.length_cons,
      List.length_append, List.length_map]
    omega

/-! ### Indices of faults -/

/-- An index counts merged actions up to a place. Then it is that place exactly if no two single
pushes are neighbours before. -/
structure CountsMerged (actions : List Action) (index place : Nat) : Prop where
  merged : index = (mergePushes (actions.take place)).length
  exact_iff : index = place ↔ Spaced (actions.take place)

theorem counts_of_merged {actions : List Action} {place : Nat} (inside : place < actions.length) :
    CountsMerged actions (mergePushes (actions.take place)).length place := by
  refine ⟨rfl, ?_⟩
  rw [← length_mergePushes_eq_iff, List.length_take_of_le (Nat.le_of_lt inside)]

/-- An action that is neither a branch nor a definition is what it is made of. -/
theorem Action.eq_of_recast_unaimed {action other : Action}
    (same : other.recast Instruction.unaimed = action.recast Instruction.unaimed)
    (aimless : action.branch? = none) (flat : action.body? = none) : other = action := by
  have shells : other.recastShell Instruction.unaimed = action.recastShell Instruction.unaimed := by
    cases action with
    | define signature body => cases flat
    | _ =>
      cases other with
      | define signature body => cases same
      | _ => exact same
  have aimless' := congrArg Action.branch? shells
  rw [branch?_recastShell_unaimed, branch?_recastShell_unaimed, aimless, Option.map_none,
    Option.map_eq_none_iff] at aimless'
  rwa [recastShell_unaimed_of_other aimless, recastShell_unaimed_of_other aimless'] at shells

theorem Action.eq_of_mapInside {pass : List Action → List Action} {action other : Action}
    (same : other.mapInside pass = action) (flat : action.body? = none) : other = action := by
  cases other with
  | plain instruction => rwa [mapInside_plain] at same
  | define signature body =>
    rw [mapInside_define] at same
    subst same
    cases flat
  | marker found => rwa [mapInside_marker] at same

/-- An action that merging and resolving leave alone, and the place it has been given. -/
theorem exists_place_of_resolved {actions branched : List Action}
    (resolved : resolveBranches (mergePushes actions) = .ok branched) {path : List Nat}
    {front rest : List Action} {action : Action}
    (found : codeAt? path branched = some (front ++ action :: rest)) (aimless : action.branch? = none)
    (unpushed : action.pushed = []) (flat : action.body? = none) :
    ∃ own place, codeAt? path actions = some own ∧ own[place]? = some action ∧
      CountsMerged own front.length place := by
  have here : (front ++ action :: rest)[front.length]? = some action := by simp
  obtain ⟨same, -⟩ := resolveBranches_ok_iff.mp resolved
  have along : (codeAt? path (mergePushes actions)).map (recastAll Instruction.unaimed) =
      (codeAt? path branched).map (recastAll Instruction.unaimed) := by
    rw [← codeAt?_of_bodies (bodiesOf_recastAll _), ← codeAt?_of_bodies (bodiesOf_recastAll _), same]
  rw [found, codeAt?_mergePushes, Option.map_map, Option.map_some] at along
  obtain ⟨own, isOwn, alike⟩ := Option.map_eq_some_iff.mp along
  have shown := congrArg (·[front.length]?) alike
  simp only [Function.comp_apply, recastAll_eq_map, List.getElem?_map, here, Option.map_some] at shown
  obtain ⟨merged, isMerged, alike⟩ := Option.map_eq_some_iff.mp shown
  obtain rfl := Action.eq_of_recast_unaimed alike aimless flat
  obtain ⟨place, first, isFirst, isAction, count⟩ := exists_place_of_mergePushes isMerged unpushed
  obtain rfl := Action.eq_of_mapInside isAction flat
  obtain ⟨inside, -⟩ := List.getElem?_eq_some_iff.mp isFirst
  exact ⟨own, place, isOwn, isFirst, count ▸ counts_of_merged inside⟩

/-- A fault of blocks comes from the blocks of the resolved sequence. -/
theorem exists_measured_of_fault {settings : AssemblySettings} {actions : List Action}
    {fault : AssemblyFault} (failed : (assemble settings actions).result = .error fault)
    (isBlocks : fault.OfBlocks) (unwritten : ∀ cause, fault ≠ .write cause) :
    ∃ branched path code, resolveBranches (mergePushes actions) = .ok branched ∧
      codeAt? path branched = some code ∧ measureOwnBlocks code = .error fault := by
  cases assemble_error_cases failed with
  | depth deep => cases isBlocks
  | branches shallow failed =>
    exact absurd isBlocks (AssemblyFault.not_ofBlocks (ofBranches_of_resolveBranches failed))
  | blocks shallow resolved failed =>
    obtain ⟨path, code, found, failed⟩ := measureBlocks_error failed
    exact ⟨_, path, code, resolved, found, failed⟩
  | writing resolves => exact absurd rfl (unwritten _)

/-- **A marker that is refused is in the sequence as it was given**, and its index counts merged
actions. -/
theorem exists_place_of_refusal {settings : AssemblySettings} {actions : List Action}
    {fault : AssemblyFault} (failed : (assemble settings actions).result = .error fault)
    {marker : Marker} {index : Nat} (refuses : fault.refusal? = some (marker, index)) :
    ∃ path code place, codeAt? path actions = some code ∧ code[place]? = some (.marker marker) ∧
      CountsMerged code index place := by
  have isBlocks : fault.OfBlocks ∧ ∀ cause, fault ≠ .write cause := by
    cases fault with
    | unmatchedMarker _ _ => exact ⟨trivial, fun _ equal => by cases equal⟩
    | mismatchedNesting _ _ _ => exact ⟨trivial, fun _ equal => by cases equal⟩
    | _ => cases refuses
  obtain ⟨branched, path, code, resolved, found, failed⟩ :=
    exists_measured_of_fault failed isBlocks.1 isBlocks.2
  obtain ⟨front, rest, rfl, rfl, -⟩ := refusedAt_of_measureOwnBlocks failed refuses
  obtain ⟨own, place, isOwn, isPlace, counts⟩ :=
    exists_place_of_resolved resolved found rfl rfl rfl
  exact ⟨path, own, place, isOwn, isPlace, counts⟩

/-- **A block without an end is in the sequence as it was given**, and its index counts merged
actions. -/
theorem exists_place_of_missingEnd {settings : AssemblySettings} {actions : List Action}
    {kind : BlockKind} {index : Nat}
    (failed : (assemble settings actions).result = .error (.missingEndMarker kind index)) :
    ∃ path code place block, codeAt? path actions = some code ∧
      code[place]? = some (.plain (.block block)) ∧ block.kind = kind ∧
        CountsMerged code index place := by
  obtain ⟨branched, path, code, resolved, found, failed⟩ :=
    exists_measured_of_fault failed trivial fun _ equal => by cases equal
  obtain ⟨front, block, inside, _, rfl, rfl, isKind, -⟩ := unendedAt_of_measureOwnBlocks failed
  obtain ⟨own, place, isOwn, isPlace, counts⟩ :=
    exists_place_of_resolved resolved found rfl rfl rfl
  exact ⟨path, own, place, block, isOwn, isPlace, isKind, counts⟩

/-- Only the sequence itself is at a path, if there are no definitions in it. -/
theorem eq_of_codeAt_flat {actions : List Action} (flat : ∀ action ∈ actions, action.body? = none)
    {path : List Nat} {code : List Action} (found : codeAt? path actions = some code) :
    code = actions := by
  cases path with
  | nil => exact (Option.some.inj found).symm
  | cons step path =>
    have none : bodiesOf actions = [] := List.filterMap_eq_nil_iff.mpr flat
    rw [codeAt?, none] at found
    cases found

/-- **A fault of blocks names what is in the sequence, by an index that counts merged actions.** Some
place of a sequence without definitions holds the marker that is refused, or a block of the kind that has
no end. The index is the number of actions that those before this place are merged into; it is the place
exactly if no two single pushes are neighbours before. -/
theorem blockFaults_count_merged (settings : AssemblySettings) (actions : List Action)
    (flat : ∀ action ∈ actions, action.body? = none) :
    (∀ fault marker index, (assemble settings actions).result = .error fault →
      (fault = .unmatchedMarker marker index ∨
        ∃ innermost, fault = .mismatchedNesting marker innermost index) →
      ∃ place, actions[place]? = some (.marker marker) ∧ CountsMerged actions index place) ∧
    ∀ kind index, (assemble settings actions).result = .error (.missingEndMarker kind index) →
      ∃ place block, actions[place]? = some (.plain (.block block)) ∧ block.kind = kind ∧
        CountsMerged actions index place := by
  refine ⟨fun fault marker index failed refuses => ?_, fun kind index failed => ?_⟩
  · have isRefusal : fault.refusal? = some (marker, index) := by
      obtain rfl | ⟨innermost, rfl⟩ := refuses
      · rfl
      · rfl
    obtain ⟨path, code, place, found, here, counts⟩ := exists_place_of_refusal failed isRefusal
    obtain rfl := eq_of_codeAt_flat flat found
    exact ⟨place, here, counts⟩
  · obtain ⟨path, code, place, block, found, here, isKind, counts⟩ :=
      exists_place_of_missingEnd failed
    obtain rfl := eq_of_codeAt_flat flat found
    exact ⟨place, block, here, isKind, counts⟩

/-- Two pushes, and the end of a scope that has not begun; and a scope without an end behind two
pushes. -/
theorem blockFaults_count_merged_pushes :
    (∃ place, [Action.plain (.push .null), .plain (.push .null), .marker .endWith][place]? =
      some (.marker .endWith) ∧
      CountsMerged [.plain (.push .null), .plain (.push .null), .marker .endWith] 1 place) ∧
    ∃ place block, [Action.plain (.push .null), .plain (.push .null),
        .plain (.block (.scope 0))][place]? = some (.plain (.block block)) ∧ block.kind = .scope ∧
      CountsMerged [.plain (.push .null), .plain (.push .null), .plain (.block (.scope 0))] 1 place :=
  ⟨(blockFaults_count_merged ⟨0⟩ _ (by decide)).1 (.unmatchedMarker .endWith 1) .endWith 1
      (by decide +kernel) (.inl rfl),
    (blockFaults_count_merged ⟨0⟩ _ (by decide)).2 .scope 1 (by decide +kernel)⟩

/-- **The index need not be a place of the sequence as it was given**: behind two pushes it is one
less. -/
theorem blockFaults_miss_places :
    ¬ ∀ (settings : AssemblySettings) (actions : List Action),
      (∀ action ∈ actions, action.body? = none) →
        ∀ marker index, (assemble settings actions).result = .error (.unmatchedMarker marker index) →
          actions[index]? = some (.marker marker) := by
  intro every
  have wrong := every ⟨0⟩ [.plain (.push .null), .plain (.push .null), .marker .endWith]
    (by decide) .endWith 1 (by decide +kernel)
  cases wrong

end ActionCode
