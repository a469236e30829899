/-
**Finishing a sequence further on.**

* `Located.shifted`: a row further on, in code whose labels have greater numbers.
* `bindLabels_shifted`, `placeClosings_shifted`: labels and closing markers of rows that lie further on.
* **`finishSequence_shifted`**: the finished sequence is the same but for the numbers of its labels,
  and a fault is the same but for its offset.
-/

import ActionCode.Proofs.Nested.Readers
import ActionCode.Proofs.Nested.Relabelling

namespace ActionCode

variable {α β : Type}

/-! ### Rows further on -/

section

variable (distance first : Nat)

/-- A row further on, in code whose labels begin at a greater number. -/
def Located.shifted (row : Located) : Located :=
  ⟨row.action.relabelled (Label.raised first), distance + row.offset, row.span⟩

/-- The place of a sequence further on. -/
def Region.shifted (region : Region) : Region := ⟨distance + region.base, distance + region.stop⟩

variable {distance first}

theorem Located.branch?_shifted (row : Located) :
    (row.shifted distance first).action.branch? =
      row.action.branch?.map (Branch.renamed (Label.raised first)) :=
  Action.branch?_relabelled row.action

theorem Located.block?_shifted (row : Located) :
    (row.shifted distance first).action.block? = row.action.block? :=
  Action.block?_relabelled row.action

theorem Region.length_shifted (region : Region) :
    (region.shifted distance).length = region.length := Nat.add_sub_add_left ..

theorem startsOf_shifted (region : Region) (rows : List Located) :
    startsOf (region.shifted distance) (rows.map (Located.shifted distance first)) =
      startsOf region rows := by
  unfold startsOf
  rw [List.foldl_map]
  congr 1
  funext starts row
  exact congrArg starts.insert (Nat.add_sub_add_left ..)

theorem Located.target_shifted (region : Region) (row : Located) (branch : Branch) :
    (row.shifted distance first).target (region.shifted distance)
        (branch.renamed (Label.raised first)) = row.target region branch := by
  unfold Located.target
  show ((distance + row.offset - (distance + region.base) + Branch.width : Nat) : Int) + _ = _
  rw [Nat.add_sub_add_left]
  rfl

/-- Two bindings know the same bytes, and the labels of the second one have greater numbers. -/
structure Binding.Raised (first : Nat) (binding other : Binding) : Prop where
  labels : ∀ target : Nat, other.labels[target]? = binding.labels[target]?.map (Label.raised first)
  next : other.nextLabel = first + binding.nextLabel
  size : other.labels.size = binding.labels.size

theorem Binding.Raised.labelFor {binding other : Binding} (raised : binding.Raised first other)
    (target : Nat) :
    (other.labelFor target).1 = (binding.labelFor target).1.raised first ∧
      (binding.labelFor target).2.Raised first (other.labelFor target).2 := by
  unfold Binding.labelFor
  cases found : binding.labels[target]? with
  | some label =>
    have found' : other.labels[target]? = some (label.raised first) := by
      rw [raised.labels, found]
      rfl
    rw [found']
    exact ⟨rfl, raised⟩
  | none =>
    have found' : other.labels[target]? = none := by
      rw [raised.labels, found]
      rfl
    rw [found']
    refine ⟨congrArg Label.mk raised.next, fun place => ?_, ?_, ?_⟩
    · rw [Std.TreeMap.getElem?_insert, Std.TreeMap.getElem?_insert]
      split
      · exact congrArg some (congrArg Label.mk raised.next)
      · exact raised.labels place
    · show other.nextLabel + 1 = first + (binding.nextLabel + 1)
      rw [raised.next, Nat.add_assoc]
    · have absent : ¬ binding.labels.contains target = true := by
        rw [Std.TreeMap.contains_eq_isSome_getElem?, found]
        exact nofun
      have absent' : ¬ other.labels.contains target = true := by
        rw [Std.TreeMap.contains_eq_isSome_getElem?, found']
        exact nofun
      rw [Std.TreeMap.size_insert, Std.TreeMap.size_insert, if_neg absent, if_neg absent',
        raised.size]

/-! ### Labels -/

/-- Two computations succeed with related values, or have the same fault but for its offset, which
goes no further than `stop`. -/
inductive OutcomesPair (distance limit stop : Nat) (relates : α → β → Prop) :
    Except DisassemblyFault α → Except DisassemblyFault β → Prop where
  | ok {value : α} {other : β} (related : relates value other) :
      OutcomesPair distance limit stop relates (.ok value) (.ok other)
  | error {fault : DisassemblyFault} (within : fault.offset ≤ stop) :
      OutcomesPair distance limit stop relates (.error fault) (.error (fault.shifted distance limit))

theorem OutcomesPair.bind {γ δ : Type} {distance limit stop : Nat} {relates : α → β → Prop}
    {further : γ → δ → Prop} {first : Except DisassemblyFault α} {first' : Except DisassemblyFault β}
    {next : α → Except DisassemblyFault γ} {next' : β → Except DisassemblyFault δ}
    (pair : OutcomesPair distance limit stop relates first first')
    (later : ∀ value value', relates value value' →
      OutcomesPair distance limit stop further (next value) (next' value')) :
    OutcomesPair distance limit stop further (first >>= next) (first' >>= next') := by
  cases pair with
  | ok related => exact later _ _ related
  | error within => exact .error within

/-- No row begins after `stop`. -/
def RowsUpTo (stop : Nat) (rows : List Located) : Prop := ∀ row ∈ rows, row.offset ≤ stop

/-- Rows that have been bound, and labels, here and further on. -/
structure BoundPair (distance first stop : Nat) (bound bound' : List Located × Binding) : Prop where
  rows : bound'.1 = bound.1.map (Located.shifted distance first)
  raised : bound.2.Raised first bound'.2
  upTo : RowsUpTo stop bound.1

variable {binding other : Binding} {limit stop : Nat} (region : Region) (starts : Std.TreeSet Nat)

theorem bindBranch_shifted (raised : binding.Raised first other) {row : Located}
    (upTo : row.offset ≤ stop) (branch : Branch) :
    OutcomesPair distance limit stop
      (fun bound bound' => bound'.1 = bound.1.shifted distance first ∧
        bound.2.Raised first bound'.2 ∧ bound.1.offset ≤ stop)
      (bindBranch region starts row branch binding)
      (bindBranch (region.shifted distance) starts (row.shifted distance first)
        (branch.renamed (Label.raised first)) other) := by
  unfold bindBranch
  dsimp only
  rw [Located.target_shifted, Region.length_shifted]
  by_cases out : row.target region branch < 0 ∨ (region.length : Int) < row.target region branch
  · rw [if_pos out, if_pos out]
    exact .error upTo
  · rw [if_neg out, if_neg out]
    split
    · obtain ⟨label, later⟩ := raised.labelFor (row.target region branch).toNat
      refine .ok ⟨?_, later, upTo⟩
      rw [label]
      rfl
    · exact .error upTo

theorem bindRow_shifted (raised : binding.Raised first other) {row : Located}
    (upTo : row.offset ≤ stop) :
    OutcomesPair distance limit stop
      (fun bound bound' => bound'.1 = bound.1.shifted distance first ∧
        bound.2.Raised first bound'.2 ∧ bound.1.offset ≤ stop)
      (bindRow region starts row binding)
      (bindRow (region.shifted distance) starts (row.shifted distance first) other) := by
  unfold bindRow
  rw [Located.branch?_shifted]
  cases row.action.branch? with
  | none => exact .ok ⟨rfl, raised, upTo⟩
  | some branch => exact bindBranch_shifted region starts raised upTo branch

/-- **Rows are bound in the same way further on.** -/
theorem bindRows_shifted (raised : binding.Raised first other) {rows : List Located}
    (upTo : RowsUpTo stop rows) :
    OutcomesPair distance limit stop (BoundPair distance first stop)
      ((rows.mapM (bindRow region starts)).run binding)
      (((rows.map (Located.shifted distance first)).mapM
        (bindRow (region.shifted distance) starts)).run other) := by
  induction rows generalizing binding other with
  | nil => exact .ok ⟨rfl, raised, upTo⟩
  | cons row rest ih =>
    obtain ⟨here, upTo⟩ := List.forall_mem_cons.mp upTo
    rw [List.map_cons, run_mapM_cons, run_mapM_cons]
    refine (bindRow_shifted region starts raised here).bind ?_
    rintro ⟨bound, middle⟩ ⟨_, middle'⟩ ⟨rfl, raised, here⟩
    refine (ih raised upTo).bind ?_
    rintro ⟨later, last⟩ ⟨_, last'⟩ ⟨rfl, raised, upTo⟩
    exact .ok ⟨rfl, raised, List.forall_mem_cons.mpr ⟨here, upTo⟩⟩

theorem bindLabels_shifted {rows : List Located} (upTo : RowsUpTo stop rows) (nextLabel : Nat) :
    OutcomesPair distance limit stop (BoundPair distance first stop)
      (bindLabels region rows nextLabel)
      (bindLabels (region.shifted distance) (rows.map (Located.shifted distance first))
        (first + nextLabel)) := by
  have raised : Binding.Raised first ⟨∅, nextLabel⟩ ⟨∅, first + nextLabel⟩ := by
    refine ⟨fun target => ?_, rfl, rfl⟩
    rw [Std.TreeMap.getElem?_emptyc]
    rfl
  unfold bindLabels
  rw [startsOf_shifted]
  exact bindRows_shifted region (startsOf region rows) raised upTo

variable {region}

theorem labelAt_shifted (raised : binding.Raised first other) (offset : Nat) :
    labelAt (region.shifted distance) other.labels (distance + offset) =
      (labelAt region binding.labels offset).map (Located.shifted distance first) := by
  unfold labelAt
  rw [show distance + offset - (region.shifted distance).base = offset - region.base from
    Nat.add_sub_add_left .., raised.labels]
  cases binding.labels[offset - region.base]? with
  | none => rfl
  | some label =>
    show [Located.ofLabel (label.raised first) (distance + offset)] = [_]
    rw [Located.shifted, Located.ofLabel, Located.ofLabel, Action.relabelled]
    rfl

theorem placeLabels_shifted (raised : binding.Raised first other) (rows : List Located) :
    placeLabels (region.shifted distance) other.labels (rows.map (Located.shifted distance first)) =
      (placeLabels region binding.labels rows).map (Located.shifted distance first) := by
  unfold placeLabels
  rw [List.map_append, List.map_flatMap, List.flatMap_map]
  refine congrArg₂ _ (congrArg (List.flatMap · rows) (funext fun row => ?_)) (labelAt_shifted raised _)
  rw [List.map_append, ← labelAt_shifted raised]
  rfl

theorem RowsUpTo.placeLabels {rows : List Located} (upTo : RowsUpTo stop rows)
    (inside : region.stop ≤ stop) (labels : Std.TreeMap Nat Label) :
    RowsUpTo stop (ActionCode.placeLabels region labels rows) := by
  have label : ∀ offset ≤ stop, RowsUpTo stop (labelAt region labels offset) := by
    intro offset front row member
    unfold labelAt at member
    split at member
    · rw [List.mem_singleton.mp member]
      exact front
    · cases member
  refine List.forall_mem_append.mpr ⟨fun other member => ?_, label region.stop inside⟩
  obtain ⟨row, isRow, member⟩ := List.mem_flatMap.mp member
  rcases List.mem_append.mp member with member | member
  · exact label row.offset (upTo row isRow) other member
  · rw [List.mem_singleton.mp member]
    exact upTo row isRow

/-! ### Closing markers -/

theorem spanEnd_shifted {measure : Located → Nat}
    (same : ∀ row : Located, measure (row.shifted distance first) = measure row)
    (overrun misaligned : DisassemblyFault) (overruns : overrun.offset ≤ stop)
    (misaligns : misaligned.offset ≤ stop) (index amount : Nat) (rows : List Located) :
    OutcomesPair distance limit stop
      (fun found found' => found' = (found.1, found.2.map (Located.shifted distance first)))
      (spanEnd measure overrun misaligned index amount rows)
      (spanEnd measure (overrun.shifted distance limit) (misaligned.shifted distance limit) index
        amount (rows.map (Located.shifted distance first))) := by
  induction rows generalizing index amount with
  | nil =>
    cases amount with
    | zero => exact .ok rfl
    | succ amount => exact .error overruns
  | cons row rest ih =>
    cases amount with
    | zero => exact .ok rfl
    | succ amount =>
      simp only [List.map_cons, spanEnd, same]
      split
      · exact ih (index + 1) (amount + 1 - measure row)
      · exact .error misaligns

theorem Located.recordCount_shifted (row : Located) :
    (row.shifted distance first).recordCount = row.recordCount := by
  unfold Located.recordCount
  rw [Located.shifted, Action.isMarker_relabelled]

theorem byteSpanEnd_shifted {offset : Nat} (upTo : offset ≤ stop) (index : Nat) (size : UInt16)
    (rows : List Located) :
    OutcomesPair distance limit stop
      (fun found found' => found' = (found.1, found.2.map (Located.shifted distance first)))
      (byteSpanEnd offset index size rows)
      (byteSpanEnd (distance + offset) index size (rows.map (Located.shifted distance first))) :=
  spanEnd_shifted (fun _ => rfl) (.blockOverrun offset size.toNat) (.misalignedBlock offset size.toNat)
    upTo upTo index size.toNat rows

/-- The closing markers of a block are the same further on. -/
theorem closings_shifted {offset : Nat} (upTo : offset ≤ stop) (index : Nat) (rows : List Located)
    (block : Block) :
    OutcomesPair distance limit stop (fun found found' => found' = found)
      (closings offset index rows block)
      (closings (distance + offset) index (rows.map (Located.shifted distance first)) block) := by
  cases block with
  | scope size =>
    refine (byteSpanEnd_shifted upTo index size rows).bind ?_
    rintro ⟨stop, later⟩ _ rfl
    exact .ok rfl
  | wait frame skipCount =>
    refine (spanEnd_shifted Located.recordCount_shifted (.blockOverrun offset skipCount.toNat)
      (.misalignedBlock offset skipCount.toNat) upTo upTo index skipCount.toNat rows).bind ?_
    rintro ⟨stop, later⟩ _ rfl
    exact .ok rfl
  | exception handlers =>
    refine (byteSpanEnd_shifted upTo index handlers.trySize rows).bind ?_
    rintro ⟨tryEnd, later⟩ _ rfl
    refine (byteSpanEnd_shifted upTo tryEnd handlers.catchSize later).bind ?_
    rintro ⟨catchEnd, later⟩ _ rfl
    refine (byteSpanEnd_shifted upTo catchEnd handlers.finallySize later).bind ?_
    rintro ⟨finallyEnd, later⟩ _ rfl
    exact .ok rfl

theorem collectClosings_shifted (places : Array (List Marker)) (index : Nat) {rows : List Located}
    (upTo : RowsUpTo stop rows) :
    OutcomesPair distance limit stop (fun found found' => found' = found)
      (collectClosings places index rows)
      (collectClosings places index (rows.map (Located.shifted distance first))) := by
  induction rows generalizing places index with
  | nil => exact .ok rfl
  | cons row rest ih =>
    obtain ⟨here, upTo⟩ := List.forall_mem_cons.mp upTo
    rw [List.map_cons, collectClosings, collectClosings]
    rw [Located.block?_shifted]
    cases row.action.block? with
    | none => exact ih places (index + 1) upTo
    | some block =>
      have pair : OutcomesPair distance limit stop (fun found found' => found' = found)
          (closings row.offset (index + 1) rest block)
          (closings (row.shifted distance first).offset (index + 1)
            (rest.map (Located.shifted distance first)) block) := closings_shifted here _ _ _
      revert pair
      dsimp only
      generalize closings row.offset (index + 1) rest block = found
      generalize closings (row.shifted distance first).offset _ _ _ = found'
      rintro (same | within)
      · rw [same]
        exact ih _ (index + 1) upTo
      · exact .error within

/-- The markers that a block closes with. -/
theorem closes_of_closings {offset index : Nat} {rows : List Located} {block : Block}
    {found : List Closing} (success : closings offset index rows block = .ok found) :
    ∀ closing ∈ found, closing.marker.closes = true := by
  rw [(closings_ok_iff.mp success).2]
  intro closing inside
  obtain ⟨stop, member, rfl⟩ := List.mem_map.mp inside
  exact Block.closes_of_mem_ends member

/-- Only markers that close are at any place. -/
def PlacesClose (places : Array (List Marker)) : Prop :=
  ∀ (place : Nat) (markers : List Marker), places[place]? = some markers → AllClose markers

theorem PlacesClose.addClosings {places : Array (List Marker)} (close : PlacesClose places)
    {found : List Closing} (closes : ∀ closing ∈ found, closing.marker.closes = true) :
    PlacesClose (addClosings places found) := by
  induction found with
  | nil => exact close
  | cons closing found ih =>
    have later := ih fun closing inside => closes closing (List.mem_cons_of_mem _ inside)
    intro place markers here
    change (Array.modify (ActionCode.addClosings places found) closing.index _)[place]? = _ at here
    rw [Array.getElem?_modify] at here
    split at here
    · obtain ⟨others, isOthers, rfl⟩ := Option.map_eq_some_iff.mp here
      exact List.forall_mem_cons.mpr ⟨closes closing List.mem_cons_self, later place others isOthers⟩
    · exact later place markers here

theorem PlacesClose.collectClosings {places result : Array (List Marker)} {index : Nat}
    {rows : List Located} (close : PlacesClose places)
    (success : collectClosings places index rows = .ok result) : PlacesClose result := by
  induction rows generalizing places index with
  | nil =>
    cases success
    exact close
  | cons row rest ih =>
    rw [ActionCode.collectClosings] at success
    split at success
    · exact ih close success
    · split at success
      · cases success
      · rename_i found
        exact ih (close.addClosings (closes_of_closings found)) success

theorem weave_shifted {places : List (List Marker)} (close : ∀ markers ∈ places, AllClose markers)
    (done : Array Action) (rows : List Located) :
    (weave (done.map (Action.relabelled (Label.raised first))) places
        (rows.map (Located.shifted distance first))).toList =
      (weave done places rows).toList.map (Action.relabelled (Label.raised first)) := by
  have same : ∀ markers : List Marker, AllClose markers →
      (markers.map Action.marker).map (Action.relabelled (Label.raised first)) =
        markers.map Action.marker := by
    intro markers close
    rw [List.map_map]
    exact List.map_congr_left fun marker inside => Action.relabelled_closing (close marker inside)
  induction places generalizing done rows with
  | nil => simp [weave, Located.shifted, Function.comp_def]
  | cons markers places ih =>
    have here := same markers (close markers List.mem_cons_self)
    have entered : ∀ done : Array Action,
        (done.map (Action.relabelled (Label.raised first))).appendList (markers.map .marker) =
          (done.appendList (markers.map .marker)).map (Action.relabelled (Label.raised first)) := by
      intro done
      apply Array.toList_inj.mp
      simp only [Array.appendList_eq_append, Array.toList_appendList, Array.toList_map,
        List.map_append, here]
    cases rows with
    | nil =>
      rw [List.map_nil, weave, weave, entered, Array.toList_map]
    | cons row rest =>
      rw [List.map_cons, weave, weave, entered,
        ← ih (fun markers inside => close markers (List.mem_cons_of_mem _ inside)), Array.map_push]
      rfl

/-- **Closing markers are placed in the same way further on.** -/
theorem placeClosings_shifted {rows : List Located} (upTo : RowsUpTo stop rows) :
    OutcomesPair distance limit stop
      (fun actions actions' => actions' = relabelAll (Label.raised first) actions)
      (placeClosings rows) (placeClosings (rows.map (Located.shifted distance first))) := by
  have pair : OutcomesPair distance limit stop (fun found found' => found' = found)
      (collectClosings (Array.replicate (rows.length + 1) []) 0 rows)
      (collectClosings (Array.replicate (rows.length + 1) []) 0
        (rows.map (Located.shifted distance first))) := collectClosings_shifted _ 0 upTo
  have close : PlacesClose (Array.replicate (rows.length + 1) []) := by
    intro place markers here
    rw [Array.getElem?_replicate] at here
    split at here <;> cases here
    exact fun marker inside => absurd inside List.not_mem_nil
  have closed : ∀ result, collectClosings (Array.replicate (rows.length + 1) []) 0 rows = .ok result →
      PlacesClose result := fun result => close.collectClosings
  unfold placeClosings
  rw [List.length_map]
  revert pair closed
  generalize collectClosings (Array.replicate (rows.length + 1) []) 0 rows = found
  generalize collectClosings (Array.replicate (rows.length + 1) []) 0 _ = found'
  rintro (@⟨places, _, same⟩ | within) closed
  · have every : ∀ markers ∈ places.toList, AllClose markers := by
      intro markers inside
      obtain ⟨place, here⟩ := List.getElem?_of_mem inside
      rw [Array.getElem?_toList] at here
      exact closed places rfl place markers here
    rw [same]
    refine .ok ?_
    rw [relabelAll_eq_map, ← weave_shifted every #[] rows, Array.map_empty]
  · exact .error within

/-! ### Sequences -/

/-- The progress of a computation that another one has been before. -/
def Progress.before (earlier progress : Progress) : Progress :=
  ⟨earlier.nextLabel + progress.nextLabel, earlier.events ++ progress.events⟩

/-- What came of a computation, in a block that lies further on and after some progress. -/
def displaced (distance limit : Nat) (earlier : Progress) (move : α → β) :
    EStateM.Result DisassemblyFault Progress α → EStateM.Result DisassemblyFault Progress β
  | .ok value progress => .ok (move value) (earlier.before progress)
  | .error fault progress => .error (fault.shifted distance limit) (earlier.before progress)

/-- **A sequence is finished in the same way further on**, and faults go no further than it does. -/
theorem finishSequence_shifted (earlier : Progress) {region : Region} {rows : List Located}
    (upTo : RowsUpTo region.stop rows) (progress : Progress) :
    finishSequence (region.shifted distance)
        (rows.map (Located.shifted distance earlier.nextLabel)) (earlier.before progress) =
      displaced distance limit earlier (relabelAll (Label.raised earlier.nextLabel))
        (finishSequence region rows progress) ∧
    ∀ fault after, finishSequence region rows progress = .error fault after →
      fault.offset ≤ region.stop := by
  have labelled : OutcomesPair distance limit region.stop
      (BoundPair distance earlier.nextLabel region.stop) _ _ :=
    bindLabels_shifted region upTo progress.nextLabel
  unfold finishSequence
  rw [show (earlier.before progress).nextLabel = earlier.nextLabel + progress.nextLabel from rfl]
  revert labelled
  generalize bindLabels region rows progress.nextLabel = found
  generalize bindLabels (region.shifted distance) _ _ = found'
  rintro (@⟨⟨bound, binding⟩, ⟨_, other⟩, rfl, raised, upTo⟩ | within)
  · have progressed : (earlier.before progress).labeled other rows.length =
        earlier.before (progress.labeled binding rows.length) := by
      unfold Progress.labeled Progress.before
      rw [Std.TreeMap.isEmpty_eq_size_eq_zero, Std.TreeMap.isEmpty_eq_size_eq_zero, raised.size]
      dsimp only
      rw [raised.next]
      split
      · rfl
      · rw [Array.append_push]
    have placed : OutcomesPair distance limit region.stop _ _
        (placeClosings ((placeLabels region binding.labels bound).map
          (Located.shifted distance earlier.nextLabel))) :=
      placeClosings_shifted (upTo.placeLabels (Nat.le_refl _) binding.labels)
    dsimp only
    rw [List.length_map, progressed, placeLabels_shifted raised]
    revert placed
    generalize placeClosings (placeLabels region binding.labels bound) = closed
    generalize placeClosings (List.map _ _) = closed'
    rintro (@⟨actions, _, rfl⟩ | within)
    · refine ⟨?_, nofun⟩
      show EStateM.Result.ok _ _ = EStateM.Result.ok _ _
      rw [relabelAll_eq_map, relabelAll_eq_map, (spares_relabelled _).map_splitPushes]
    · exact ⟨rfl, fun _ _ equal => by cases equal; exact within⟩
  · exact ⟨rfl, fun _ _ equal => by cases equal; exact within⟩

end

end ActionCode
