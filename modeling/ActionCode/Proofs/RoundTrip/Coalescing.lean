/-
**A listing is written with fewer heads.**

* `coalesced`: a sequence as it is written, at every level.
* `Coalesces`: a piece whose action has been coalesced inside, and how many heads that saves.
* **`exists_coalesced`**: one level of a listing, if spans nest, is resolved as a canonical one that
  saves a head for each pair of neighbouring pushes.
* `Coalesced`, **`Accepted.exists_coalesced`**: so is every level.
-/

import ActionCode.Proofs.Chunks.Rereading
import ActionCode.Proofs.Merging.Faults
import ActionCode.Proofs.Merging.Keeping
import ActionCode.Proofs.RoundTrip.Identity

namespace ActionCode

/-! ### Blank instructions that are read back -/

/-- An instruction that is read back as it is, but for its label and the form of a push. -/
structure Instruction.Stable (instruction : Instruction) : Prop where
  readable : instruction.Readable
  canon : instruction.canon = instruction.bare

theorem Instruction.stable_of_canon {instruction : Instruction} (readable : instruction.Readable)
    (canon : instruction.canon = instruction) : instruction.Stable := by
  refine ⟨readable, ?_⟩
  cases instruction with
  | branch jump => rfl
  | push value => rfl
  | _ => exact canon

/-- The label of a branch does not matter. -/
theorem Instruction.stable_branch (branch : Branch) : (Instruction.branch branch).Stable :=
  ⟨trivial, rfl⟩

theorem Instruction.stable_pushOf {values : List PushValue} {instruction : Instruction}
    (same : pushOf values = .plain instruction) : instruction.Stable := by
  unfold pushOf at same
  split at same <;> cases same <;> exact ⟨trivial, rfl⟩

theorem Instruction.stable_exception_iff {handlers : TryBlock} :
    (Instruction.block (.exception handlers)).Stable ↔ handlers.writtenFlags = handlers.flags := by
  constructor
  · rintro ⟨_, canon⟩
    change Instruction.block (.exception { handlers with flags := handlers.writtenFlags }) =
      .block (.exception handlers) at canon
    exact congrArg TryBlock.flags (Block.exception.inj (Instruction.block.inj canon))
  · intro tidy
    refine ⟨trivial, ?_⟩
    change Instruction.block (.exception { handlers with flags := handlers.writtenFlags }) =
      .block (.exception handlers)
    rw [tidy]

/-- Neither sizes nor offsets matter. -/
theorem Instruction.stable_blank {instruction : Instruction} :
    instruction.blank.Stable ↔ instruction.Stable := by
  cases instruction with
  | branch jump => exact iff_of_true (stable_branch _) (stable_branch _)
  | block block =>
    cases block with
    | exception handlers =>
      have own : (Instruction.block (.exception handlers)).Stable ↔
          handlers.writtenFlags = handlers.flags := stable_exception_iff
      exact stable_exception_iff.trans own.symm
    | scope size => exact iff_of_true ⟨trivial, rfl⟩ ⟨trivial, rfl⟩
    | wait frame skipCount => exact iff_of_true ⟨trivial, rfl⟩ ⟨trivial, rfl⟩
  | _ => exact Iff.rfl

theorem Instruction.Stable.of_blank {first second : Instruction} (stable : first.Stable)
    (same : first.blank = second.blank) : second.Stable := by
  rw [← stable_blank, ← same, stable_blank]
  exact stable

/-! ### Pieces with coalesced code -/

/-- A sequence as it is written, if it can be resolved. -/
def coalesced (actions : List Action) : List Action :=
  match resolve ⟨nesting actions⟩ actions with
  | .ok resolved => resolved
  | .error _ => []

/-- An action with its code as it is written. -/
def Action.coalescedInside : Action → Action
  | .define signature body => .define signature (coalesced body)
  | action => action

/-- A piece whose code can be written, and how many heads that saves. -/
structure Coalesces (piece : Piece) (saved : Nat) : Prop where
  width : piece.action.coalescedInside.width + headWidth * saved = piece.bytes
  plain : ∀ instruction, piece.action = .plain instruction →
    saved = 0 ∧ instruction.Stable
  blank : (piece.action.mapInside mergeRuns).recast Instruction.blank =
    piece.action.coalescedInside.recast Instruction.blank
  canonical : piece.action.coalescedInside.CodeHolds Canonical
  writable : piece.action.coalescedInside.Writable
  inside : piece.action.coalescedInside.CodeHolds AllWritable

theorem Action.view_coalescedInside {β : Type} (view : Action → β)
    (blind : ∀ signature body other, view (.define signature body) = view (.define signature other))
    (action : Action) : view action.coalescedInside = view action := by
  cases action with
  | plain instruction => rfl
  | define signature body => exact blind signature _ body
  | marker found => rfl

theorem Action.hollow_coalescedInside (action : Action) :
    action.coalescedInside.hollow = action.hollow :=
  view_coalescedInside Action.hollow (fun _ _ _ => rfl) action

theorem Action.pushed_coalescedInside (action : Action) :
    action.coalescedInside.pushed = action.pushed :=
  view_coalescedInside Action.pushed (fun _ _ _ => rfl) action

theorem Action.isMarker_coalescedInside (action : Action) :
    action.coalescedInside.isMarker = action.isMarker :=
  view_coalescedInside Action.isMarker (fun _ _ _ => rfl) action

/-- The label of a branch changes nothing. -/
theorem Coalesces.bindTo {piece : Piece} {saved : Nat} (coalesces : Coalesces piece saved)
    (labels : Nat → Option Label) (position : Nat) :
    Coalesces (piece.bindTo labels position) saved := by
  obtain same | ⟨branch, isBranch, same⟩ := Action.bindTo_cases labels position piece.action
  · have whole : piece.bindTo labels position = piece := by rw [Piece.bindTo, same]
    rw [whole]
    exact coalesces
  · have width := coalesces.width
    rw [isBranch] at width
    constructor
    · rw [Piece.bindTo, same]
      exact width
    · intro instruction isPlain
      rw [Piece.bindTo, same] at isPlain
      cases isPlain
      exact ⟨(coalesces.plain _ isBranch).1, Instruction.stable_branch _⟩
    · rw [Piece.bindTo, same, Action.mapInside_plain]
      rfl
    · rw [Piece.bindTo, same]
      exact Action.codeHolds_plain _
    · have writable := coalesces.writable
      rw [isBranch] at writable
      rw [Piece.bindTo, same]
      exact writable
    · rw [Piece.bindTo, same]
      exact Action.codeHolds_plain _

theorem coalesces_ofMarker (marker : Marker) : Coalesces (.ofMarker marker) 0 where
  width := by
    change (Action.marker marker).width + 0 = 0
    rw [Action.width]
  plain _ isPlain := by cases isPlain
  blank := by
    change ((Action.marker marker).mapInside mergeRuns).recast _ = (Action.marker marker).recast _
    rw [Action.mapInside_marker]
  canonical := Action.codeHolds_marker marker
  writable := trivial
  inside := Action.codeHolds_marker marker

theorem Action.plain_of_pushed {action : Action} (some : action.pushed ≠ []) :
    ∃ instruction, action = .plain instruction := by
  cases action with
  | plain instruction => exact ⟨instruction, rfl⟩
  | _ => exact absurd rfl some

/-- An action with coalesced code takes the place of its piece. -/
theorem Coalesces.fills {piece : Piece} {saved : Nat} (coalesces : Coalesces piece saved)
    (solid : piece.Solid) : Fills piece piece.action.coalescedInside where
  same := (Action.hollow_coalescedInside _).symm
  bytes := by
    have width := coalesces.width
    omega
  emptied empty := by
    obtain ⟨marker, rfl⟩ | real := solid
    · rfl
    · have positive := Action.width_pos ((Action.isMarker_coalescedInside _).trans real.real)
      omega
  records := by
    rw [Action.recordCount, Action.isMarker_coalescedInside]
    obtain ⟨marker, rfl⟩ | real := solid
    · rfl
    · rw [real.real, real.records]
      rfl
  pushes some := by
    rw [Action.pushed_coalescedInside] at some
    obtain ⟨instruction, isPlain⟩ := Action.plain_of_pushed some
    have width := coalesces.width
    rw [(coalesces.plain instruction isPlain).1] at width
    exact width.symm

/-! ### Shells of casts -/

section

variable {cast : Instruction → Instruction}

theorem Keeps.width_recastShell (keeps : Keeps cast) (action : Action) :
    (action.recastShell cast).width = action.width := by
  cases action with
  | plain instruction => exact keeps.width instruction
  | _ => rfl

theorem Action.isMarker_recastShell (cast : Instruction → Instruction) (action : Action) :
    (action.recastShell cast).isMarker = action.isMarker := by
  cases action <;> rfl

theorem Keeps.map_width (keeps : Keeps cast) {actions others : List Action}
    (same : actions.map (Action.recastShell cast) = others.map (Action.recastShell cast)) :
    actions.map Action.width = others.map Action.width := by
  have hidden : ∀ actions : List Action,
      (actions.map (Action.recastShell cast)).map Action.width = actions.map Action.width := by
    intro actions
    rw [List.map_map]
    exact List.map_congr_left fun action _ => keeps.width_recastShell action
  rw [← hidden, same, hidden]

/-- Pieces that differ from records of their own in what a cast forgets are such records. -/
theorem Keeps.alone_of_recastShell (keeps : Keeps cast) {results : List Piece}
    {actions : List Action} (same : results.map (Piece.recastShell cast) =
      (actions.map Action.alone).map (Piece.recastShell cast)) :
    (results.map Piece.action).map Action.alone = results ∧
      (results.map Piece.action).map (Action.recastShell cast) =
        actions.map (Action.recastShell cast) := by
  induction results generalizing actions with
  | nil => 
    cases actions with
    | nil => exact ⟨rfl, rfl⟩
    | cons action rest => cases same
  | cons result results ih =>
    cases actions with
    | nil => cases same
    | cons action rest =>
      rw [List.map_cons, List.map_cons, List.map_cons, List.cons.injEq] at same
      obtain ⟨here, later⟩ := same
      have alike : result.action.recastShell cast = action.recastShell cast :=
        congrArg Piece.action here
      have bytes : result.bytes = action.width := congrArg Piece.bytes here
      have records : result.records = action.recordCount := congrArg Piece.records here
      have width : result.action.width = action.width := by
        rw [← keeps.width_recastShell, alike, keeps.width_recastShell]
      have count : result.action.recordCount = action.recordCount := by
        rw [Action.recordCount, ← Action.isMarker_recastShell cast, alike,
          Action.isMarker_recastShell]
        rfl
      obtain ⟨alone, others⟩ := ih later
      constructor
      · rw [List.map_cons, List.map_cons, alone, Action.alone, width, count, ← bytes, ← records]
      · rw [List.map_cons, List.map_cons, List.map_cons, alike, others]

theorem mem_of_recastShell {actions others : List Action}
    (same : actions.map (Action.recastShell cast) = others.map (Action.recastShell cast))
    {action : Action} (inside : action ∈ actions) :
    ∃ other ∈ others, action.recastShell cast = other.recastShell cast := by
  obtain ⟨other, isOther, alike⟩ :=
    List.mem_map.mp (same ▸ List.mem_map_of_mem (f := Action.recastShell cast) inside)
  exact ⟨other, isOther, alike.symm⟩

end

theorem labelsBefore_map {change : Action → Action}
    (label : ∀ action, (change action).label? = action.label?)
    (marker : ∀ action, (change action).isMarker = action.isMarker) {actions : List Action} :
    LabelsBefore (actions.map change) ↔ LabelsBefore actions := by
  rw [LabelsBefore, List.isChain_map]
  simp only [label, marker]
  rfl

theorem Action.branchLabel_recastShell_blank (action : Action) :
    (action.recastShell Instruction.blank).branch?.map Branch.label =
      action.branch?.map Branch.label := by
  cases action with
  | plain instruction =>
    cases instruction with
    | branch jump => obtain ⟨conditional, offset, _ | label⟩ := jump <;> rfl
    | block block => cases block <;> rfl
    | _ => rfl
  | _ => rfl

theorem SparesPushes.recastShell {cast : Instruction → Instruction} (spares : SparesPushes cast) :
    Spares (Action.recastShell cast) where
  pushed action := by
    cases action with
    | plain instruction => exact spares.recast.pushed (.plain instruction)
    | _ => rfl
  same action some := by
    cases action with
    | plain instruction => exact spares.recast.same (.plain instruction) some
    | _ => rfl

/-! ### One level -/

/-- A level of a listing with its code as it is written. -/
def coalescedLevel (nextLabel : Nat) (pieces : List Piece) : List Action :=
  (listed nextLabel pieces).map fun piece => piece.action.coalescedInside

section

variable {pieces : List Piece} {nextLabel : Nat}

theorem coalescedLevel_eq_map :
    coalescedLevel nextLabel pieces =
      ((listed nextLabel pieces).map Piece.action).map Action.coalescedInside := by
  rw [List.map_map]
  rfl

theorem filterMap_coalescedLevel {β : Type} {view : Action → Option β}
    (blind : ∀ signature body other,
      view (.define signature body) = view (.define signature other)) :
    (coalescedLevel nextLabel pieces).filterMap view =
      ((listed nextLabel pieces).map Piece.action).filterMap view := by
  rw [coalescedLevel, List.filterMap_map, List.filterMap_map]
  exact List.filterMap_congr fun piece _ => Action.view_coalescedInside view blind piece.action

/-- The pushes of a level are merged as in its listing. -/
theorem blank_mergePushes (real : AllReal pieces) (fit : AllFit pieces)
    (every : ∀ piece ∈ pieces, ∃ saved, Coalesces piece saved) :
    recastAll Instruction.blank (mergePushes (finished nextLabel pieces)) =
      recastAll Instruction.blank (fuse (coalescedLevel nextLabel pieces)) := by
  have alike : ∀ piece ∈ listed nextLabel pieces,
      (piece.action.mapInside mergeRuns).recast Instruction.blank =
        piece.action.coalescedInside.recast Instruction.blank :=
    forall_listed _ real fit nextLabel (fun marker => (coalesces_ofMarker marker).blank)
      fun piece inside labels position => by
        obtain ⟨saved, coalesces⟩ := every piece inside
        exact (coalesces.bindTo labels position).blank
  rw [finished, mergePushes_of_splitPushes, sparesPushes_blank.recastAll_fuse,
    sparesPushes_blank.recastAll_fuse, recastAll_eq_map, recastAll_eq_map, coalescedLevel,
    List.map_map, List.map_map, List.map_map]
  exact congrArg fuse (List.map_congr_left alike)

/-- The actions of a level with code as it is written take the places of the listing. -/
theorem fills_coalescedLevel (real : AllReal pieces) (fit : AllFit pieces)
    (every : ∀ piece ∈ pieces, ∃ saved, Coalesces piece saved) :
    List.Forall₂ Fills (listed nextLabel pieces) (coalescedLevel nextLabel pieces) := by
  rw [coalescedLevel, List.forall₂_map_right_iff, List.forall₂_same]
  exact forall_listed _ real fit nextLabel
    (fun marker => (coalesces_ofMarker marker).fills (.inl ⟨marker, rfl⟩))
    fun piece inside labels position => by
      obtain ⟨saved, coalesces⟩ := every piece inside
      exact (coalesces.bindTo labels position).fills
        (.inr ((real piece inside).bindTo labels position))

/-- The instructions of a level are stable. -/
theorem stable_coalescedLevel (real : AllReal pieces) (fit : AllFit pieces)
    (every : ∀ piece ∈ pieces, ∃ saved, Coalesces piece saved) {instruction : Instruction}
    (inside : .plain instruction ∈ coalescedLevel nextLabel pieces) : instruction.Stable := by
  have stable : ∀ piece ∈ listed nextLabel pieces, ∀ instruction,
      piece.action = .plain instruction → instruction.Stable :=
    forall_listed _ real fit nextLabel (fun marker instruction isPlain => by cases isPlain)
      fun piece inside labels position instruction isPlain => by
        obtain ⟨saved, coalesces⟩ := every piece inside
        exact ((coalesces.bindTo labels position).plain instruction isPlain).2
  obtain ⟨piece, isPiece, same⟩ := List.mem_map.mp inside
  refine stable piece isPiece instruction ?_
  cases action : piece.action with
  | plain other => rw [action] at same; exact same
  | define signature body => rw [action] at same; cases same
  | marker found => rw [action] at same; cases same

/-- The actions of a level can be written, and its code is canonical and can be written. -/
theorem action_coalescedLevel (real : AllReal pieces) (fit : AllFit pieces)
    (every : ∀ piece ∈ pieces, ∃ saved, Coalesces piece saved) {action : Action}
    (inside : action ∈ coalescedLevel nextLabel pieces) :
    action.Writable ∧ action.CodeHolds Canonical ∧ action.CodeHolds AllWritable := by
  have coalesces : ∀ piece ∈ listed nextLabel pieces, ∃ saved, Coalesces piece saved :=
    forall_listed _ real fit nextLabel (fun marker => ⟨0, coalesces_ofMarker marker⟩)
      fun piece inside labels position => by
        obtain ⟨saved, coalesces⟩ := every piece inside
        exact ⟨saved, coalesces.bindTo labels position⟩
  obtain ⟨piece, isPiece, rfl⟩ := List.mem_map.mp inside
  obtain ⟨saved, holds⟩ := coalesces piece isPiece
  exact ⟨holds.writable, holds.canonical, holds.inside⟩

/-! #### Other offsets and sizes -/

section

variable {result : List Action}
  (shells : result.map (Action.recastShell Instruction.blank) =
    (fuse (coalescedLevel nextLabel pieces)).map (Action.recastShell Instruction.blank))

include shells

/-- The branches of a level have the labels that they have in its listing. -/
theorem branchLabels_of_shells :
    branchLabels result = branchLabels ((listed nextLabel pieces).map Piece.action) := by
  have same : branchLabels result = branchLabels (fuse (coalescedLevel nextLabel pieces)) :=
    filterMap_of_map Action.branchLabel_recastShell_blank shells
  rw [same, branchLabels_fuse]
  exact filterMap_coalescedLevel fun _ _ _ => rfl

/-- The labels of a level are those in its listing. -/
theorem labels_of_shells :
    result.filterMap Action.label? =
      ((listed nextLabel pieces).map Piece.action).filterMap Action.label? := by
  rw [filterMap_of_map (fun action => label?_recastShell _ action) shells, labels_fuse,
    filterMap_coalescedLevel fun _ _ _ => rfl]

theorem labelsBefore_of_shells (real : AllReal pieces) (finishable : Finishable pieces) :
    LabelsBefore result := by
  rw [← labelsBefore_map (label?_recastShell Instruction.blank)
    (Action.isMarker_recastShell Instruction.blank), shells,
    labelsBefore_map (label?_recastShell _) (Action.isMarker_recastShell _)]
  refine LabelsBefore.fuse ?_
  rw [coalescedLevel_eq_map, labelsBefore_map (Action.view_coalescedInside _ fun _ _ _ => rfl)
    Action.isMarker_coalescedInside]
  exact (orderly_listed real finishable nextLabel).before

theorem merged_of_shells : Merged result := by
  rw [← sparesPushes_blank.recastShell.merged_iff, shells,
    sparesPushes_blank.recastShell.merged_iff]
  exact merged_fuse _

section

variable (real : AllReal pieces) (fit : AllFit pieces)
  (every : ∀ piece ∈ pieces, ∃ saved, Coalesces piece saved)

include real fit

/-- The code of a level is that of its pieces. -/
theorem bodiesOf_of_shells :
    bodiesOf result = pieces.filterMap fun piece => piece.action.coalescedInside.body? := by
  have same : bodiesOf result = bodiesOf (fuse (coalescedLevel nextLabel pieces)) :=
    filterMap_of_map (Action.body?_recastShell _) shells
  have bound : ∀ (action : Action) labels position,
      (action.bindTo labels position).coalescedInside.body? = action.coalescedInside.body? := by
    intro action labels position
    obtain same | ⟨branch, rfl, same⟩ := Action.bindTo_cases labels position action
    · rw [same]
    · rw [same]
      rfl
  have seen : (listed nextLabel pieces).filterMap (fun piece => piece.action.coalescedInside.body?) =
      pieces.filterMap fun piece => piece.action.coalescedInside.body? :=
    @filterMap_listed _ _ (fun action => action.coalescedInside.body?) real fit nextLabel
      (fun _ => rfl) bound
  rw [same, bodiesOf_fuse, bodiesOf, coalescedLevel, List.filterMap_map]
  exact seen

include every

/-- The instructions of a level can be read, and have their usual form. -/
theorem readable_of_shells {instruction : Instruction} (inside : .plain instruction ∈ result) :
    instruction.Readable ∧ instruction.canon = instruction.bare := by
  obtain ⟨other, isOther, alike⟩ := mem_of_recastShell shells inside
  obtain ⟨found, rfl⟩ : ∃ found, other = .plain found := by
    cases other with
    | plain found => exact ⟨found, rfl⟩
    | _ => cases alike
  have stable : found.Stable := by
    obtain kept | ⟨isPush, _⟩ := mem_fuse isOther
    · exact stable_coalescedLevel real fit every kept
    · exact Instruction.stable_pushOf isPush.symm
  have whole := stable.of_blank (Action.plain.inj alike).symm
  exact ⟨whole.readable, whole.canon⟩

/-- The code in a level is canonical and can be written. -/
theorem code_of_shells {signature : Signature} {body : List Action}
    (inside : .define signature body ∈ result) :
    EveryLevel Canonical body ∧ EveryLevel AllWritable body := by
  obtain ⟨other, isOther, alike⟩ := mem_of_recastShell shells inside
  obtain rfl : other = .define signature body := by
    cases other with
    | define _ _ => exact alike.symm
    | _ => cases alike
  obtain kept | ⟨_, some⟩ := mem_fuse isOther
  · obtain ⟨_, canonical, writable⟩ := action_coalescedLevel real fit every kept
    rw [Action.CodeHolds] at canonical writable
    exact ⟨canonical, writable⟩
  · exact absurd rfl some

theorem writable_of_shells : AllWritable result := by
  intro action inside
  obtain ⟨other, isOther, alike⟩ := mem_of_recastShell shells inside
  have own : AllWritable (coalescedLevel nextLabel pieces) := fun action inside =>
    (action_coalescedLevel real fit every inside).1
  rw [← Action.writable_blank_iff, alike, Action.writable_blank_iff]
  exact own.fuse other isOther

end

end

/-! #### The canonical level -/

/-- The pushes that are neighbours are those between whose records nothing divides them. -/
theorem neighbours_coalescedLevel (real : AllReal pieces) (finishable : Finishable pieces)
    (nested : Nested 0 (layout pieces)) :
    neighbours (coalescedLevel nextLabel pieces) = ownJoins pieces := by
  rw [coalescedLevel_eq_map, neighbours_map Action.pushed_coalescedInside,
    joins_listed real finishable nested]

/-- **One level of a listing is resolved as a canonical one**, if spans nest: it differs from the
joined level in offsets and sizes only. -/
theorem exists_coalesced (real : AllReal pieces) (finishable : Finishable pieces)
    (nested : Nested 0 (layout pieces)) (nextLabel : Nat)
    (every : ∀ piece ∈ pieces, ∃ saved, Coalesces piece saved) :
    ∃ result : List Action,
      result.map (Action.recastShell Instruction.blank) =
        (fuse (coalescedLevel nextLabel pieces)).map (Action.recastShell Instruction.blank) ∧
      EveryLevel Canonical result ∧ EveryLevel AllWritable result := by
  have orderly := orderly_listed real finishable nextLabel
  have tidy := tidy_listed real finishable.fit nested nextLabel
  obtain ⟨results, same, tidy, aimed⟩ :=
    (shrinks_fuse (fills_coalescedLevel real finishable.fit every)).settle tidy orderly.aimed
  obtain ⟨alone, shells⟩ := keeps_blank.alone_of_recastShell same
  have code := fun signature body => @code_of_shells _ _ _ shells real finishable.fit every signature
    body
  refine ⟨results.map Piece.action, shells,
    ⟨⟨?_, ?_, merged_of_shells shells, fun _ => readable_of_shells shells real finishable.fit every⟩,
      ?_⟩, writable_of_shells shells real finishable.fit every, ?_⟩
  · rw [alone]
    exact tidy
  · rw [alone]
    exact orderly.of_lists (by rw [← alone]; exact solid_map_alone _)
      (labelsBefore_of_shells shells real finishable) aimed (labels_of_shells shells)
      (branchLabels_of_shells shells)
  · exact allCodeHolds_iff.mpr fun signature body inside => (code signature body inside).1
  · exact allCodeHolds_iff.mpr fun signature body inside => (code signature body inside).2

end

/-! ### Numbers and lengths -/

/-- The labels of some code are numbered from one on up to another. -/
def BodiesNumbered : Nat → List (List Action) → Nat → Prop
  | first, [], next => next = first
  | first, body :: rest, next => ∃ own count, InnerNumbered first body own ∧
    NumberedFrom own body count ∧ BodiesNumbered (own + count) rest next

/-- The labels of all code inside a sequence are those of its bodies. -/
theorem innerNumbered_iff {first next : Nat} {actions : List Action} :
    InnerNumbered first actions next ↔ BodiesNumbered first (bodiesOf actions) next := by
  induction actions generalizing first with
  | nil =>
    rw [InnerNumbered]
    rfl
  | cons action rest ih =>
    rw [InnerNumbered]
    cases action with
    | define signature body =>
      simp only [Action.Numbered, ih]
      constructor
      · rintro ⟨_, ⟨own, count, inner, numbered, rfl⟩, later⟩
        exact ⟨own, count, inner, numbered, later⟩
      · rintro ⟨own, count, inner, numbered, later⟩
        exact ⟨_, ⟨own, count, inner, numbered, rfl⟩, later⟩
    | plain instruction =>
      simp only [Action.Numbered, ih, exists_eq_left]
      rfl
    | marker found =>
      simp only [Action.Numbered, ih, exists_eq_left]
      rfl

theorem BodiesNumbered.append {first middle next : Nat} {front back : List (List Action)}
    (early : BodiesNumbered first front middle) (late : BodiesNumbered middle back next) :
    BodiesNumbered first (front ++ back) next := by
  induction front generalizing first with
  | nil =>
    rw [BodiesNumbered] at early
    exact early ▸ late
  | cons body rest ih =>
    rw [BodiesNumbered] at early
    obtain ⟨own, count, inner, numbered, later⟩ := early
    rw [List.cons_append, BodiesNumbered]
    exact ⟨own, count, inner, numbered, ih later⟩

/-- The bytes of a spaced sequence are those of its actions. -/
theorem encodedLength_of_spaced {actions : List Action} (spaced : Spaced actions) :
    encodedLength actions = (actions.map Action.width).sum := by
  rw [encodedLength, Extent.bytes_through, Extent.pieces_start spaced, List.map_map]
  exact Nat.zero_add _

theorem sum_map_eq_filterMap {α : Type} {size : α → Nat} {view : α → Option Nat}
    (same : ∀ value, size value = (view value).getD 0) (values : List α) :
    (values.map size).sum = (values.filterMap view).sum := by
  induction values with
  | nil => rfl
  | cons value rest ih =>
    rw [List.map_cons, List.sum_cons, List.filterMap_cons, ih, same]
    cases view value with
    | none => exact Nat.zero_add _
    | some width => rfl

/-- The bytes of a real action with its code as it is written. -/
def Action.coalescedWidth? (action : Action) : Option Nat :=
  if action.isMarker then none else some action.coalescedInside.width

theorem Action.coalescedWidth?_bindTo (action : Action) (labels : Nat → Option Label)
    (position : Nat) :
    (action.bindTo labels position).coalescedWidth? = action.coalescedWidth? := by
  obtain same | ⟨branch, rfl, same⟩ := bindTo_cases labels position action
  · rw [same]
  · rw [same]
    rfl

/-- The bytes of a level with code as it is written. -/
theorem sum_width_coalescedLevel {pieces : List Piece} (real : AllReal pieces)
    (fit : AllFit pieces) (nextLabel : Nat) :
    ((coalescedLevel nextLabel pieces).map Action.width).sum =
      (pieces.map fun piece => piece.action.coalescedInside.width).sum := by
  have same : ∀ piece : Piece,
      piece.action.coalescedInside.width = piece.action.coalescedWidth?.getD 0 := by
    intro piece
    rw [Action.coalescedWidth?]
    cases piece.action with
    | marker found =>
      change (Action.marker found).width = 0
      rw [Action.width]
    | _ => rfl
  have seen := filterMap_listed real fit nextLabel (fun _ => rfl) Action.coalescedWidth?_bindTo
  rw [coalescedLevel, List.map_map]
  exact (sum_map_eq_filterMap same _).trans
    ((congrArg List.sum seen).trans (sum_map_eq_filterMap same _).symm)

/-! ### Every level -/

/-- The level of a listing is written as another, at every level. -/
structure Coalesced (nextLabel : Nat) (chunks : List Chunk) (result : List Action) : Prop where
  blank : recastAll Instruction.blank (mergePushes (actionsOf nextLabel chunks)) =
    recastAll Instruction.blank result
  canonical : EveryLevel Canonical result
  writable : EveryLevel AllWritable result
  inner : InnerNumbered nextLabel result (piecesFrom nextLabel chunks).2
  numbered : NumberedFrom (piecesFrom nextLabel chunks).2 result
    (usesOf (piecesFrom nextLabel chunks).1).length
  shorter : encodedLength result + headWidth * joins chunks = (bytesOf chunks).length

/-- Pieces of records whose code can be written, and what that saves. -/
def CoalescesAll (pieces : List Piece) (chunks : List Chunk) : Prop :=
  List.Forall₂ (fun piece chunk => Coalesces piece chunk.joins ∧
    piece.bytes = chunk.bytes.length) pieces chunks

theorem CoalescesAll.sum_width {pieces : List Piece} {chunks : List Chunk}
    (every : CoalescesAll pieces chunks) :
    (pieces.map fun piece => piece.action.coalescedInside.width).sum +
      headWidth * innerJoins chunks = (bytesOf chunks).length := by
  induction every with
  | nil => rw [innerJoins]; rfl
  | @cons piece chunk pieces chunks first _ ih =>
    have width := first.1.width
    rw [List.map_cons, List.sum_cons, innerJoins, bytesOf_cons, List.length_append, ← ih,
      ← first.2, ← width, Nat.mul_add]
    omega

/-- **One level and all code inside are coalesced**, if the code inside can be. -/
theorem exists_coalesced_level {nextLabel : Nat} {chunks : List Chunk}
    (real : AllReal (piecesFrom nextLabel chunks).1)
    (finishable : Finishable (piecesFrom nextLabel chunks).1) (nest : SpansNest chunks)
    (every : CoalescesAll (piecesFrom nextLabel chunks).1 chunks)
    (numbered : BodiesNumbered nextLabel ((piecesFrom nextLabel chunks).1.filterMap
      fun piece => piece.action.coalescedInside.body?) (piecesFrom nextLabel chunks).2) :
    ∃ result, Coalesced nextLabel chunks result := by
  have joined := ownJoins_piecesFrom nextLabel chunks
  have nested := nest.nested nextLabel
  have width := every.sum_width
  have coalesces : ∀ piece ∈ (piecesFrom nextLabel chunks).1, ∃ saved, Coalesces piece saved :=
    fun piece inside => by
      obtain ⟨chunk, _, both⟩ := exists_of_forall₂ every inside
      exact ⟨_, both.1⟩
  obtain ⟨result, alike, canonical, writable⟩ :=
    exists_coalesced real finishable nested (piecesFrom nextLabel chunks).2 coalesces
  refine ⟨result, (blank_mergePushes real finishable.fit coalesces).trans
    (recastAll_of_recastShell alike).symm, canonical, writable, ?_, ?_, ?_⟩
  · rw [innerNumbered_iff, bodiesOf_of_shells alike real finishable.fit]
    exact numbered
  · rw [NumberedFrom, branchIds_eq_labels, branchLabels_of_shells alike, ← branchIds_eq_labels]
    exact numberedFrom_listed real finishable.fit _
  · have saved := sum_width_fuse (coalescedLevel (piecesFrom nextLabel chunks).2
      (piecesFrom nextLabel chunks).1)
    rw [sum_width_coalescedLevel real finishable.fit,
      neighbours_coalescedLevel real finishable nested, joined] at saved
    rw [encodedLength_of_spaced canonical.1.merged.spaced, keeps_blank.map_width alike, joins,
      Nat.mul_add]
    omega

theorem Coalesced.resolves {nextLabel : Nat} {chunks : List Chunk} {result : List Action}
    (coalesced : Coalesced nextLabel chunks result) {settings : AssemblySettings}
    (shallow : nesting (actionsOf nextLabel chunks) ≤ settings.maxDepth) :
    resolve settings (actionsOf nextLabel chunks) = .ok result :=
  resolve_ok_iff.mpr ⟨shallow, coalesced.blank, coalesced.canonical.1.sealed.1,
    allCodeHolds_of_imp (fun _ canonical => canonical.sealed.1) coalesced.canonical.2⟩

theorem Coalesced.coalesced_eq {nextLabel : Nat} {chunks : List Chunk} {result : List Action}
    (written : Coalesced nextLabel chunks result) :
    coalesced (actionsOf nextLabel chunks) = result := by
  have resolves : resolve ⟨nesting (actionsOf nextLabel chunks)⟩ (actionsOf nextLabel chunks) =
      .ok result := written.resolves (Nat.le_refl _)
  rw [coalesced, resolves]

mutual

theorem Chunk.coalesces : ∀ {chunk : Chunk} {room nextLabel : Nat},
    chunk.Formed Instruction.SpelledBy room → chunk.Sound nextLabel → chunk.CodeHolds SpansNest →
      Coalesces (chunk.piece nextLabel).1 chunk.joins ∧
        (chunk.piece nextLabel).1.bytes = chunk.bytes.length ∧
        BodiesNumbered nextLabel (chunk.piece nextLabel).1.action.coalescedInside.body?.toList
          (chunk.piece nextLabel).2
  | .instruction found bytes, room, nextLabel, formed, _, _ => by
    rw [Chunk.Formed] at formed
    rw [Chunk.piece, Chunk.joins]
    obtain ⟨image, written, long, _⟩ := formed.image
    refine ⟨⟨?_, ?_, ?_, Action.codeHolds_plain found, ?_, Action.codeHolds_plain found⟩, rfl, rfl⟩
    · exact (Instruction.length_of_image written).symm.trans long
    · rintro _ ⟨⟩
      exact ⟨rfl, Instruction.stable_of_canon formed.readable formed.canon⟩
    · rw [Action.mapInside_plain]
      rfl
    · exact found.writable_of_image (written ▸ Option.some_ne_none image)
  | .definition signature bytes code, room, nextLabel, formed, sound, nest => by
    rw [Chunk.Formed] at formed
    obtain ⟨_, ⟨front, declared, rfl⟩, inner⟩ := formed
    rw [Chunk.Sound] at sound
    rw [Chunk.CodeHolds] at nest
    have real := real_piecesFrom (fun _ _ spelled => spelled.length_pos) inner nextLabel
    obtain ⟨every, numbered⟩ := coalesces_piecesFrom inner sound.1 nest.2
    obtain ⟨result, written⟩ := exists_coalesced_level real sound.2 nest.1 every numbered
    have same : (Action.define signature (actionsOf nextLabel code)).coalescedInside =
        .define signature result := by
      rw [Action.coalescedInside, written.coalesced_eq]
    rw [Chunk.piece, Chunk.joins, ← actionsOf]
    refine ⟨⟨?_, fun _ isPlain => (by cases isPlain), ?_, ?_, ?_, ?_⟩, rfl, ?_⟩
    · have short := written.shorter
      have long := Signature.length_of_image declared
      rw [same, Action.width, List.length_append]
      rw [encodedLength, joins] at short
      change _ = front.length + (bytesOf code).length
      omega
    · rw [same, Action.mapInside_define, Action.recast, Action.recast, ← mergePushes,
        written.blank]
    · rw [same, Action.CodeHolds]
      exact written.canonical
    · have short := written.shorter
      rw [same]
      exact signature.image_of_shorter (by omega) (declared ▸ Option.some_ne_none front)
    · rw [same, Action.CodeHolds]
      exact written.writable
    · rw [same]
      exact ⟨_, _, written.inner, written.numbered, rfl⟩

/-- **The pieces of records coalesce.** -/
theorem coalesces_piecesFrom : ∀ {chunks : List Chunk} {room nextLabel : Nat},
    AllFormed Instruction.SpelledBy room chunks → AllSound nextLabel chunks →
      AllCode SpansNest chunks → CoalescesAll (piecesFrom nextLabel chunks).1 chunks ∧
        BodiesNumbered nextLabel ((piecesFrom nextLabel chunks).1.filterMap
          fun piece => piece.action.coalescedInside.body?) (piecesFrom nextLabel chunks).2
  | [], room, nextLabel, _, _, _ => by
    rw [piecesFrom]
    exact ⟨.nil, rfl⟩
  | chunk :: rest, room, nextLabel, formed, sound, nest => by
    rw [AllFormed] at formed
    rw [AllSound] at sound
    rw [AllCode] at nest
    obtain ⟨first, bytes, numbered⟩ := Chunk.coalesces formed.1 sound.1 nest.1
    obtain ⟨later, others⟩ := coalesces_piecesFrom formed.2 sound.2 nest.2
    rw [piecesFrom]
    refine ⟨.cons ⟨first, bytes⟩ later, ?_⟩
    have split : ∀ (piece : Piece) (rest : List Piece), (piece :: rest).filterMap
        (fun piece => piece.action.coalescedInside.body?) =
          piece.action.coalescedInside.body?.toList ++ rest.filterMap
            fun piece => piece.action.coalescedInside.body? := by
      intro piece rest
      rw [List.filterMap_cons]
      cases piece.action.coalescedInside.body? <;> rfl
    rw [split]
    exact numbered.append others

end

/-- **A buffer whose spans nest at every level is coalesced.** -/
theorem Accepted.exists_coalesced {maxDepth : Nat} {bytes : List UInt8}
    (accepted : Accepted maxDepth bytes) (nest : EveryCode SpansNest (chunks maxDepth bytes)) :
    ∃ result, Coalesced 0 (chunks maxDepth bytes) result := by
  have real := real_piecesFrom (fun _ _ spelled => spelled.length_pos) accepted.formed 0
  obtain ⟨every, numbered⟩ := coalesces_piecesFrom accepted.formed accepted.sound nest.2
  exact exists_coalesced_level real accepted.finishable nest.1 every numbered

end ActionCode
