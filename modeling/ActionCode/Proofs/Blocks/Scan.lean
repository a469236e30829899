/-
**Measuring enters the sizes that closings ask for.**

* `Completes`: an open block takes closings off a stack until it is closed; with a block that has
  just opened this is `Spanned` (**`completes_of_spanned`**, **`spanned_of_completes`**).
* **`measureOwnBlocks_ok_iff`**: a sequence is measured exactly if its pieces close all blocks, and
  the result has the sizes that they should have.
-/

import ActionCode.Proofs.Blocks.Pieces

namespace ActionCode

/-! ### Extents as points -/

/-- The point that an extent has come to. -/
def Extent.point (extent : Extent) : Point := ⟨extent.bytes, extent.records⟩

theorem Extent.le_advance (before : Extent) (action : Action) :
    Point.Le before.point (before.advance action).point := by
  unfold Extent.advance Extent.add
  split
  · split
    · exact ⟨Nat.le_add_right _ _, Nat.le_refl _⟩
    · exact ⟨Nat.le_add_right _ _, Nat.le_add_right _ _⟩
  · exact .refl _
  · exact ⟨Nat.le_add_right _ _, Nat.le_add_right _ _⟩

/-- An action with the room it takes after an extent. -/
def Extent.piece (before : Extent) (action : Action) : Piece where
  action := action
  bytes := (before.advance action).bytes - before.bytes
  records := (before.advance action).records - before.records

/-- The pieces of a sequence after an extent. -/
def Extent.pieces (before : Extent) : List Action → List Piece
  | [] => []
  | action :: rest => before.piece action :: (before.advance action).pieces rest

@[simp]
theorem Extent.after_piece (before : Extent) (action : Action) :
    before.point.after (before.piece action) = (before.advance action).point := by
  have le := before.le_advance action
  have bytes := le.bytes
  have records := le.records
  unfold Point.after Extent.piece
  dsimp only [Extent.point] at bytes records ⊢
  rw [Nat.add_sub_cancel' bytes, Nat.add_sub_cancel' records]

@[simp]
theorem Extent.piece_marker (before : Extent) (marker : Marker) :
    before.piece (.marker marker) = .ofMarker marker := by
  unfold Extent.piece Piece.ofMarker
  change Piece.mk _ (before.bytes - before.bytes) (before.records - before.records) = _
  rw [Nat.sub_self, Nat.sub_self]

/-- The bytes of a sequence are those of its pieces. -/
theorem Extent.bytes_through (before : Extent) (actions : List Action) :
    (before.through actions).bytes =
      before.bytes + ((before.pieces actions).map Piece.bytes).sum := by
  induction actions generalizing before with
  | nil => rw [Extent.through]; rfl
  | cons action rest ih =>
    have here := congrArg Point.bytes (before.after_piece action)
    rw [Extent.through, ← Extent.advance, ih, Extent.pieces, List.map_cons, List.sum_cons,
      ← Nat.add_assoc]
    exact congrArg (· + _) here.symm

/-! ### Open blocks and their closings -/

/-- An open block whose current span began at a point takes closings until it is closed. -/
def Completes (kind : OpenKind) (start : Point) : List Pending → Block → Prop
  | [], _ => False
  | next :: own, block =>
    match kind.advance next.marker 0 (next.point.bytes - start.bytes)
        (next.point.records - start.records) with
    | .ok (.close closed) => own = [] ∧ block = closed
    | .ok (.stage kind) => Completes kind next.point own block
    | .error _ => False

theorem completes_stage_iff {kind next : OpenKind} {marker : Marker} {start stop : Point}
    {own : List Pending} {block : Block}
    (advanced : kind.advance marker 0 (stop.bytes - start.bytes) (stop.records - start.records) =
      .ok (.stage next)) :
    Completes kind start (⟨marker, stop⟩ :: own) block ↔ Completes next stop own block := by
  rw [Completes, advanced]

theorem completes_close_iff {kind : OpenKind} {marker : Marker} {start stop : Point}
    {own : List Pending} {block closed : Block}
    (advanced : kind.advance marker 0 (stop.bytes - start.bytes) (stop.records - start.records) =
      .ok (.close closed)) :
    Completes kind start (⟨marker, stop⟩ :: own) block ↔ own = [] ∧ block = closed := by
  rw [Completes, advanced]

/-- Only the first closing decides what comes next. -/
theorem Completes.cases_cons {kind : OpenKind} {next : Pending} {start : Point}
    {own : List Pending} {block : Block} (completes : Completes kind start (next :: own) block) :
    (kind.advance next.marker 0 (next.point.bytes - start.bytes)
        (next.point.records - start.records) = .ok (.close block) ∧ own = []) ∨
      ∃ kind', kind.advance next.marker 0 (next.point.bytes - start.bytes)
          (next.point.records - start.records) = .ok (.stage kind') ∧
        Completes kind' next.point own block := by
  rw [Completes] at completes
  split at completes
  · rename_i closed advanced
    obtain ⟨rfl, rfl⟩ := completes
    exact .inl ⟨advanced, rfl⟩
  · rename_i kind' advanced
    exact .inr ⟨kind', advanced, completes⟩
  · cases completes

/-- A number is entered exactly if it is smaller than the bound of the field. -/
theorem enter_ok_iff {α : Type} {toNat : α → Nat} {ofNat : Nat → α} {fits : Bool}
    {bound value : Nat} {fault : AssemblyFault} {size : α} (small : fits = true ↔ value < bound)
    (toNat_lt : ∀ size, toNat size < bound) (ofNat_toNat : ∀ size, ofNat (toNat size) = size)
    (toNat_ofNat : value < bound → toNat (ofNat value) = value) :
    (if fits then Except.ok (ofNat value) else .error fault) = .ok size ↔ toNat size = value := by
  constructor
  · intro success
    split at success
    · rename_i inside
      cases success
      exact toNat_ofNat (small.mp inside)
    · cases success
  · rintro rfl
    rw [if_pos (small.mpr (toNat_lt size)), ofNat_toNat]

theorem size16_ok_iff {field : SizeField} (wide : field.bits = 16) {value : Nat} {size : UInt16} :
    size16 field value = .ok size ↔ size.toNat = value := by
  have small : field.fits value = true ↔ value < 65536 := by
    rw [SizeField.fits, wide]
    exact decide_eq_true_iff
  exact enter_ok_iff small UInt16.toNat_lt (fun _ => UInt16.ofNat_toNat)
    fun inside => UInt16.toNat_ofNat'.trans (Nat.mod_eq_of_lt inside)

theorem size8_ok_iff {value : Nat} {size : UInt8} :
    size8 .skipCount value = .ok size ↔ size.toNat = value := by
  have small : SizeField.skipCount.fits value = true ↔ value < 256 := decide_eq_true_iff
  exact enter_ok_iff small UInt8.toNat_lt (fun _ => UInt8.ofNat_toNat)
    fun inside => UInt8.toNat_ofNat'.trans (Nat.mod_eq_of_lt inside)

/-- A block with the size of one of its spans, once it has been measured. -/
def TryBlock.measured (block : TryBlock) (stage : TryStage) (size : UInt16) : TryBlock :=
  match stage with
  | .attempt => { block with trySize := size, catchSize := 0, finallySize := 0 }
  | .handler => { block with catchSize := size, finallySize := 0 }
  | .cleanup => { block with finallySize := size }

theorem TryBlock.measure_ok_iff {block result : TryBlock} {stage : TryStage} {value : Nat} :
    block.measure stage value = .ok result ↔
      ∃ size : UInt16, size.toNat = value ∧ result = block.measured stage size := by
  have general : ∀ (field : SizeField) (enter : UInt16 → TryBlock), field.bits = 16 →
      ((size16 field value >>= fun size => pure (enter size)) = .ok result ↔
        ∃ size : UInt16, size.toNat = value ∧ result = enter size) := by
    intro field enter wide
    cases entered : size16 field value with
    | error fault =>
      constructor
      · intro success
        cases success
      · rintro ⟨size, same, _⟩
        rw [(size16_ok_iff wide).mpr same] at entered
        cases entered
    | ok size =>
      have same := (size16_ok_iff wide).mp entered
      constructor
      · intro success
        cases success
        exact ⟨size, same, rfl⟩
      · rintro ⟨other, equal, rfl⟩
        have one : other = size := UInt16.toNat_inj.mp (equal.trans same.symm)
        rw [one]
        rfl
  cases stage with
  | attempt => exact general .trySize (block.measured .attempt) rfl
  | handler => exact general .catchSize (block.measured .handler) rfl
  | cleanup => exact general .finallySize (block.measured .cleanup) rfl

/-- A block with one span takes the marker of its end and no other. -/
theorem completes_single_iff {α : Type} {kind : OpenKind} {last : Marker} {start : Point}
    {size : Point → Except AssemblyFault α} {enter : α → Block} {own : List Pending} {block : Block}
    (ends : ∀ stop : Point, kind.advance last 0 (stop.bytes - start.bytes)
      (stop.records - start.records) = size stop >>= fun found => pure (.close (enter found)))
    (others : ∀ marker ≠ last, ∀ bytes records, ∃ fault,
      kind.advance marker 0 bytes records = .error fault) :
    Completes kind start own block ↔
      ∃ stop found, own = [⟨last, stop⟩] ∧ block = enter found ∧ size stop = .ok found := by
  constructor
  · intro completes
    rcases own with _ | ⟨⟨marker, stop⟩, own⟩
    · cases completes
    · by_cases same : marker = last
      · subst same
        rw [Completes, ends] at completes
        cases sized : size stop with
        | error fault =>
          rw [sized] at completes
          cases completes
        | ok found =>
          rw [sized] at completes
          obtain ⟨rfl, rfl⟩ := completes
          exact ⟨stop, found, rfl, rfl, sized⟩
      · obtain ⟨fault, failed⟩ := others marker same (stop.bytes - start.bytes)
          (stop.records - start.records)
        rw [Completes, failed] at completes
        cases completes
  · rintro ⟨stop, found, rfl, rfl, sized⟩
    rw [Completes, ends, sized]
    exact ⟨rfl, rfl⟩

theorem completes_scope_iff {start : Point} {own : List Pending} {block : Block} :
    Completes .scope start own block ↔
      ∃ (stop : Point) (size : UInt16), own = [⟨.endWith, stop⟩] ∧ block = .scope size ∧
        size.toNat = stop.bytes - start.bytes := by
  simp only [← @size16_ok_iff .scopeSize rfl]
  refine completes_single_iff (fun _ => rfl) fun marker other _ _ => ?_
  cases marker <;> first | exact absurd rfl other | exact ⟨_, rfl⟩

theorem completes_wait_iff {frame : Option UInt16} {start : Point} {own : List Pending}
    {block : Block} :
    Completes (.wait frame) start own block ↔
      ∃ (stop : Point) (skipCount : UInt8), own = [⟨.endWait, stop⟩] ∧
        block = .wait frame skipCount ∧ skipCount.toNat = stop.records - start.records := by
  simp only [← size8_ok_iff]
  refine completes_single_iff (fun _ => rfl) fun marker other _ _ => ?_
  cases marker <;> first | exact absurd rfl other | exact ⟨_, rfl⟩

/-- A marker other than the end of an exception block begins its next stage. -/
theorem OpenKind.advance_exception {marker : Marker} (other : marker ≠ .endTry) (stage : TryStage)
    (handlers : TryBlock) (index bytes records : Nat) :
    (OpenKind.exception stage handlers).advance marker index bytes records =
      match stage.next? marker with
      | some next => handlers.measure stage bytes >>= fun block =>
          pure (.stage (.exception next block))
      | none => throw (.mismatchedNesting marker .exception index) := by
  cases marker <;> first | exact absurd rfl other | rfl

/-- An exception block takes the marker of its end, or one that begins its next stage. -/
theorem completes_exception_iff {stage : TryStage} {handlers : TryBlock} {start : Point}
    {own : List Pending} {block : Block} :
    Completes (.exception stage handlers) start own block ↔
      ∃ (stop : Point) (size : UInt16), size.toNat = stop.bytes - start.bytes ∧
        (own = [⟨.endTry, stop⟩] ∧ block = .exception (handlers.measured stage size) ∨
          ∃ marker next later, stage.next? marker = some next ∧ own = ⟨marker, stop⟩ :: later ∧
            Completes (.exception next (handlers.measured stage size)) stop later block) := by
  constructor
  · intro completes
    rcases own with _ | ⟨⟨marker, stop⟩, own⟩
    · cases completes
    · by_cases last : marker = .endTry
      · subst last
        simp only [Completes, OpenKind.advance, bind, Except.bind, pure, Except.pure] at completes
        cases entered : handlers.measure stage (stop.bytes - start.bytes) with
        | error fault =>
          rw [entered] at completes
          cases completes
        | ok result =>
          rw [entered] at completes
          obtain ⟨rfl, rfl⟩ := completes
          obtain ⟨size, same, rfl⟩ := TryBlock.measure_ok_iff.mp entered
          exact ⟨stop, size, same, .inl ⟨rfl, rfl⟩⟩
      · simp only [Completes, OpenKind.advance_exception last] at completes
        cases begins : stage.next? marker with
        | none =>
          rw [begins] at completes
          cases completes
        | some next =>
          rw [begins] at completes
          simp only [bind, Except.bind, pure, Except.pure] at completes
          cases entered : handlers.measure stage (stop.bytes - start.bytes) with
          | error fault =>
            rw [entered] at completes
            cases completes
          | ok result =>
            rw [entered] at completes
            obtain ⟨size, same, rfl⟩ := TryBlock.measure_ok_iff.mp entered
            exact ⟨stop, size, same, .inr ⟨marker, next, own, begins, rfl, completes⟩⟩
  · rintro ⟨stop, size, same, entered⟩
    have measured : handlers.measure stage (stop.bytes - start.bytes) =
        .ok (handlers.measured stage size) := TryBlock.measure_ok_iff.mpr ⟨size, same, rfl⟩
    rcases entered with ⟨rfl, rfl⟩ | ⟨marker, next, later, begins, rfl, completes⟩
    · simp only [Completes, OpenKind.advance, bind, Except.bind, pure, Except.pure, measured,
        true_and]
    · have other : marker ≠ .endTry := by
        rintro rfl
        cases stage <;> cases begins
      simp only [Completes, OpenKind.advance_exception other, begins, bind, Except.bind, pure,
        Except.pure, measured]
      exact completes

/-! ### Spanned blocks are completed -/

/-- A block that has just opened takes the closings of its spans. -/
theorem completes_of_spanned {old new : Block} {start : Point} {own : List Pending}
    (same : old.unsized = new.unsized) (spanned : Spanned new start own) :
    Completes (.ofBlock old) start own new := by
  rcases old with other | ⟨other, count⟩ | ⟨flags, trySize, catchSize, finallySize, target⟩
  · cases spanned with
    | scope bytes =>
      refine completes_scope_iff.mpr ⟨_, _, rfl, rfl, ?_⟩
      omega
    | _ => cases same
  · cases spanned with
    | wait records =>
      cases same
      refine completes_wait_iff.mpr ⟨_, _, rfl, rfl, ?_⟩
      omega
    | _ => cases same
  · rcases new with _ | _ | ⟨flags', size, size', size'', target'⟩
    · cases same
    · cases same
    cases same
    cases spanned with
    | @attempt _ _ tryEnd attempt handler cleanup =>
      cases handler
      cases cleanup
      dsimp only at attempt
      exact completes_exception_iff.mpr ⟨tryEnd, size, by omega, .inl ⟨rfl, rfl⟩⟩
    | @handled _ _ tryEnd catchEnd attempt handler cleanup =>
      cases cleanup
      dsimp only at attempt handler
      refine completes_exception_iff.mpr ⟨tryEnd, size, by omega,
        .inr ⟨.catchStart, .handler, _, rfl, rfl, ?_⟩⟩
      exact completes_exception_iff.mpr ⟨catchEnd, size', by omega, .inl ⟨rfl, rfl⟩⟩
    | @cleaned _ _ tryEnd finallyEnd attempt handler cleanup =>
      cases handler
      dsimp only at attempt cleanup
      refine completes_exception_iff.mpr ⟨tryEnd, size, by omega,
        .inr ⟨.finallyStart, .cleanup, _, rfl, rfl, ?_⟩⟩
      exact completes_exception_iff.mpr ⟨finallyEnd, size'', by omega, .inl ⟨rfl, rfl⟩⟩
    | @full _ _ tryEnd catchEnd finallyEnd attempt handler cleanup =>
      dsimp only at attempt handler cleanup
      refine completes_exception_iff.mpr ⟨tryEnd, size, by omega,
        .inr ⟨.catchStart, .handler, _, rfl, rfl, ?_⟩⟩
      refine completes_exception_iff.mpr ⟨catchEnd, size', by omega,
        .inr ⟨.finallyStart, .cleanup, _, rfl, rfl, ?_⟩⟩
      exact completes_exception_iff.mpr ⟨finallyEnd, size'', by omega, .inl ⟨rfl, rfl⟩⟩

/-- **An open block takes the closings of the spans it ends up with.** -/
theorem spanned_of_completes {old new : Block} {start : Point} {own : List Pending}
    (due : Due start own) (completes : Completes (.ofBlock old) start own new) :
    old.unsized = new.unsized ∧ Spanned new start own := by
  rcases old with other | ⟨frame, count⟩ | handlers
  · obtain ⟨stop, size, rfl, rfl, same⟩ := completes_scope_iff.mp completes
    have le := due.1.bytes
    exact ⟨rfl, .scope (by dsimp only at le; omega)⟩
  · obtain ⟨stop, skipCount, rfl, rfl, same⟩ := completes_wait_iff.mp completes
    have le := due.1.records
    exact ⟨rfl, .wait (by dsimp only at le; omega)⟩
  · obtain ⟨tryEnd, size, same, ⟨rfl, rfl⟩ | ⟨marker, next, later, begins, rfl, afterTry⟩⟩ :=
      completes_exception_iff.mp completes
    · have le : start.bytes ≤ tryEnd.bytes := due.1.bytes
      refine ⟨rfl, .attempt ?_ rfl rfl⟩
      dsimp only [TryBlock.measured]
      omega
    · have le : start.bytes ≤ tryEnd.bytes := due.1.bytes
      obtain ⟨second, size', same', ⟨rfl, rfl⟩ | ⟨marker', next', later', begins', rfl, afterNext⟩⟩ :=
        completes_exception_iff.mp afterTry
      · have le' : tryEnd.bytes ≤ second.bytes := due.2.1.bytes
        cases marker <;> cases begins
        · refine ⟨rfl, .handled ?_ ?_ rfl⟩
          all_goals
            dsimp only [TryBlock.measured]
            omega
        · refine ⟨rfl, .cleaned ?_ rfl ?_⟩
          all_goals
            dsimp only [TryBlock.measured]
            omega
      · have le' : tryEnd.bytes ≤ second.bytes := due.2.1.bytes
        obtain ⟨third, size'', same'', ⟨rfl, rfl⟩ | ⟨marker'', _, _, begins'', _⟩⟩ :=
          completes_exception_iff.mp afterNext
        · have le'' : second.bytes ≤ third.bytes := due.2.2.1.bytes
          cases marker <;> cases begins
          · cases marker' <;> cases begins'
            refine ⟨rfl, .full ?_ ?_ ?_⟩
            all_goals
              dsimp only [TryBlock.measured]
              omega
          · cases marker' <;> cases begins'
        · cases marker <;> cases begins
          · cases marker' <;> cases begins'
            cases marker'' <;> cases begins''
          · cases marker' <;> cases begins'

/-! ### Scans -/

/-- Open blocks, innermost first, take the closings of a stack and end up as blocks. -/
def Completed : List OpenBlock → List Pending → List Block → Prop
  | [], stack, blocks => stack = [] ∧ blocks = []
  | innermost :: outer, stack, block :: blocks =>
    ∃ own later, stack = own ++ later ∧
      Completes innermost.kind innermost.start.point own block ∧ Completed outer later blocks
  | _ :: _, _, [] => False

/-- Enter blocks at the indices of open ones. -/
def enterBlocks (actions : List Action) : List OpenBlock → List Block → List Action
  | innermost :: outer, block :: blocks =>
    enterBlocks (actions.set innermost.index (.plain (.block block))) outer blocks
  | _, _ => actions

/-- Whether an advance succeeds does not depend on the index that a fault would name. -/
theorem OpenKind.advance_ok_iff {kind : OpenKind} {marker : Marker} {bytes records : Nat}
    {advance : Advance} (index : Nat) :
    kind.advance marker index bytes records = .ok advance ↔
      kind.advance marker 0 bytes records = .ok advance := by
  have faults : ∀ fault fault' : AssemblyFault,
      (Except.error fault : Except AssemblyFault Advance) = .ok advance ↔
        (Except.error fault' : Except AssemblyFault Advance) = .ok advance := by
    intro fault fault'
    constructor <;> intro success <;> cases success
  rcases kind with _ | frame | ⟨stage, handlers⟩
  · cases marker <;> first | rfl | exact faults _ _
  · cases marker <;> first | rfl | exact faults _ _
  · cases stage <;> cases marker <;> first | rfl | exact faults _ _

/-- The scan after an action that is no closing marker, and before which some blocks are open. -/
def BlockScan.past (scan : BlockScan) (action : Action) (openBlocks : List OpenBlock) : BlockScan :=
  ⟨scan.extent.advance action, scan.index + 1, openBlocks, scan.actions⟩

theorem BlockScan.step_of_flat (scan : BlockScan) {action : Action} (flat : action.Flat) :
    scan.step action = .ok (scan.past action scan.openBlocks) := by
  cases action with
  | plain instruction =>
    cases instruction with
    | block block => cases flat.block
    | _ => rfl
  | define signature body => rfl
  | marker marker =>
    cases marker with
    | label id => rfl
    | _ => cases flat.closing

theorem BlockScan.step_of_block (scan : BlockScan) (block : Block) :
    scan.step (.plain (.block block)) = .ok (scan.past (.plain (.block block))
      (⟨scan.index, .ofBlock block, scan.extent.advance (.plain (.block block))⟩ ::
        scan.openBlocks)) := rfl

theorem BlockScan.step_of_closing (scan : BlockScan) {marker : Marker}
    (closes : marker.closes = true) :
    scan.step (.marker marker) = scan.close (scan.extent.advance (.marker marker)) marker := by
  cases marker with
  | label id => cases closes
  | _ => rfl

/-- What a closing marker makes of a scan. -/
theorem BlockScan.close_ok {scan after : BlockScan} {marker : Marker}
    (success : scan.close (scan.extent.advance (.marker marker)) marker = .ok after) :
    ∃ innermost outer advance, scan.openBlocks = innermost :: outer ∧
      innermost.kind.advance marker 0 (scan.extent.bytes - innermost.start.bytes)
        (scan.extent.records - innermost.start.records) = .ok advance ∧
      after = match advance with
        | .stage kind => scan.past (.marker marker)
            ({ innermost with kind := kind, start := scan.extent.advance (.marker marker) } :: outer)
        | .close block =>
          { scan.past (.marker marker) outer with
            actions := scan.actions.setIfInBounds innermost.index (.plain (.block block)) } := by
  unfold BlockScan.close at success
  split at success
  · cases success
  · rename_i innermost outer isOpen
    refine ⟨innermost, outer, ?_⟩
    split at success
    · cases success
    · rename_i kind advanced
      cases success
      exact ⟨.stage kind, isOpen, (OpenKind.advance_ok_iff scan.index).mp advanced, rfl⟩
    · rename_i block advanced
      cases success
      exact ⟨.close block, isOpen, (OpenKind.advance_ok_iff scan.index).mp advanced, rfl⟩

theorem BlockScan.close_of_advance {scan : BlockScan} {marker : Marker} {innermost : OpenBlock}
    {outer : List OpenBlock} {advance : Advance} (isOpen : scan.openBlocks = innermost :: outer)
    (advanced : innermost.kind.advance marker 0 (scan.extent.bytes - innermost.start.bytes)
      (scan.extent.records - innermost.start.records) = .ok advance) :
    scan.close (scan.extent.advance (.marker marker)) marker = .ok (match advance with
      | .stage kind => scan.past (.marker marker)
          ({ innermost with kind := kind, start := scan.extent.advance (.marker marker) } :: outer)
      | .close block =>
        { scan.past (.marker marker) outer with
          actions := scan.actions.setIfInBounds innermost.index (.plain (.block block)) }) := by
  have advanced' := (OpenKind.advance_ok_iff scan.index).mpr advanced
  have there : (scan.extent.advance (.marker marker)).bytes = scan.extent.bytes ∧
      (scan.extent.advance (.marker marker)).records = scan.extent.records := ⟨rfl, rfl⟩
  unfold BlockScan.close
  rw [isOpen, there.1, there.2]
  dsimp only
  rw [advanced']
  cases advance <;> rfl

/-- A scan has come to the rest of its actions, and all open blocks are among those in front. -/
structure BlockScan.Before (scan : BlockScan) (front rest : List Action) : Prop where
  whole : scan.actions.toList = front ++ rest
  here : front.length = scan.index
  earlier : ∀ opened ∈ scan.openBlocks, opened.index < scan.index

/-- The index of an open block is in front. -/
theorem BlockScan.Before.past {scan : BlockScan} {front rest : List Action} {action : Action}
    (before : scan.Before front (action :: rest)) {openBlocks : List OpenBlock}
    (earlier : ∀ opened ∈ openBlocks, opened.index < scan.index + 1) :
    (scan.past action openBlocks).Before (front ++ [action]) rest where
  whole := by
    rw [List.append_assoc]
    exact before.whole
  here := by
    rw [List.length_append, before.here]
    rfl
  earlier := earlier

theorem BlockScan.Before.flat {scan : BlockScan} {front rest : List Action} {action : Action}
    (before : scan.Before front (action :: rest)) :
    (scan.past action scan.openBlocks).Before (front ++ [action]) rest :=
  before.past fun opened inside => Nat.lt_succ_of_lt (before.earlier opened inside)

theorem BlockScan.Before.opened {scan : BlockScan} {front rest : List Action} {action : Action}
    (before : scan.Before front (action :: rest)) (kind : OpenKind) (start : Extent) :
    (scan.past action (⟨scan.index, kind, start⟩ :: scan.openBlocks)).Before (front ++ [action])
      rest := by
  refine before.past fun opened inside => ?_
  rcases List.mem_cons.mp inside with rfl | inside
  · exact Nat.lt_succ_self _
  · exact Nat.lt_succ_of_lt (before.earlier opened inside)

theorem BlockScan.Before.staged {scan : BlockScan} {front rest : List Action} {action : Action}
    {innermost : OpenBlock} {outer : List OpenBlock} (before : scan.Before front (action :: rest))
    (isOpen : scan.openBlocks = innermost :: outer) (kind : OpenKind) (start : Extent) :
    (scan.past action ({ innermost with kind := kind, start := start } :: outer)).Before
      (front ++ [action]) rest := by
  refine before.past fun opened inside => Nat.lt_succ_of_lt ?_
  rcases List.mem_cons.mp inside with rfl | inside
  · exact before.earlier innermost (by rw [isOpen]; exact List.mem_cons_self)
  · exact before.earlier opened (by rw [isOpen]; exact List.mem_cons_of_mem _ inside)

theorem BlockScan.Before.closed {scan : BlockScan} {front rest : List Action} {action : Action}
    {innermost : OpenBlock} {outer : List OpenBlock} (before : scan.Before front (action :: rest))
    (isOpen : scan.openBlocks = innermost :: outer) (block : Block) :
    BlockScan.Before { scan.past action outer with
      actions := scan.actions.setIfInBounds innermost.index (.plain (.block block)) }
      (front.set innermost.index (.plain (.block block)) ++ [action]) rest where
  whole := by
    have inside := before.earlier innermost (by rw [isOpen]; exact List.mem_cons_self)
    rw [← before.here] at inside
    rw [Array.toList_setIfInBounds, before.whole, List.set_append_left _ _ inside,
      List.append_assoc]
    rfl
  here := by
    rw [List.length_append, List.length_set, before.here]
    rfl
  earlier := by
    intro opened inside
    refine Nat.lt_succ_of_lt (before.earlier opened ?_)
    rw [isOpen]
    exact List.mem_cons_of_mem _ inside

theorem BlockScan.Before.innermost {scan : BlockScan} {front rest : List Action}
    {innermost : OpenBlock} {outer : List OpenBlock} (before : scan.Before front rest)
    (isOpen : scan.openBlocks = innermost :: outer) : innermost.index < front.length := by
  rw [before.here]
  exact before.earlier innermost (by rw [isOpen]; exact List.mem_cons_self)

/-! ### What a scan ends with -/

/-- The closings of all blocks come in the rest of a scan, and with their sizes the actions are the
result. -/
def BlockScan.Ends (scan : BlockScan) (front rest result : List Action) : Prop :=
  ∃ sized stack blocks, Closes scan.extent.point (scan.extent.pieces rest) sized stack ∧
    Completed scan.openBlocks stack blocks ∧
    result = enterBlocks (front ++ sized) scan.openBlocks blocks

/-- A block that has just opened is the last action in front. -/
theorem enterBlocks_opened {front : List Action} {opened : OpenBlock}
    (here : front.length = opened.index) (old : Action) (new : Block) (sized : List Action)
    (outer : List OpenBlock) (blocks : List Block) :
    enterBlocks (front ++ [old] ++ sized) (opened :: outer) (new :: blocks) =
      enterBlocks (front ++ .plain (.block new) :: sized) outer blocks := by
  rw [enterBlocks, ← here, List.append_assoc, List.set_append_right _ _ (Nat.le_refl _),
    Nat.sub_self]
  rfl

theorem enterBlocks_front {front : List Action} {innermost : OpenBlock}
    (inside : innermost.index < front.length) (rest : List Action) (outer : List OpenBlock)
    (block : Block) (blocks : List Block) :
    enterBlocks (front ++ rest) (innermost :: outer) (block :: blocks) =
      enterBlocks (front.set innermost.index (.plain (.block block)) ++ rest) outer blocks := by
  rw [enterBlocks, List.set_append_left _ _ inside]

theorem Completed.cons {innermost : OpenBlock} {outer : List OpenBlock} {stack : List Pending}
    {blocks : List Block} (completed : Completed (innermost :: outer) stack blocks) :
    ∃ next own later block others, stack = next :: own ++ later ∧ blocks = block :: others ∧
      Completes innermost.kind innermost.start.point (next :: own) block ∧
      Completed outer later others := by
  rcases blocks with _ | ⟨block, others⟩
  · cases completed
  · obtain ⟨_ | ⟨next, own⟩, later, rfl, completes, completed⟩ := completed
    · cases completes
    · exact ⟨next, own, later, block, others, rfl, rfl, completes, completed⟩

section

variable {scan : BlockScan} {front rest result : List Action}

theorem BlockScan.ends_nil_iff (before : scan.Before front []) :
    scan.Ends front [] result ↔ scan.openBlocks = [] ∧ scan.actions.toList = result := by
  rw [before.whole]
  constructor
  · rintro ⟨sized, stack, blocks, closes, completed, rfl⟩
    cases closes
    cases isOpen : scan.openBlocks with
    | nil =>
      refine ⟨rfl, ?_⟩
      cases blocks <;> rfl
    | cons innermost outer =>
      rw [isOpen] at completed
      obtain ⟨_, _, _, _, _, ⟨⟩, _⟩ := completed.cons
  · rintro ⟨closed, rfl⟩
    refine ⟨[], [], [], .nil _, ?_, ?_⟩
    all_goals rw [closed]
    · exact ⟨rfl, rfl⟩
    · rfl

/-- A block opens. -/
theorem BlockScan.ends_block_iff {block : Block}
    (before : scan.Before front (.plain (.block block) :: rest)) :
    scan.Ends front (.plain (.block block) :: rest) result ↔
      (scan.past (.plain (.block block))
        (⟨scan.index, .ofBlock block, scan.extent.advance (.plain (.block block))⟩ ::
          scan.openBlocks)).Ends (front ++ [.plain (.block block)]) rest result := by
  constructor
  · rintro ⟨_, stack, blocks, closes, completed, rfl⟩
    obtain ⟨new, sized, own, rfl, same, spanned, later⟩ := closes.cons_block rfl
    rw [Extent.after_piece] at spanned later
    exact ⟨sized, own ++ stack, new :: blocks, later,
      ⟨own, stack, rfl, completes_of_spanned same spanned, completed⟩,
      (enterBlocks_opened before.here _ new sized scan.openBlocks blocks).symm⟩
  · rintro ⟨sized, _, _, closes, completed, rfl⟩
    obtain ⟨next, own, later, new, blocks, rfl, rfl, completes, completed⟩ := completed.cons
    obtain ⟨same, spanned⟩ := spanned_of_completes closes.sorted.append_left completes
    refine ⟨.plain (.block new) :: sized, later, blocks, ?_, completed,
      enterBlocks_opened before.here _ new sized scan.openBlocks blocks⟩
    change Spanned new (scan.extent.advance (.plain (.block block))).point _ at spanned
    change Closes (scan.extent.advance (.plain (.block block))).point _ _ _ at closes
    rw [← scan.extent.after_piece] at spanned closes
    exact .opening rfl same spanned closes

theorem BlockScan.ends_closing_iff {marker : Marker} (isClosing : marker.closes = true) :
    scan.Ends front (.marker marker :: rest) result ↔
      ∃ sized stack blocks,
        Closes scan.extent.point ((scan.extent.advance (.marker marker)).pieces rest) sized stack ∧
        Completed scan.openBlocks (⟨marker, scan.extent.point⟩ :: stack) blocks ∧
        result = enterBlocks (front ++ [.marker marker] ++ sized) scan.openBlocks blocks := by
  rw [Ends, Extent.pieces, Extent.piece_marker]
  constructor
  · rintro ⟨_, _, blocks, closes, completed, rfl⟩
    obtain ⟨sized, stack, rfl, rfl, later⟩ := closes.cons_closing isClosing
    exact ⟨sized, stack, blocks, later, completed, by rw [List.append_assoc]; rfl⟩
  · rintro ⟨sized, stack, blocks, later, completed, rfl⟩
    exact ⟨_, _, blocks, .closing isClosing later, completed, by rw [List.append_assoc]; rfl⟩

/-- The span of the innermost block ends, and its next one begins. -/
theorem BlockScan.ends_stage_iff {marker : Marker} (isClosing : marker.closes = true)
    {innermost : OpenBlock} {outer : List OpenBlock} {kind : OpenKind}
    (isOpen : scan.openBlocks = innermost :: outer)
    (advanced : innermost.kind.advance marker 0 (scan.extent.bytes - innermost.start.bytes)
      (scan.extent.records - innermost.start.records) = .ok (.stage kind)) :
    scan.Ends front (.marker marker :: rest) result ↔
      (scan.past (.marker marker)
        ({ innermost with kind := kind, start := scan.extent.advance (.marker marker) } ::
          outer)).Ends (front ++ [.marker marker]) rest result := by
  rw [ends_closing_iff isClosing, isOpen]
  constructor
  · rintro ⟨sized, _, _, closes, completed, rfl⟩
    obtain ⟨_, own, others, block, blocks, ⟨⟩, rfl, completes, further⟩ := completed.cons
    have goesOn := (completes_stage_iff advanced).mp completes
    exact ⟨sized, _, block :: blocks, closes, ⟨own, others, rfl, goesOn, further⟩, rfl⟩
  · rintro ⟨sized, _, _, closes, completed, rfl⟩
    obtain ⟨next, own, later, block, blocks, rfl, rfl, completes, completed⟩ := completed.cons
    refine ⟨sized, _, block :: blocks, closes, ⟨_ :: next :: own, later, rfl, ?_, completed⟩, rfl⟩
    exact (completes_stage_iff advanced).mpr completes

/-- The innermost block is closed. -/
theorem BlockScan.ends_close_iff {marker : Marker} (isClosing : marker.closes = true)
    (before : scan.Before front (.marker marker :: rest)) {innermost : OpenBlock}
    {outer : List OpenBlock} {block : Block} (isOpen : scan.openBlocks = innermost :: outer)
    (advanced : innermost.kind.advance marker 0 (scan.extent.bytes - innermost.start.bytes)
      (scan.extent.records - innermost.start.records) = .ok (.close block)) :
    scan.Ends front (.marker marker :: rest) result ↔
      BlockScan.Ends { scan.past (.marker marker) outer with
        actions := scan.actions.setIfInBounds innermost.index (.plain (.block block)) }
        (front.set innermost.index (.plain (.block block)) ++ [.marker marker]) rest result := by
  have entered := enterBlocks_front (before.innermost isOpen)
  rw [ends_closing_iff isClosing, isOpen]
  constructor
  · rintro ⟨sized, _, _, closes, completed, rfl⟩
    obtain ⟨_, own, others, block, blocks, ⟨⟩, rfl, completes, further⟩ := completed.cons
    obtain ⟨rfl, rfl⟩ := (completes_close_iff advanced).mp completes
    refine ⟨sized, _, blocks, closes, further, ?_⟩
    rw [List.append_assoc, entered, ← List.append_assoc]
    rfl
  · rintro ⟨sized, stack, blocks, closes, completed, rfl⟩
    refine ⟨sized, stack, block :: blocks, closes, ⟨[_], stack, rfl, ?_, completed⟩, ?_⟩
    · exact (completes_close_iff advanced).mpr ⟨rfl, rfl⟩
    · rw [List.append_assoc, List.append_assoc, entered]
      rfl

/-- An action that neither opens nor closes a block. -/
theorem BlockScan.ends_flat_iff {action : Action} (flat : action.Flat) :
    scan.Ends front (action :: rest) result ↔
      (scan.past action scan.openBlocks).Ends (front ++ [action]) rest result := by
  constructor
  · rintro ⟨_, stack, blocks, closes, completed, rfl⟩
    obtain ⟨sized, rfl, later⟩ := closes.cons_flat flat
    rw [Extent.after_piece] at later
    refine ⟨sized, stack, blocks, later, completed, ?_⟩
    rw [List.append_assoc]
    rfl
  · rintro ⟨sized, stack, blocks, closes, completed, rfl⟩
    refine ⟨action :: sized, stack, blocks, ?_, completed, ?_⟩
    · change Closes (scan.extent.advance action).point _ _ _ at closes
      rw [← scan.extent.after_piece action] at closes
      exact .flat flat closes
    · rw [List.append_assoc]
      rfl

/-- **What a scan ends with is decided step by step.** -/
theorem BlockScan.Before.step {after : BlockScan} {action : Action}
    (before : scan.Before front (action :: rest)) (stepped : scan.step action = .ok after) :
    ∃ front', after.Before front' rest ∧
      (scan.Ends front (action :: rest) result ↔ after.Ends front' rest result) := by
  rcases action.opening_closing_or_flat with ⟨block, rfl⟩ | ⟨marker, rfl, isClosing⟩ | flat
  · rw [scan.step_of_block] at stepped
    cases stepped
    exact ⟨_, before.opened _ _, ends_block_iff before⟩
  · rw [scan.step_of_closing isClosing] at stepped
    obtain ⟨innermost, outer, advance, isOpen, advanced, rfl⟩ := scan.close_ok stepped
    cases advance with
    | stage kind => exact ⟨_, before.staged isOpen kind _, ends_stage_iff isClosing isOpen advanced⟩
    | close block =>
      exact ⟨_, before.closed isOpen block, ends_close_iff isClosing before isOpen advanced⟩
  · rw [scan.step_of_flat flat] at stepped
    cases stepped
    exact ⟨_, before.flat, ends_flat_iff flat⟩

/-- A scan goes on while the closings of all blocks are to come. -/
theorem BlockScan.Ends.exists_step {action : Action}
    (ends : scan.Ends front (action :: rest) result) : ∃ after, scan.step action = .ok after := by
  rcases action.opening_closing_or_flat with ⟨block, rfl⟩ | ⟨marker, rfl, isClosing⟩ | flat
  · exact ⟨_, scan.step_of_block block⟩
  · obtain ⟨_, _, blocks, closes, completed, _⟩ := ends
    rw [Extent.pieces, Extent.piece_marker] at closes
    obtain ⟨_, _, _, rfl, _⟩ := closes.cons_closing isClosing
    rw [scan.step_of_closing isClosing]
    cases isOpen : scan.openBlocks with
    | nil =>
      rw [isOpen] at completed
      cases blocks <;> cases completed.1
    | cons innermost outer =>
      rw [isOpen] at completed
      obtain ⟨_, _, _, _, _, ⟨⟩, _, completes, _⟩ := completed.cons
      obtain ⟨advanced, _⟩ | ⟨_, advanced, _⟩ := completes.cases_cons
      all_goals exact ⟨_, scan.close_of_advance isOpen advanced⟩
  · exact ⟨_, scan.step_of_flat flat⟩

/-- **A scan is run to its end with no open block exactly if the closings of all blocks come**, and
it has entered the sizes that they should have. -/
theorem BlockScan.Before.run_iff (before : scan.Before front rest) :
    (∃ final, scan.run rest = .ok final ∧ final.openBlocks = [] ∧ final.actions.toList = result) ↔
      scan.Ends front rest result := by
  induction rest generalizing scan front with
  | nil =>
    rw [ends_nil_iff before]
    constructor
    · rintro ⟨_, ⟨⟩, ended⟩
      exact ended
    · exact fun ended => ⟨scan, rfl, ended⟩
  | cons action rest ih =>
    rw [run]
    cases stepped : scan.step action with
    | error fault =>
      constructor
      · rintro ⟨_, ⟨⟩, _⟩
      · intro ends
        obtain ⟨after, success⟩ := ends.exists_step
        rw [success] at stepped
        cases stepped
    | ok after =>
      obtain ⟨front', before', same⟩ := before.step stepped
      exact (ih before').trans same.symm

end

/-- **A sequence is measured exactly if its pieces close all blocks they open**, and the result has
the sizes that they should have. -/
theorem measureOwnBlocks_ok_iff {actions sized : List Action} :
    measureOwnBlocks actions = .ok sized ↔
      Closes ⟨0, 0⟩ (Extent.start.pieces actions) sized [] := by
  have before : BlockScan.Before ⟨Extent.start, 0, [], actions.toArray⟩ [] actions :=
    ⟨rfl, rfl, fun opened inside => by cases inside⟩
  have whole : BlockScan.Ends ⟨Extent.start, 0, [], actions.toArray⟩ [] actions sized ↔
      Closes ⟨0, 0⟩ (Extent.start.pieces actions) sized [] := by
    constructor
    · rintro ⟨sized, stack, blocks, closes, ⟨rfl, rfl⟩, rfl⟩
      exact closes
    · exact fun closes => ⟨sized, [], [], closes, ⟨rfl, rfl⟩, rfl⟩
  rw [← whole, ← before.run_iff, measureOwnBlocks]
  cases BlockScan.run ⟨Extent.start, 0, [], actions.toArray⟩ actions with
  | error fault => exact ⟨nofun, nofun⟩
  | ok final =>
    dsimp only
    cases isOpen : final.openBlocks with
    | nil =>
      constructor
      · rintro ⟨⟩
        exact ⟨final, rfl, isOpen, rfl⟩
      · rintro ⟨_, ⟨⟩, _, rfl⟩
        rfl
    | cons innermost outer =>
      constructor
      · nofun
      · rintro ⟨_, ⟨⟩, closed, _⟩
        rw [isOpen] at closed
        cases closed

end ActionCode
