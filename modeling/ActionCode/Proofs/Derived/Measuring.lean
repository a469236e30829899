/-
**Measuring ignores the sizes that there were.**

* `Agree`: two checked runs have the same fault, or related results.
* `BlockScan.Alike`: two scans with the same blocks open, whatever their sizes and flags.
  **`BlockScan.Alike.run`**: they stay alike, or have the same fault.
* **`assemble_essence`**: a sequence is assembled as its essence, with the same bytes or the same
  fault.
-/

import ActionCode.Proofs.Derived.Passes

namespace ActionCode

/-! ### Runs that agree -/

/-- Two checked runs have the same fault, or related results. -/
inductive Agree {ε α : Type} (related : α → α → Prop) : Except ε α → Except ε α → Prop
  | fault (fault : ε) : Agree related (.error fault) (.error fault)
  | result {one other : α} (same : related one other) : Agree related (.ok one) (.ok other)

theorem Agree.refl {ε α : Type} {related : α → α → Prop} (self : ∀ value, related value value)
    (outcome : Except ε α) : Agree related outcome outcome := by
  cases outcome with
  | error fault => exact .fault fault
  | ok value => exact .result (self value)

theorem Agree.bind {ε α β : Type} {related : α → α → Prop} {related' : β → β → Prop}
    {first second : Except ε α} (agree : Agree related first second) {next next' : α → Except ε β}
    (later : ∀ one other, related one other → Agree related' (next one) (next' other)) :
    Agree related' (first >>= next) (second >>= next') := by
  cases agree with
  | fault fault => exact .fault fault
  | result same => exact later _ _ same

/-! ### Open blocks -/

/-- An exception block without sizes, and without the flag that follows from its target. -/
def TryBlock.outline (block : TryBlock) : TryBlock :=
  { block.trimmed with trySize := 0, catchSize := 0, finallySize := 0 }

/-- An open block without the sizes measured so far. -/
def OpenKind.outline : OpenKind → OpenKind
  | .exception stage block => .exception stage block.outline
  | kind => kind

/-- What a closing marker makes of a block, without sizes. -/
def Advance.outline : Advance → Option OpenKind
  | .stage kind => some kind.outline
  | .close _ => none

def OpenBlock.outline (opened : OpenBlock) : OpenBlock := { opened with kind := opened.kind.outline }

theorem TryBlock.measure_agree {block other : TryBlock} (same : block.outline = other.outline)
    (stage : TryStage) (size : Nat) :
    Agree (fun one two => one.outline = two.outline) (block.measure stage size)
      (other.measure stage size) := by
  have flags : block.trimmed.flags = other.trimmed.flags := (TryBlock.mk.inj same).1
  have target : block.target = other.target := (TryBlock.mk.inj same).2.2.2.2
  have entered : ∀ {α : Type} (checked : Except AssemblyFault α) (enter enter' : α → TryBlock),
      (∀ value, (enter value).outline = (enter' value).outline) →
      Agree (fun one two => one.outline = two.outline)
        (checked >>= fun value => pure (enter value))
        (checked >>= fun value => pure (enter' value)) := by
    intro α checked enter enter' equal
    have self : Agree (fun one two => one = two) checked checked := .refl (fun _ => rfl) checked
    refine self.bind ?_
    rintro value _ rfl
    exact .result (equal value)
  cases stage with
  | attempt => exact entered _ _ _ fun _ => congrArg₂ (TryBlock.mk · 0 0 0 ·) flags target
  | handler => exact entered _ _ _ fun _ => congrArg₂ (TryBlock.mk · 0 0 0 ·) flags target
  | cleanup => exact entered _ _ _ fun _ => congrArg₂ (TryBlock.mk · 0 0 0 ·) flags target

/-- **A closing marker makes the same of blocks that differ in sizes and derived flags.** -/
theorem OpenKind.advance_agree {kind other : OpenKind} (same : kind.outline = other.outline)
    (marker : Marker) (index bytes records : Nat) :
    Agree (fun one two => one.outline = two.outline) (kind.advance marker index bytes records)
      (other.advance marker index bytes records) := by
  cases kind with
  | scope =>
    cases other with
    | scope => exact Agree.refl (fun _ => by rfl) _
    | wait _ => cases same
    | exception _ _ => cases same
  | wait frame =>
    cases other with
    | scope => cases same
    | wait _ =>
      cases same
      exact Agree.refl (fun _ => by rfl) _
    | exception _ _ => cases same
  | exception stage block =>
    cases other with
    | scope => cases same
    | wait _ => cases same
    | exception stage' block' =>
      obtain ⟨rfl, outline⟩ := OpenKind.exception.inj same
      have closed : Agree (fun one two : Advance => one.outline = two.outline)
          (block.measure stage bytes >>= fun block => pure (.close (.exception block)))
          (block'.measure stage bytes >>= fun block => pure (.close (.exception block))) :=
        (TryBlock.measure_agree outline stage bytes).bind fun _ _ _ => .result rfl
      have staged : ∀ next, Agree (fun one two : Advance => one.outline = two.outline)
          (block.measure stage bytes >>= fun block => pure (.stage (.exception next block)))
          (block'.measure stage bytes >>= fun block => pure (.stage (.exception next block))) :=
        fun next => (TryBlock.measure_agree outline stage bytes).bind fun one two same =>
          .result (congrArg (fun block => some (OpenKind.exception next block)) same)
      by_cases isEnd : marker = .endTry
      · subst isEnd
        exact closed
      · rw [OpenKind.advance_exception isEnd, OpenKind.advance_exception isEnd]
        cases stage.next? marker with
        | none => exact .fault _
        | some next => exact staged next

/-! ### Scans -/

/-- Two scans have come equally far, and have the same blocks open, up to sizes and derived flags. -/
structure BlockScan.Alike (scan other : BlockScan) : Prop where
  extent : scan.extent = other.extent
  index : scan.index = other.index
  openBlocks : scan.openBlocks.map OpenBlock.outline = other.openBlocks.map OpenBlock.outline

namespace BlockScan.Alike

variable {scan other : BlockScan} {after : Instruction → Instruction}

/-- What a closing marker makes of scans that are alike. -/
theorem close (alike : scan.Alike other) (extent : Extent) (marker : Marker) :
    Agree Alike (scan.close extent marker) (other.close extent marker) := by
  have blocks := alike.openBlocks
  unfold BlockScan.close
  cases mine : scan.openBlocks with
  | nil =>
    rw [mine] at blocks
    have theirs : other.openBlocks = [] := List.map_eq_nil_iff.mp blocks.symm
    rw [theirs, alike.index]
    exact .fault _
  | cons innermost outer =>
    rw [mine] at blocks
    cases theirs : other.openBlocks with
    | nil =>
      rw [theirs] at blocks
      cases blocks
    | cons innermost' outer' =>
      rw [theirs] at blocks
      obtain ⟨same, outers⟩ := List.cons.inj blocks
      have index : innermost.index = innermost'.index := (OpenBlock.mk.inj same).1
      have kind : innermost.kind.outline = innermost'.kind.outline := (OpenBlock.mk.inj same).2.1
      have start : innermost.start = innermost'.start := (OpenBlock.mk.inj same).2.2
      have advanced := OpenKind.advance_agree kind marker scan.index
        (extent.bytes - innermost.start.bytes) (extent.records - innermost.start.records)
      dsimp only
      rw [← alike.index, ← start]
      generalize innermost.kind.advance marker scan.index (extent.bytes - innermost.start.bytes)
        (extent.records - innermost.start.records) = one at advanced ⊢
      generalize innermost'.kind.advance marker scan.index (extent.bytes - innermost.start.bytes)
        (extent.records - innermost.start.records) = two at advanced ⊢
      cases advanced with
      | fault fault => exact .fault fault
      | @result one two equal =>
        cases one with
        | stage next =>
          cases two with
          | stage next' =>
            refine .result ⟨rfl, rfl, ?_⟩
            have nexts : next.outline = next'.outline := Option.some.inj equal
            show OpenBlock.outline _ :: _ = OpenBlock.outline _ :: _
            rw [outers, OpenBlock.outline, OpenBlock.outline]
            exact congrArg (· :: _) (by rw [index, nexts])
          | close _ => cases equal
        | close block =>
          cases two with
          | stage _ => cases equal
          | close block' => exact .result ⟨rfl, rfl, outers⟩

/-- **One more action keeps scans alike, or fails for both with the same fault.** -/
theorem step (keeps : Keeps after) (alike : scan.Alike other) (action : Action) :
    Agree Alike (scan.step (action.transfer Instruction.measurable after))
      (other.step action) := by
  have extent : scan.extent.advance (action.transfer Instruction.measurable after) =
      other.extent.advance action := by
    rw [alike.extent]
    exact advance_transfer keeps_measurable keeps _ action
  have index : scan.index + 1 = other.index + 1 := congrArg (· + 1) alike.index
  cases action with
  | plain instruction =>
    cases instruction with
    | block opened =>
      refine .result ⟨extent, index, ?_⟩
      have kind : (OpenKind.ofBlock opened.unsized.trimmed).outline =
          (OpenKind.ofBlock opened).outline := by
        cases opened with
        | scope _ => rfl
        | wait _ _ => rfl
        | exception handlers =>
          have twice : ∀ bits : BitVec 8, bits &&& ~~~4 &&& ~~~4 = bits &&& ~~~4 := by decide
          have flags : handlers.trimmed.trimmed.flags = handlers.trimmed.flags :=
            UInt8.toBitVec_inj.mp (twice handlers.flags.toBitVec)
          exact congrArg (fun flags => OpenKind.exception .attempt
            ⟨flags, 0, 0, 0, handlers.target⟩) flags
      show OpenBlock.outline _ :: _ = OpenBlock.outline _ :: _
      rw [alike.openBlocks]
      refine congrArg (· :: _) ?_
      rw [OpenBlock.outline, OpenBlock.outline]
      exact congr (congrArg₂ OpenBlock.mk alike.index kind) extent
    | _ => exact .result ⟨extent, index, alike.openBlocks⟩
  | define signature body => exact .result ⟨extent, index, alike.openBlocks⟩
  | marker found =>
    cases closes : found.closes with
    | true =>
      have marker : (Action.marker found).transfer Instruction.measurable after =
        .marker found := rfl
      rw [marker] at extent ⊢
      rw [BlockScan.step_of_closing _ closes, BlockScan.step_of_closing _ closes, extent]
      exact alike.close _ found
    | false =>
      cases found with
      | label _ => exact .result ⟨extent, index, alike.openBlocks⟩
      | _ => cases closes

/-- **Scans that are alike stay alike, or fail with the same fault.** -/
theorem run (keeps : Keeps after) (alike : scan.Alike other) (actions : List Action) :
    Agree Alike (scan.run (actions.map (Action.transfer Instruction.measurable after)))
      (other.run actions) := by
  induction actions generalizing scan other with
  | nil => exact .result alike
  | cons action rest ih =>
    have first := alike.step keeps action
    rw [List.map_cons, BlockScan.run, BlockScan.run]
    generalize scan.step (action.transfer Instruction.measurable after) = one at first ⊢
    generalize other.step action = two at first ⊢
    cases first with
    | fault fault => exact .fault fault
    | result same => exact ih same

end BlockScan.Alike

/-! ### Sequences -/

/-- A sequence is measured exactly if its essence is, and otherwise the fault is the same. -/
theorem measureOwnBlocks_agree {after : Instruction → Instruction} (keeps : Keeps after)
    (actions : List Action) :
    Agree (fun _ _ => True)
      (measureOwnBlocks (actions.map (Action.transfer Instruction.measurable after)))
      (measureOwnBlocks actions) := by
  have start : BlockScan.Alike
      ⟨Extent.start, 0, [], (actions.map (Action.transfer Instruction.measurable after)).toArray⟩
      ⟨Extent.start, 0, [], actions.toArray⟩ := ⟨rfl, rfl, rfl⟩
  have ran := start.run keeps actions
  unfold measureOwnBlocks
  generalize BlockScan.run _ (actions.map _) = one at ran ⊢
  generalize BlockScan.run _ actions = two at ran ⊢
  cases ran with
  | fault fault => exact .fault fault
  | @result scan other alike =>
    have blocks := alike.openBlocks
    dsimp only
    cases mine : scan.openBlocks with
    | nil =>
      rw [mine] at blocks
      rw [List.map_eq_nil_iff.mp blocks.symm]
      exact .result trivial
    | cons innermost outer =>
      cases theirs : other.openBlocks with
      | nil =>
        rw [mine, theirs] at blocks
        cases blocks
      | cons innermost' outer' =>
        rw [mine, theirs] at blocks
        have same := (List.cons.inj blocks).1
        have index : innermost.index = innermost'.index := (OpenBlock.mk.inj same).1
        have kind : innermost.kind.outline.blockKind = innermost'.kind.outline.blockKind :=
          congrArg OpenKind.blockKind (OpenBlock.mk.inj same).2.1
        have outlined : ∀ kind : OpenKind, kind.outline.blockKind = kind.blockKind := by
          intro kind
          cases kind <;> rfl
        rw [outlined, outlined] at kind
        dsimp only
        rw [index, kind]
        exact .fault _

theorem Spanned.trimmed {block : Block} {start : Point} {own : List Pending}
    (spanned : Spanned block start own) : Spanned block.trimmed start own := by
  cases spanned with
  | scope bytes => exact .scope bytes
  | wait records => exact .wait records
  | attempt attempt handler cleanup => exact .attempt attempt handler cleanup
  | handled attempt handler cleanup => exact .handled attempt handler cleanup
  | cleaned attempt handler cleanup => exact .cleaned attempt handler cleanup
  | full attempt handler cleanup => exact .full attempt handler cleanup

theorem Block.unsized_trimmed (block : Block) : block.trimmed.unsized = block.unsized.trimmed := by
  cases block <;> rfl

theorem Block.unsized_unsized (block : Block) : block.unsized.unsized = block.unsized := by
  cases block <;> rfl

/-- What opens no block is measured as it is, trimmed. -/
theorem Action.transfer_of_flat {action : Action} (flat : action.Flat) :
    action.transfer Instruction.measurable Instruction.trimmed =
        action.recast Instruction.trimmed ∧
      (action.recast Instruction.trimmed).Flat := by
  cases action with
  | plain instruction =>
    rw [Action.recast]
    cases instruction with
    | block opened => cases flat.block
    | _ => exact ⟨rfl, rfl, rfl⟩
  | define signature body =>
    rw [Action.recast]
    exact ⟨rfl, rfl, rfl⟩
  | marker found =>
    rw [Action.recast]
    exact ⟨rfl, flat⟩

/-- Closings ask for the same sizes, whatever sizes and derived flags there were. -/
theorem Closes.transfer {point : Point} {pieces : List Piece} {sized : List Action}
    {stack : List Pending} (closes : Closes point pieces sized stack) :
    Closes point (pieces.map (Piece.withAction
        (Action.transfer Instruction.measurable Instruction.trimmed)))
      (recastAll Instruction.trimmed sized) stack := by
  rw [recastAll_eq_map]
  induction closes with
  | nil point => exact .nil point
  | @flat point piece rest sized stack flat _ ih =>
    obtain ⟨same, flat'⟩ := Action.transfer_of_flat flat
    rw [← same] at flat'
    rw [List.map_cons, List.map_cons, ← same]
    exact @Closes.flat point (piece.withAction
      (Action.transfer Instruction.measurable Instruction.trimmed)) _ _ _ flat' ih
  | @opening point piece old new rest sized own stack opens same spanned _ ih =>
    rw [List.map_cons, List.map_cons, Action.recast]
    refine @Closes.opening point (piece.withAction
      (Action.transfer Instruction.measurable Instruction.trimmed)) old.unsized.trimmed _ _ _ _ _
      ?_ ?_ spanned.trimmed ih
    · rw [Piece.withAction, opens]
      rfl
    · rw [Block.unsized_trimmed, Block.unsized_unsized, same, ← Block.unsized_trimmed]
  | closing closes _ ih =>
    rw [List.map_cons, List.map_cons, Action.recast]
    exact .closing closes ih

theorem Extent.pieces_transfer {before after : Instruction → Instruction} (keeps : Keeps before)
    (keeps' : Keeps after) (extent : Extent) (actions : List Action) :
    extent.pieces (actions.map (Action.transfer before after)) =
      (extent.pieces actions).map (Piece.withAction (Action.transfer before after)) := by
  induction actions generalizing extent with
  | nil => rfl
  | cons action rest ih =>
    rw [List.map_cons, Extent.pieces, Extent.pieces, List.map_cons,
      advance_transfer keeps keeps', ih, Extent.piece, advance_transfer keeps keeps']
    rfl

/-- Measuring takes what it works on to what is written. -/
theorem transfers_measureOwnBlocks :
    Transfers measureOwnBlocks Instruction.measurable Instruction.trimmed := by
  intro actions
  have agree := measureOwnBlocks_agree keeps_trimmed actions
  cases measured : measureOwnBlocks actions with
  | error fault =>
    rw [measured] at agree
    generalize measureOwnBlocks (actions.map _) = outcome at agree ⊢
    cases agree
    rfl
  | ok sized =>
    refine measureOwnBlocks_ok_iff.mpr ?_
    rw [Extent.pieces_transfer keeps_measurable keeps_trimmed]
    exact (measureOwnBlocks_ok_iff.mp measured).transfer

/-! ### Assembly -/

/-- **A sequence is resolved as its essence**, up to what is never written. -/
theorem resolve_essence (settings : AssemblySettings) (actions : List Action) :
    resolve settings (recastAll Instruction.essence actions) =
      (resolve settings actions).map (recastAll Instruction.trimmed) := by
  have deep : nesting (recastAll Instruction.essence actions) = nesting actions :=
    nestingFrom_recastAll _ 0 actions
  have merged : mergePushes (recastAll Instruction.essence actions) =
      recastAll Instruction.essence (mergePushes actions) :=
    mapLevels_recastAll sparesPushes_essence.mergeRuns actions
  have branches := tryLevels_recastAll transfers_resolveOwnBranches (mergePushes actions)
  unfold resolve
  rw [deep, merged]
  by_cases tooDeep : settings.maxDepth < nesting actions
  · rw [if_pos tooDeep, if_pos tooDeep]
    rfl
  · rw [if_neg tooDeep, if_neg tooDeep]
    show (resolveBranches _ >>= measureBlocks) =
      (resolveBranches (mergePushes actions) >>= measureBlocks).map _
    rw [resolveBranches, branches, ← resolveBranches]
    cases resolveBranches (mergePushes actions) with
    | error fault => rfl
    | ok resolved => exact tryLevels_recastAll transfers_measureOwnBlocks resolved

/-- **A sequence is assembled as its essence**, with the same bytes or the same fault. -/
theorem assemble_essence (settings : AssemblySettings) (actions : List Action) :
    assemble settings (recastAll Instruction.essence actions) = assemble settings actions := by
  unfold assemble
  rw [resolve_essence]
  cases resolve settings actions with
  | error fault => rfl
  | ok resolved =>
    have written : writeSequence (recastAll Instruction.trimmed resolved) =
        writeSequence resolved := writesAlike_trimmed.writeFrom_recastAll false resolved
    have length : (recastAll Instruction.trimmed resolved).length = resolved.length := by
      rw [recastAll_eq_map, List.length_map]
    dsimp only [Except.map]
    rw [written, length]

end ActionCode
