/-
**What measuring refuses.**

* `Opening.Holds`: what may stand behind a block whose span is the innermost open one.
* `LeftOpen`: the blocks that a sequence leaves open, and where they are. **`BlockScan.leftOpen`**: a
  scan knows them.
* **`measureBlocks_grammar`**: measuring succeeds exactly for sentences whose lengths fit, at every
  level. A closing is refused exactly where it cannot stand, and of the blocks without an end the
  innermost one is named.
-/

import ActionCode.Proofs.Blocks.Lengths
import ActionCode.Proofs.Derived.Measuring
import ActionCode.Proofs.Levels.Paths

namespace ActionCode

/-! ### Behind an open block -/

/-- What may stand behind a block whose span is the innermost open one: a sentence, and for a handler
or a cleanup the spans before it, with their markers. -/
def Opening.Holds : Opening → List Action → Prop
  | .exception .handler, inside => ∃ attempt handler : Sentence,
    inside = attempt.actions ++ .marker .catchStart :: handler.actions
  | .exception .cleanup, inside => ∃ (attempt : Sentence) (handler : Option Sentence)
    (cleanup : Sentence), inside = attempt.actions ++
      (Sentence.clause .catchStart handler ++ .marker .finallyStart :: cleanup.actions)
  | _, inside => Derives inside

/-- The kind of block that a span belongs to. -/
def Opening.blockKind : Opening → BlockKind
  | .scope => .scope
  | .wait => .wait
  | .exception _ => .exception

theorem Derives.append {front back : List Action} (first : Derives front) (second : Derives back) :
    Derives (front ++ back) := by
  rw [derives_iff_scan] at first second ⊢
  rw [scanOpenings_append, first]
  exact second

theorem Derives.flat {action : Action} (flat : action.Flat) : Derives [action] :=
  ⟨.flat action flat .done, by rw [Sentence.actions, Sentence.actions]⟩

/-- A sentence goes behind what an open block holds. -/
theorem Opening.Holds.append {opening : Opening} {inside more : List Action}
    (holds : opening.Holds inside) (derives : Derives more) : opening.Holds (inside ++ more) := by
  have longer : ∀ sentence : Sentence, ∃ both : Sentence,
      both.actions = sentence.actions ++ more :=
    fun sentence => Derives.append ⟨sentence, rfl⟩ derives
  cases opening with
  | scope => exact Derives.append holds derives
  | wait => exact Derives.append holds derives
  | exception stage =>
    cases stage with
    | attempt => exact Derives.append holds derives
    | handler =>
      obtain ⟨attempt, handler, rfl⟩ := holds
      obtain ⟨both, isBoth⟩ := longer handler
      exact ⟨attempt, both, by simp [isBoth]⟩
    | cleanup =>
      obtain ⟨attempt, handler, cleanup, rfl⟩ := holds
      obtain ⟨both, isBoth⟩ := longer cleanup
      exact ⟨attempt, handler, both, by simp [isBoth]⟩

/-- A marker that begins the next span goes behind what the one before holds. -/
theorem Opening.Holds.next {stage next : TryStage} {marker : Marker} {inside : List Action}
    (isNext : stage.next? marker = some next) (holds : (Opening.exception stage).Holds inside) :
    (Opening.exception next).Holds (inside ++ [.marker marker]) := by
  obtain ⟨rfl, rfl, rfl⟩ | ⟨early, rfl, rfl⟩ := TryStage.next?_cases isNext
  · obtain ⟨attempt, rfl⟩ := holds
    exact ⟨attempt, .done, by simp [Sentence.actions]⟩
  · cases stage with
    | attempt =>
      obtain ⟨attempt, rfl⟩ := holds
      exact ⟨attempt, none, .done, by simp [Sentence.actions, Sentence.clause]⟩
    | handler =>
      obtain ⟨attempt, handler, rfl⟩ := holds
      exact ⟨attempt, some handler, .done, by simp [Sentence.actions, Sentence.clause]⟩
    | cleanup => exact absurd rfl early

/-- Behind a block and what it holds, its span is open. -/
theorem Opening.Holds.scan {block : Block} {opening : Opening}
    (kind : opening.blockKind = block.kind) {inside : List Action} (holds : opening.Holds inside)
    (outer : List Opening) :
    scanOpenings outer (.plain (.block block) :: inside) = some (opening :: outer) := by
  rw [scanOpenings_cons, stepOpenings_block]
  change scanOpenings (.ofBlock block :: outer) inside = _
  have sentence : ∀ (sentence : Sentence) (openings : List Opening),
      scanOpenings openings sentence.actions = some openings := by
    intro sentence openings
    have scanned := sentence.scan_append openings []
    rwa [List.append_nil] at scanned
  cases opening with
  | scope =>
    obtain ⟨inner, rfl⟩ := holds
    cases block <;> first | exact sentence inner _ | cases kind
  | wait =>
    obtain ⟨inner, rfl⟩ := holds
    cases block <;> first | exact sentence inner _ | cases kind
  | exception stage =>
    cases block with
    | exception handlers =>
      cases stage with
      | attempt =>
        obtain ⟨attempt, rfl⟩ := holds
        exact sentence attempt _
      | handler =>
        obtain ⟨attempt, handler, rfl⟩ := holds
        exact (attempt.scan_append _ _).trans (sentence handler _)
      | cleanup =>
        obtain ⟨attempt, handler, cleanup, rfl⟩ := holds
        refine (attempt.scan_append _ _).trans ?_
        cases handler with
        | none => exact sentence cleanup _
        | some handler => exact (handler.scan_append _ _).trans (sentence cleanup _)
    | _ => cases kind

/-! ### Open blocks -/

/-- The span that is open of a block. -/
def OpenKind.opening : OpenKind → Opening
  | .scope => .scope
  | .wait _ => .wait
  | .exception stage _ => .exception stage

theorem OpenKind.blockKind_opening (kind : OpenKind) : kind.opening.blockKind = kind.blockKind := by
  cases kind <;> rfl

/-- What a closing marker makes of an open block is what it makes of its span. -/
theorem OpenKind.advance?_opening {kind : OpenKind} {marker : Marker} {index bytes records : Nat}
    {advance : Advance} (advanced : kind.advance marker index bytes records = .ok advance) :
    kind.opening.advance? marker = some (match advance with
      | .stage next => some next.opening
      | .close _ => none) := by
  cases kind with
  | scope =>
    cases marker with
    | endWith =>
      obtain ⟨size, _, isClosed⟩ := except_bind_ok_iff.mp advanced
      cases isClosed
      rfl
    | _ => cases advanced
  | wait frame =>
    cases marker with
    | endWait =>
      obtain ⟨size, _, isClosed⟩ := except_bind_ok_iff.mp advanced
      cases isClosed
      rfl
    | _ => cases advanced
  | exception stage block =>
    by_cases ended : marker = .endTry
    · subst ended
      obtain ⟨block, _, isClosed⟩ := except_bind_ok_iff.mp advanced
      cases isClosed
      rfl
    · rw [OpenKind.advance_exception ended] at advanced
      rw [opening, Opening.advance?_exception ended]
      cases isNext : stage.next? marker with
      | none =>
        rw [isNext] at advanced
        cases advanced
      | some next =>
        rw [isNext] at advanced
        obtain ⟨block, _, isStaged⟩ := except_bind_ok_iff.mp advanced
        cases isStaged
        rfl

/-- The marker that a fault refuses, and its index. -/
def AssemblyFault.refusal? : AssemblyFault → Option (Marker × Nat)
  | .unmatchedMarker marker index => some (marker, index)
  | .mismatchedNesting marker _ index => some (marker, index)
  | _ => none

theorem size16_error {field : SizeField} {value : Nat} {fault : AssemblyFault}
    (failed : size16 field value = .error fault) : fault = .write (.overflow field value) := by
  unfold size16 at failed
  split at failed <;> cases failed
  rfl

theorem size8_error {field : SizeField} {value : Nat} {fault : AssemblyFault}
    (failed : size8 field value = .error fault) : fault = .write (.overflow field value) := by
  unfold size8 at failed
  split at failed <;> cases failed
  rfl

theorem except_bind_error {ε α β : Type} {first : Except ε α} {next : α → Except ε β} {fault : ε}
    (failed : first >>= next = .error fault) :
    first = .error fault ∨ ∃ value, first = .ok value ∧ next value = .error fault := by
  cases first with
  | error other => exact .inl (congrArg Except.error (Except.error.inj failed))
  | ok value => exact .inr ⟨value, rfl, failed⟩

theorem TryBlock.measure_error {block : TryBlock} {stage : TryStage} {size : Nat}
    {fault : AssemblyFault} (failed : block.measure stage size = .error fault) :
    ∃ overflow, fault = .write overflow := by
  cases stage <;>
  · obtain failed | ⟨_, _, failed⟩ := except_bind_error failed
    · exact ⟨_, size16_error failed⟩
    · cases failed

/-- **A closing marker has too great a length, or it does not continue the innermost span.** -/
theorem OpenKind.advance_error {kind : OpenKind} {marker : Marker} {index bytes records : Nat}
    {fault : AssemblyFault} (failed : kind.advance marker index bytes records = .error fault) :
    (∃ overflow, fault = .write overflow) ∨
      fault = .mismatchedNesting marker kind.blockKind index ∧
        kind.opening.advance? marker = none := by
  cases kind with
  | scope =>
    cases marker with
    | endWith =>
      obtain failed | ⟨_, _, failed⟩ := except_bind_error failed
      · exact .inl ⟨_, size16_error failed⟩
      · cases failed
    | _ =>
      cases failed
      exact .inr ⟨rfl, rfl⟩
  | wait frame =>
    cases marker with
    | endWait =>
      obtain failed | ⟨_, _, failed⟩ := except_bind_error failed
      · exact .inl ⟨_, size8_error failed⟩
      · cases failed
    | _ =>
      cases failed
      exact .inr ⟨rfl, rfl⟩
  | exception stage block =>
    by_cases ended : marker = .endTry
    · subst ended
      obtain failed | ⟨_, _, failed⟩ := except_bind_error failed
      · exact .inl (TryBlock.measure_error failed)
      · cases failed
    · rw [OpenKind.advance_exception ended] at failed
      rw [opening, Opening.advance?_exception ended]
      cases isNext : stage.next? marker with
      | none =>
        rw [isNext] at failed
        cases failed
        exact .inr ⟨rfl, rfl⟩
      | some next =>
        rw [isNext] at failed
        obtain failed | ⟨_, _, failed⟩ := except_bind_error failed
        · exact .inl (TryBlock.measure_error failed)
        · cases failed

/-- The blocks that a sequence leaves open, innermost first, and where they are. -/
inductive LeftOpen : List Action → List OpenBlock → Prop
  | closed {actions : List Action} (derives : Derives actions) : LeftOpen actions []
  | opened {front inside : List Action} {block : Block} {innermost : OpenBlock}
      {outer : List OpenBlock} (before : LeftOpen front outer)
      (here : innermost.index = front.length) (kind : innermost.kind.blockKind = block.kind)
      (holds : innermost.kind.opening.Holds inside) :
      LeftOpen (front ++ .plain (.block block) :: inside) (innermost :: outer)

/-- The spans that are open of some blocks. -/
def openingsOf (openBlocks : List OpenBlock) : List Opening :=
  openBlocks.map fun opened => opened.kind.opening

theorem LeftOpen.scan {actions : List Action} {openBlocks : List OpenBlock}
    (leftOpen : LeftOpen actions openBlocks) :
    scanOpenings [] actions = some (openingsOf openBlocks) := by
  induction leftOpen with
  | closed derives => exact derives_iff_scan.mp derives
  | opened before here kind holds ih =>
    rw [scanOpenings_append, ih]
    exact holds.scan ((OpenKind.blockKind_opening _).trans kind) _

/-- A sentence leaves open what was open. -/
theorem LeftOpen.append {actions more : List Action} {openBlocks : List OpenBlock}
    (leftOpen : LeftOpen actions openBlocks) (derives : Derives more) :
    LeftOpen (actions ++ more) openBlocks := by
  cases leftOpen with
  | closed first => exact .closed (first.append derives)
  | opened before here kind holds =>
    rw [List.append_assoc]
    exact .opened before here kind (holds.append derives)

/-- The end of the innermost block leaves the others open. -/
theorem LeftOpen.ending {actions : List Action} {innermost : OpenBlock} {outer : List OpenBlock}
    (leftOpen : LeftOpen actions (innermost :: outer)) :
    LeftOpen (actions ++ [.marker innermost.kind.opening.ending]) outer := by
  cases leftOpen with
  | @opened front inside block _ _ before here kind holds =>
    have whole : Derives (.plain (.block block) ::
        (inside ++ [.marker innermost.kind.opening.ending])) := by
      rw [derives_iff_scan, ← List.cons_append, scanOpenings_append,
        holds.scan ((OpenKind.blockKind_opening _).trans kind)]
      exact scanOpenings_ending _ [] []
    have longer := before.append whole
    rwa [← List.cons_append, ← List.append_assoc] at longer

/-- The next span of the innermost block is open behind its marker. -/
theorem LeftOpen.next {actions : List Action} {innermost : OpenBlock} {outer : List OpenBlock}
    (leftOpen : LeftOpen actions (innermost :: outer)) {stage next : TryStage} {marker : Marker}
    (isStage : innermost.kind.opening = .exception stage) (isNext : stage.next? marker = some next)
    {kind : OpenKind} (isKind : kind.opening = .exception next) (start : Extent) :
    LeftOpen (actions ++ [.marker marker])
      ({ innermost with kind := kind, start := start } :: outer) := by
  cases leftOpen with
  | @opened front inside block _ _ before here same holds =>
    rw [List.append_assoc]
    rw [isStage] at holds
    have isException : innermost.kind.blockKind = .exception := by
      rw [← OpenKind.blockKind_opening, isStage, Opening.blockKind]
    have isException' : kind.blockKind = .exception := by
      rw [← OpenKind.blockKind_opening, isKind, Opening.blockKind]
    refine .opened before here (isException'.trans (isException.symm.trans same)) ?_
    rw [isKind]
    exact holds.next isNext

/-! ### Scans -/

/-- A scan has come to the end of a sequence, and knows the blocks that it leaves open. -/
structure BlockScan.Knows (scan : BlockScan) (actions : List Action) : Prop where
  leftOpen : LeftOpen actions scan.openBlocks
  here : scan.index = actions.length

namespace BlockScan

/-- **One more action leaves the blocks open that a scan knows.** -/
theorem Knows.step {scan after : BlockScan} {front : List Action} (knows : scan.Knows front)
    {action : Action} (stepped : scan.step action = .ok after) : after.Knows (front ++ [action]) := by
  have here : scan.index + 1 = (front ++ [action]).length := by
    rw [knows.here, List.length_append, List.length_singleton]
  obtain ⟨block, rfl⟩ | ⟨marker, rfl, closes⟩ | flat := action.opening_closing_or_flat
  · cases stepped
    refine ⟨.opened knows.leftOpen knows.here ?_ ?_, here⟩
    · cases block <;> rfl
    · cases block <;> exact ⟨.done, rfl⟩
  · rw [step_of_closing scan closes] at stepped
    obtain ⟨innermost, outer, advance, isOpen, advanced, rfl⟩ := close_ok stepped
    have leftOpen := knows.leftOpen
    rw [isOpen] at leftOpen
    obtain ⟨rfl, closed⟩ | ⟨stage, next, isStage, isNext, staged⟩ :=
      Opening.advance?_cases (OpenKind.advance?_opening advanced)
    · cases advance with
      | stage kind => cases closed
      | close block => exact ⟨leftOpen.ending, here⟩
    · cases advance with
      | stage kind =>
        exact ⟨leftOpen.next isStage isNext (Option.some.inj staged) _, here⟩
      | close block => cases staged
  · rw [step_of_flat scan flat] at stepped
    cases stepped
    exact ⟨knows.leftOpen.append (.flat flat), here⟩

/-- **A scan knows the blocks that its actions leave open.** -/
theorem Knows.run {scan after : BlockScan} {front actions : List Action} (knows : scan.Knows front)
    (ran : scan.run actions = .ok after) : after.Knows (front ++ actions) := by
  induction actions generalizing scan front with
  | nil =>
    cases ran
    rwa [List.append_nil]
  | cons action rest ih =>
    rw [BlockScan.run] at ran
    cases stepped : scan.step action with
    | error fault =>
      rw [stepped] at ran
      cases ran
    | ok next =>
      rw [stepped] at ran
      have later := ih (knows.step stepped) ran
      rwa [List.append_assoc] at later

/-- A scan that fails does so at some action. -/
theorem exists_of_run_error {scan : BlockScan} {actions : List Action} {fault : AssemblyFault}
    (failed : scan.run actions = .error fault) :
    ∃ front action rest reached, actions = front ++ action :: rest ∧
      scan.run front = .ok reached ∧ reached.step action = .error fault := by
  induction actions generalizing scan with
  | nil => cases failed
  | cons action rest ih =>
    rw [BlockScan.run] at failed
    cases stepped : scan.step action with
    | error other =>
      rw [stepped] at failed
      cases failed
      exact ⟨[], action, rest, scan, rfl, rfl, stepped⟩
    | ok next =>
      rw [stepped] at failed
      obtain ⟨front, last, back, reached, rfl, ran, failed⟩ := ih failed
      refine ⟨action :: front, last, back, reached, rfl, ?_, failed⟩
      rw [BlockScan.run, stepped]
      exact ran

/-- **A scan meets too great a length, or refuses a marker that continues nothing that is open.** -/
theorem step_error {scan : BlockScan} {action : Action} {fault : AssemblyFault}
    (failed : scan.step action = .error fault) :
    (∃ overflow, fault = .write overflow) ∨ ∃ marker, action = .marker marker ∧
      fault.refusal? = some (marker, scan.index) ∧
      stepOpenings (openingsOf scan.openBlocks) action = none := by
  obtain ⟨block, rfl⟩ | ⟨marker, rfl, closes⟩ | flat := action.opening_closing_or_flat
  · cases failed
  · rw [step_of_closing scan closes, close] at failed
    cases isOpen : scan.openBlocks with
    | nil =>
      rw [isOpen] at failed
      cases failed
      exact .inr ⟨marker, rfl, rfl, stepOpenings_unopened closes⟩
    | cons innermost outer =>
      rw [isOpen] at failed
      dsimp only at failed
      split at failed
      · rename_i other advanced
        cases failed
        obtain overflow | ⟨rfl, refused⟩ := OpenKind.advance_error advanced
        · exact .inl overflow
        · refine .inr ⟨marker, rfl, rfl, ?_⟩
          rw [openingsOf, List.map_cons, stepOpenings_closing closes, refused]
          rfl
      · cases failed
      · cases failed
  · rw [step_of_flat scan flat] at failed
    cases failed

end BlockScan

/-! ### Sequences -/

/-- The actions before a marker can be completed to a sentence, and with the marker they cannot. -/
def RefusedAt (actions : List Action) (marker : Marker) (index : Nat) : Prop :=
  ∃ front rest, actions = front ++ .marker marker :: rest ∧ index = front.length ∧
    (∃ more, Derives (front ++ more)) ∧ ¬ ∃ more, Derives (front ++ .marker marker :: more)

/-- A block at an index is open at the end, and all blocks behind it are closed. -/
def UnendedAt (actions : List Action) (kind : BlockKind) (index : Nat) : Prop :=
  ∃ front block inside opening, actions = front ++ .plain (.block block) :: inside ∧
    index = front.length ∧ block.kind = kind ∧ Opening.blockKind opening = kind ∧
    opening.Holds inside

theorem knows_start (actions : Array Action) :
    BlockScan.Knows ⟨Extent.start, 0, [], actions⟩ [] := ⟨.closed ⟨.done, rfl⟩, rfl⟩

/-- **A marker is refused where it cannot stand.** -/
theorem refusedAt_of_measureOwnBlocks {actions : List Action} {fault : AssemblyFault}
    (failed : measureOwnBlocks actions = .error fault) {marker : Marker} {index : Nat}
    (refuses : fault.refusal? = some (marker, index)) : RefusedAt actions marker index := by
  unfold measureOwnBlocks at failed
  split at failed
  · rename_i other ran
    cases failed
    obtain ⟨front, action, rest, reached, rfl, ran, failed⟩ := BlockScan.exists_of_run_error ran
    have knows := (knows_start _).run ran
    rw [List.nil_append] at knows
    obtain ⟨overflow, rfl⟩ | ⟨found, rfl, isRefusal, refused⟩ := BlockScan.step_error failed
    · cases refuses
    rw [refuses] at isRefusal
    obtain ⟨rfl, rfl⟩ := Prod.mk.inj (Option.some.inj isRefusal)
    rw [knows.here]
    refine ⟨front, rest, rfl, rfl, completable_iff.mpr ⟨_, knows.leftOpen.scan⟩, ?_⟩
    rintro ⟨more, derives⟩
    rw [derives_iff_scan, scanOpenings_append, knows.leftOpen.scan] at derives
    change scanOpenings _ (_ :: more) = _ at derives
    rw [scanOpenings_cons, refused] at derives
    cases derives
  · split at failed
    · cases failed
    · cases failed
      cases refuses

/-- **The block without an end that is named is the innermost one.** -/
theorem unendedAt_of_measureOwnBlocks {actions : List Action} {kind : BlockKind} {index : Nat}
    (failed : measureOwnBlocks actions = .error (.missingEndMarker kind index)) :
    UnendedAt actions kind index := by
  unfold measureOwnBlocks at failed
  split at failed
  · rename_i other ran
    cases failed
    obtain ⟨_, _, _, _, _, _, failed⟩ := BlockScan.exists_of_run_error ran
    obtain ⟨_, isWrite⟩ | ⟨_, _, isRefusal, _⟩ := BlockScan.step_error failed
    · cases isWrite
    · cases isRefusal
  · rename_i scan ran
    have knows := (knows_start _).run ran
    rw [List.nil_append] at knows
    have leftOpen := knows.leftOpen
    split at failed
    · cases failed
    · rename_i innermost outer isOpen
      cases failed
      rw [isOpen] at leftOpen
      generalize actions = whole at leftOpen
      cases leftOpen with
      | @opened front inside block _ _ before here same holds =>
        exact ⟨front, block, inside, innermost.kind.opening, rfl, here, same.symm,
          OpenKind.blockKind_opening _, holds⟩

/-! ### Every level -/

/-- A sequence is measured with the same fault, or without one, whatever sizes there were. -/
theorem measureOwnBlocks_blind {code inner : List Action}
    (same : recastAll Instruction.unsized code = recastAll Instruction.unsized inner) :
    Agree (fun _ _ => True) (measureOwnBlocks code) (measureOwnBlocks inner) := by
  have whole : ∀ actions : List Action, Agree (fun _ _ => True)
      (measureOwnBlocks (recastAll Instruction.measurable actions))
      (measureOwnBlocks actions) := by
    intro actions
    have agree := measureOwnBlocks_agree keeps_measurable actions
    have cast : actions.map (Action.transfer Instruction.measurable Instruction.measurable) =
        recastAll Instruction.measurable actions := by
      rw [recastAll_eq_map]
      refine List.map_congr_left fun action _ => ?_
      cases action <;> rfl
    rwa [cast] at agree
  have equal : recastAll Instruction.measurable code = recastAll Instruction.measurable inner := by
    have twice := congrArg (recastAll Instruction.trimmed) same
    rwa [recastAll_recastAll, recastAll_recastAll] at twice
  have first := whole code
  have second := whole inner
  rw [equal] at first
  generalize measureOwnBlocks (recastAll Instruction.measurable inner) = outcome at first second
  generalize measureOwnBlocks code = one at first ⊢
  generalize measureOwnBlocks inner = two at second ⊢
  cases first with
  | fault fault =>
    cases second
    exact .fault fault
  | result _ =>
    cases second
    exact .result trivial

theorem measureOwnBlocks_succeeds_iff (code : List Action) :
    (∃ result, measureOwnBlocks (recastAll Instruction.unsized code) = .ok result) ↔
      ∃ result, measureOwnBlocks code = .ok result := by
  have same : recastAll Instruction.unsized (recastAll Instruction.unsized code) =
      recastAll Instruction.unsized code := by
    rw [recastAll_recastAll]
    congr 1
    funext instruction
    cases instruction with
    | block opened => exact congrArg Instruction.block (Block.unsized_unsized opened)
    | _ => rfl
  have agree := measureOwnBlocks_blind same
  generalize measureOwnBlocks (recastAll Instruction.unsized code) = one at agree ⊢
  generalize measureOwnBlocks code = two at agree ⊢
  cases agree with
  | fault fault => exact iff_of_false (fun ⟨_, isOk⟩ => by cases isOk) fun ⟨_, isOk⟩ => by cases isOk
  | result _ => exact iff_of_true ⟨_, rfl⟩ ⟨_, rfl⟩

/-- A fault of measuring is one of the code at some path. -/
theorem measureBlocks_error {actions : List Action} {fault : AssemblyFault}
    (failed : measureBlocks actions = .error fault) :
    ∃ path code, codeAt? path actions = some code ∧ measureOwnBlocks code = .error fault := by
  obtain ⟨path, code, inner, found, same, failed⟩ :=
    tryLevels_error adjusts_measureOwnBlocks failed
  have agree := measureOwnBlocks_blind same
  rw [failed] at agree
  generalize measured : measureOwnBlocks code = outcome at agree
  cases agree
  exact ⟨path, code, found, measured⟩

/-- **Measuring accepts the grammar of blocks and enters exact lengths.** It succeeds exactly for
sequences that are those of sentences at every level, if each length fits its field. Then only sizes
change, and each becomes the length of what the block holds. A marker is refused where what comes
before can be completed to a sentence, and no longer with the marker; and of the blocks without an
end the innermost one is named. -/
theorem measureBlocks_grammar (actions : List Action) :
    ((∃ measured, measureBlocks actions = .ok measured) ↔
      EveryLevel (fun code => ∃ sentence : Sentence, sentence.actions = code ∧ sentence.Fits)
        actions) ∧
    (∀ measured, measureBlocks actions = .ok measured →
      recastAll Instruction.unsized actions = recastAll Instruction.unsized measured ∧
      EveryLevel (fun code => ∃ sentence : Sentence,
        sentence.actions = code ∧ sentence.Fits ∧ sentence.sized = code) measured) ∧
    (∀ fault marker index, measureBlocks actions = .error fault →
      (fault = .unmatchedMarker marker index ∨
        ∃ innermost, fault = .mismatchedNesting marker innermost index) →
      ∃ path code, codeAt? path actions = some code ∧ RefusedAt code marker index) ∧
    (∀ kind index, measureBlocks actions = .error (.missingEndMarker kind index) →
      ∃ path code, codeAt? path actions = some code ∧ UnendedAt code kind index) := by
  refine ⟨?_, fun measured success => ?_, fun fault marker index failed refuses => ?_,
    fun kind index failed => ?_⟩
  · rw [measureBlocks, tryLevels_succeeds_iff adjusts_measureOwnBlocks measureOwnBlocks_succeeds_iff]
    have level : ∀ code, (∃ result, measureOwnBlocks code = .ok result) ↔
        ∃ sentence : Sentence, sentence.actions = code ∧ sentence.Fits := by
      intro code
      simp only [measureOwnBlocks_ok_iff_sentence]
      exact ⟨fun ⟨_, sentence, isCode, fits, _⟩ => ⟨sentence, isCode, fits⟩,
        fun ⟨sentence, isCode, fits⟩ => ⟨_, sentence, isCode, fits, rfl⟩⟩
    simp only [level]
  · obtain ⟨same, fixed, inside⟩ := (tryLevels_adjusts adjusts_measureOwnBlocks).mp success
    exact ⟨same, measureOwnBlocks_ok_iff_sentence.mp fixed,
      allCodeHolds_of_imp (fun code kept => measureOwnBlocks_ok_iff_sentence.mp kept) inside⟩
  · obtain ⟨path, code, found, failed⟩ := measureBlocks_error failed
    refine ⟨path, code, found, refusedAt_of_measureOwnBlocks failed ?_⟩
    obtain rfl | ⟨innermost, rfl⟩ := refuses
    · rfl
    · rfl
  · obtain ⟨path, code, found, failed⟩ := measureBlocks_error failed
    exact ⟨path, code, found, unendedAt_of_measureOwnBlocks failed⟩

/-- The end of a wait inside a scope. -/
theorem measureBlocks_grammar_crossed :
    ∃ path code, codeAt? path [.plain (.block (.scope 0)), .marker .endWait] = some code ∧
      RefusedAt code .endWait 1 :=
  (measureBlocks_grammar [.plain (.block (.scope 0)), .marker .endWait]).2.2.1
    (.mismatchedNesting .endWait .scope 1) .endWait 1 (by decide +kernel) (.inr ⟨.scope, rfl⟩)

end ActionCode
