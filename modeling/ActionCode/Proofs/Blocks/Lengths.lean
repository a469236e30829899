/-
**The lengths that closings ask for.**

* `recordTotal`: the records of a sequence. **`Extent.through_apart`**: behind an action that no push
  joins, a sequence takes the bytes and the records that it takes alone.
* `Sentence.sized`: a sentence whose blocks have the lengths of what they hold; `Sentence.Fits`: each
  of them fits its field.
* **`measureOwnBlocks_ok_iff_sentence`**: measuring succeeds exactly for sentences whose lengths fit,
  and enters these.
-/

import ActionCode.Proofs.Blocks.Scan
import ActionCode.Proofs.Blocks.Sentences
import ActionCode.Proofs.Bytes.Sequences

namespace ActionCode

/-! ### Lengths -/

/-- The records of a sequence. -/
def recordTotal (actions : List Action) : Nat := (Extent.start.through actions).records

/-- An extent behind some bytes and records. -/
def Extent.behind (before : Extent) (point : Point) : Extent :=
  ⟨point.bytes + before.bytes, point.records + before.records, before.inRun⟩

theorem Extent.advance_behind (before : Extent) (point : Point) (action : Action) :
    (before.behind point).advance action = (before.advance action).behind point := by
  obtain ⟨value, rfl⟩ | other := action.push_or_other
  · rw [advance_push, advance_push]
    change (if before.inRun = true then _ else _) = _
    obtain ⟨bytes, records, inRun⟩ := before
    cases inRun <;> simp [behind, Nat.add_assoc]
  · rw [advance_other other, advance_other other, behind, behind, Nat.add_assoc, Nat.add_assoc]

theorem Extent.through_behind (before : Extent) (point : Point) (actions : List Action) :
    (before.behind point).through actions = (before.through actions).behind point := by
  induction actions generalizing before with
  | nil => rw [through, through]
  | cons action rest ih =>
    rw [through, through, ← advance, ← advance, advance_behind, ih]

theorem Extent.through_append (before : Extent) (front back : List Action) :
    before.through (front ++ back) = (before.through front).through back := by
  rw [through_eq_foldl, through_eq_foldl, through_eq_foldl, List.foldl_append]

/-- **Behind an action that no push joins, a sequence takes what it takes alone.** -/
theorem Extent.through_apart {before : Extent} (apart : before.inRun = false)
    (actions : List Action) :
    (before.through actions).bytes = before.bytes + encodedLength actions ∧
      (before.through actions).records = before.records + recordTotal actions := by
  have alone : before = Extent.start.behind before.point := by
    obtain ⟨bytes, records, inRun⟩ := before
    obtain rfl : inRun = false := apart
    rfl
  rw [alone, through_behind]
  exact ⟨rfl, rfl⟩

/-! ### Sized sentences -/

/-- The bytes of a handler or a cleanup; none if it is absent. -/
def Sentence.clauseBytes : Option Sentence → Nat
  | none => 0
  | some inner => encodedLength inner.actions

mutual

/-- The actions of a sentence whose blocks have the lengths of what they hold. -/
def Sentence.sized : Sentence → List Action
  | .done => []
  | .flat action _ rest => action :: rest.sized
  | .scope _ inner rest =>
    .plain (.block (.scope (.ofNat (encodedLength inner.actions)))) ::
      (inner.sized ++ .marker .endWith :: rest.sized)
  | .wait frame _ inner rest =>
    .plain (.block (.wait frame (.ofNat (recordTotal inner.actions)))) ::
      (inner.sized ++ .marker .endWait :: rest.sized)
  | .exception block attempt handler cleanup rest =>
    .plain (.block (.exception { block with
        trySize := .ofNat (encodedLength attempt.actions)
        catchSize := .ofNat (Sentence.clauseBytes handler)
        finallySize := .ofNat (Sentence.clauseBytes cleanup) })) ::
      (attempt.sized ++ (Sentence.sizedClause .catchStart handler ++
        (Sentence.sizedClause .finallyStart cleanup ++ .marker .endTry :: rest.sized)))

/-- A handler or a cleanup behind its marker whose blocks have such lengths. -/
def Sentence.sizedClause (start : Marker) : Option Sentence → List Action
  | none => []
  | some inner => .marker start :: inner.sized

end

mutual

/-- The length of each span fits its field. -/
def Sentence.Fits : Sentence → Prop
  | .done => True
  | .flat _ _ rest => rest.Fits
  | .scope _ inner rest =>
    SizeField.scopeSize.fits (encodedLength inner.actions) = true ∧ inner.Fits ∧ rest.Fits
  | .wait _ _ inner rest =>
    SizeField.skipCount.fits (recordTotal inner.actions) = true ∧ inner.Fits ∧ rest.Fits
  | .exception _ attempt handler cleanup rest =>
    SizeField.trySize.fits (encodedLength attempt.actions) = true ∧ attempt.Fits ∧
      SizeField.catchSize.fits (Sentence.clauseBytes handler) = true ∧
      Sentence.ClauseFits handler ∧
      SizeField.finallySize.fits (Sentence.clauseBytes cleanup) = true ∧
      Sentence.ClauseFits cleanup ∧ rest.Fits

/-- The length of each span in a handler or a cleanup fits its field. -/
def Sentence.ClauseFits : Option Sentence → Prop
  | none => True
  | some inner => inner.Fits

end

theorem fits_iff {field : SizeField} (wide : field.bits = 16) {value : Nat} :
    field.fits value = true ↔ (UInt16.ofNat value).toNat = value := by
  rw [SizeField.fits, wide, decide_eq_true_eq, UInt16.toNat_ofNat', Nat.pow_eq]
  omega

theorem fits_skipCount_iff {value : Nat} :
    SizeField.skipCount.fits value = true ↔ (UInt8.ofNat value).toNat = value := by
  rw [SizeField.fits, decide_eq_true_eq, UInt8.toNat_ofNat']
  exact ⟨fun small => Nat.mod_eq_of_lt small, fun small => small ▸ Nat.mod_lt _ (by decide)⟩

/-! ### Sentences close what they open -/

/-- A marker closes the span that is due there. -/
theorem closes_marker {marker : Marker} (closes : marker.closes = true) {before : Extent}
    {back sized : List Action} {stack : List Pending}
    (later : Closes (before.advance (.marker marker)).point
      ((before.advance (.marker marker)).pieces back) sized stack) :
    Closes before.point (before.pieces (.marker marker :: back)) (.marker marker :: sized)
      (⟨marker, before.point⟩ :: stack) := by
  rw [Extent.pieces, Extent.piece_marker]
  exact .closing closes later

/-- The closing of the span before a handler or a cleanup, if there is one. -/
def Sentence.clauseStops (start : Marker) (point : Point) : Option Sentence → List Pending
  | none => []
  | some _ => [⟨start, point⟩]

/-- Behind a block no push joins. -/
theorem Extent.inRun_advance_block (before : Extent) (block : Block) :
    (before.advance (.plain (.block block))).inRun = false := rfl

theorem Extent.inRun_advance_marker (before : Extent) (marker : Marker) :
    (before.advance (.marker marker)).inRun = false := rfl

/-- A block opens, with other sizes and the closings that these ask for. -/
theorem closes_block {before : Extent} {old new : Block} {rest sized : List Action}
    {own stack : List Pending}
    (spanned : Spanned new (before.advance (.plain (.block old))).point own)
    (same : old.unsized = new.unsized)
    (later : Closes (before.advance (.plain (.block old))).point
      ((before.advance (.plain (.block old))).pieces rest) sized (own ++ stack)) :
    Closes before.point (before.pieces (.plain (.block old) :: rest))
      (.plain (.block new) :: sized) stack := by
  rw [← Extent.after_piece] at spanned later
  exact .opening rfl same spanned later

/-- What neither opens nor closes goes in front. -/
theorem closes_flat {before : Extent} {action : Action} (flat : action.Flat)
    {rest sized : List Action} {stack : List Pending}
    (later : Closes (before.advance action).point ((before.advance action).pieces rest) sized
      stack) : Closes before.point (before.pieces (action :: rest)) (action :: sized) stack := by
  rw [← Extent.after_piece] at later
  exact @Closes.flat before.point (before.piece action) _ _ _ flat later

/-- The closings of an exception block with the lengths of what it holds. -/
theorem spanned_exception {block : TryBlock} {attempt : Sentence}
    {handler cleanup : Option Sentence}
    (tryFits : SizeField.trySize.fits (encodedLength attempt.actions) = true)
    (catchFits : SizeField.catchSize.fits (Sentence.clauseBytes handler) = true)
    (finallyFits : SizeField.finallySize.fits (Sentence.clauseBytes cleanup) = true)
    {before tryEnd catchEnd finallyEnd : Extent} (apart : before.inRun = false)
    (isTryEnd : tryEnd = before.through attempt.actions)
    (isCatchEnd : catchEnd = tryEnd.through (Sentence.clause .catchStart handler))
    (isFinallyEnd : finallyEnd = catchEnd.through (Sentence.clause .finallyStart cleanup)) :
    Spanned (.exception { block with
        trySize := .ofNat (encodedLength attempt.actions)
        catchSize := .ofNat (Sentence.clauseBytes handler)
        finallySize := .ofNat (Sentence.clauseBytes cleanup) }) before.point
      (Sentence.clauseStops .catchStart tryEnd.point handler ++
        (Sentence.clauseStops .finallyStart catchEnd.point cleanup ++
          [⟨.endTry, finallyEnd.point⟩])) := by
  have tryBytes : tryEnd.bytes = before.bytes + (UInt16.ofNat (encodedLength attempt.actions)).toNat := by
    rw [(fits_iff rfl).mp tryFits, isTryEnd, (Extent.through_apart apart _).1]
  have clauseBytes : ∀ (extent : Extent) (start : Marker) (inner : Sentence),
      (extent.through (Sentence.clause start (some inner))).bytes =
        extent.bytes + Sentence.clauseBytes (some inner) := by
    intro extent start inner
    rw [Sentence.clause, Extent.through]
    exact (Extent.through_apart (extent.inRun_advance_marker start) _).1
  cases handler with
  | none =>
    obtain rfl : catchEnd = tryEnd := isCatchEnd.trans (by rw [Sentence.clause, Extent.through])
    cases cleanup with
    | none =>
      obtain rfl : finallyEnd = catchEnd := isFinallyEnd.trans (by rw [Sentence.clause, Extent.through])
      exact .attempt tryBytes rfl rfl
    | some cleaned =>
      refine .cleaned tryBytes rfl ?_
      rw [(fits_iff rfl).mp finallyFits]
      exact isFinallyEnd ▸ clauseBytes _ _ _
  | some handled =>
    have catchBytes : catchEnd.bytes = tryEnd.bytes +
        (UInt16.ofNat (Sentence.clauseBytes (some handled))).toNat := by
      rw [(fits_iff rfl).mp catchFits]
      exact isCatchEnd ▸ clauseBytes _ _ _
    cases cleanup with
    | none =>
      obtain rfl : finallyEnd = catchEnd := isFinallyEnd.trans (by rw [Sentence.clause, Extent.through])
      exact .handled tryBytes catchBytes rfl
    | some cleaned =>
      refine .full tryBytes catchBytes ?_
      rw [(fits_iff rfl).mp finallyFits]
      exact isFinallyEnd ▸ clauseBytes _ _ _

mutual

/-- **A sentence whose lengths fit closes all blocks it opens**, and they have these lengths. -/
theorem Sentence.closes : ∀ (sentence : Sentence), sentence.Fits → ∀ {before : Extent}
    {back sizedBack : List Action} {stack : List Pending},
    Closes (before.through sentence.actions).point ((before.through sentence.actions).pieces back)
      sizedBack stack →
    Closes before.point (before.pieces (sentence.actions ++ back)) (sentence.sized ++ sizedBack)
      stack
  | .done, _, before, back, sizedBack, stack, later => by
    rwa [actions, Extent.through] at later
  | .flat action isFlat rest, fits, before, back, sizedBack, stack, later => by
    rw [Fits] at fits
    rw [actions, Extent.through] at later
    rw [actions, sized]
    exact closes_flat isFlat (rest.closes fits later)
  | .scope size inner rest, fits, before, back, sizedBack, stack, later => by
    rw [Fits] at fits
    rw [actions, Extent.through, Extent.through_append, Extent.through] at later
    have spanned : Spanned (.scope (.ofNat (encodedLength inner.actions)))
        (before.advance (.plain (.block (.scope size)))).point
        [⟨.endWith, ((before.advance (.plain (.block (.scope size)))).through
          inner.actions).point⟩] := by
      refine .scope ?_
      rw [(fits_iff rfl).mp fits.1]
      exact (Extent.through_apart (before.inRun_advance_block (.scope size)) _).1
    rw [actions, sized, List.cons_append, List.cons_append, List.append_assoc, List.append_assoc]
    exact closes_block spanned rfl
      (inner.closes fits.2.1 (closes_marker rfl (rest.closes fits.2.2 later)))
  | .wait frame skipCount inner rest, fits, before, back, sizedBack, stack, later => by
    rw [Fits] at fits
    rw [actions, Extent.through, Extent.through_append, Extent.through] at later
    have spanned : Spanned (.wait frame (.ofNat (recordTotal inner.actions)))
        (before.advance (.plain (.block (.wait frame skipCount)))).point
        [⟨.endWait, ((before.advance (.plain (.block (.wait frame skipCount)))).through
          inner.actions).point⟩] := by
      refine .wait ?_
      rw [fits_skipCount_iff.mp fits.1]
      exact (Extent.through_apart (before.inRun_advance_block (.wait frame skipCount)) _).2
    rw [actions, sized, List.cons_append, List.cons_append, List.append_assoc, List.append_assoc]
    exact closes_block spanned rfl
      (inner.closes fits.2.1 (closes_marker rfl (rest.closes fits.2.2 later)))
  | .exception block attempt handler cleanup rest, fits, before, back, sizedBack, stack, later => by
    rw [Fits] at fits
    obtain ⟨tryFits, attemptFits, catchFits, handlerFits, finallyFits, cleanupFits, restFits⟩ := fits
    rw [actions, Extent.through, Extent.through_append, Extent.through_append,
      Extent.through_append, Extent.through] at later
    have spanned := @spanned_exception block attempt handler cleanup tryFits catchFits finallyFits
      _ _ _ _ (before.inRun_advance_block (.exception block)) rfl rfl rfl
    rw [actions, sized, List.cons_append, List.cons_append, List.append_assoc, List.append_assoc,
      List.append_assoc, List.append_assoc, List.append_assoc, List.append_assoc]
    refine closes_block spanned rfl (attempt.closes attemptFits ?_)
    rw [List.append_assoc, List.append_assoc]
    exact Sentence.closes_clause handler rfl handlerFits (Sentence.closes_clause cleanup rfl
      cleanupFits (closes_marker rfl (rest.closes restFits later)))

theorem Sentence.closes_clause : ∀ (part : Option Sentence) {start : Marker},
    start.closes = true → Sentence.ClauseFits part → ∀ {before : Extent}
    {back sizedBack : List Action} {stack : List Pending},
    Closes (before.through (Sentence.clause start part)).point
      ((before.through (Sentence.clause start part)).pieces back) sizedBack stack →
    Closes before.point (before.pieces (Sentence.clause start part ++ back))
      (Sentence.sizedClause start part ++ sizedBack)
      (Sentence.clauseStops start before.point part ++ stack)
  | none, start, _, _, before, back, sizedBack, stack, later => by
    rwa [clause, Extent.through] at later
  | some inner, start, closes, fits, before, back, sizedBack, stack, later => by
    rw [ClauseFits] at fits
    rw [clause, Extent.through] at later
    rw [clause, sizedClause]
    exact closes_marker closes (inner.closes fits later)

end

/-! ### What closes its blocks is a sentence -/

/-- The closing that comes next is due, and what is behind it closes the others; or nothing is
left. -/
def ClosedAt (extent : Extent) (back sized : List Action) : List Pending → Prop
  | [] => back = [] ∧ sized = []
  | ⟨marker, point⟩ :: later => point = extent.point ∧ ∃ back' sized',
    back = .marker marker :: back' ∧ sized = .marker marker :: sized' ∧
      Closes (extent.advance (.marker marker)).point
        ((extent.advance (.marker marker)).pieces back') sized' later

/-- A sequence begins with a sentence, and closes what is open behind it. -/
structure Opens (before : Extent) (actions sized : List Action) (stack : List Pending)
    (sentence : Sentence) (back sizedBack : List Action) : Prop where
  fits : sentence.Fits
  actions : actions = sentence.actions ++ back
  sized : sized = sentence.sized ++ sizedBack
  closed : ClosedAt (before.through sentence.actions) back sizedBack stack

section

variable {before : Extent} {back sizedBack back' sizedBack' : List Action} {stack : List Pending}
  {inner rest : Sentence}

theorem Opens.flat {action : Action} (flat : action.Flat)
    (opens : Opens (before.advance action) back sizedBack stack rest back' sizedBack') :
    Opens before (action :: back) (action :: sizedBack) stack (.flat action flat rest) back'
      sizedBack' where
  fits := by
    rw [Sentence.Fits]
    exact opens.fits
  actions := by rw [opens.actions, Sentence.actions, List.cons_append]
  sized := by rw [opens.sized, Sentence.sized, List.cons_append]
  closed := by
    rw [Sentence.actions, Extent.through]
    exact opens.closed

theorem Opens.scope {size : UInt16} (innerFits : inner.Fits)
    (fits : SizeField.scopeSize.fits (encodedLength inner.actions) = true)
    (opens : Opens (((before.advance (.plain (.block (.scope size)))).through
      inner.actions).advance (.marker .endWith)) back sizedBack stack rest back' sizedBack') :
    Opens before (.plain (.block (.scope size)) :: (inner.actions ++ .marker .endWith :: back))
      (.plain (.block (.scope (.ofNat (encodedLength inner.actions)))) ::
        (inner.sized ++ .marker .endWith :: sizedBack)) stack (.scope size inner rest) back'
      sizedBack' where
  fits := by
    rw [Sentence.Fits]
    exact ⟨fits, innerFits, opens.fits⟩
  actions := by simp [opens.actions, Sentence.actions]
  sized := by simp [opens.sized, Sentence.sized]
  closed := by
    rw [Sentence.actions, Extent.through, Extent.through_append, Extent.through]
    exact opens.closed

theorem Opens.wait {frame : Option UInt16} {skipCount : UInt8} (innerFits : inner.Fits)
    (fits : SizeField.skipCount.fits (recordTotal inner.actions) = true)
    (opens : Opens (((before.advance (.plain (.block (.wait frame skipCount)))).through
      inner.actions).advance (.marker .endWait)) back sizedBack stack rest back' sizedBack') :
    Opens before
      (.plain (.block (.wait frame skipCount)) :: (inner.actions ++ .marker .endWait :: back))
      (.plain (.block (.wait frame (.ofNat (recordTotal inner.actions)))) ::
        (inner.sized ++ .marker .endWait :: sizedBack)) stack (.wait frame skipCount inner rest)
      back' sizedBack' where
  fits := by
    rw [Sentence.Fits]
    exact ⟨fits, innerFits, opens.fits⟩
  actions := by simp [opens.actions, Sentence.actions]
  sized := by simp [opens.sized, Sentence.sized]
  closed := by
    rw [Sentence.actions, Extent.through, Extent.through_append, Extent.through]
    exact opens.closed

theorem Opens.exception {handlers : TryBlock} {handler cleanup : Option Sentence}
    (innerFits : inner.Fits) (tryFits : SizeField.trySize.fits (encodedLength inner.actions) = true)
    (handlerFits : Sentence.ClauseFits handler)
    (catchFits : SizeField.catchSize.fits (Sentence.clauseBytes handler) = true)
    (cleanupFits : Sentence.ClauseFits cleanup)
    (finallyFits : SizeField.finallySize.fits (Sentence.clauseBytes cleanup) = true)
    (opens : Opens (((((before.advance (.plain (.block (.exception handlers)))).through
      inner.actions).through (Sentence.clause .catchStart handler)).through
        (Sentence.clause .finallyStart cleanup)).advance (.marker .endTry)) back sizedBack stack rest
      back' sizedBack') :
    Opens before
      (.plain (.block (.exception handlers)) :: (inner.actions ++
        (Sentence.clause .catchStart handler ++ (Sentence.clause .finallyStart cleanup ++
          .marker .endTry :: back))))
      (.plain (.block (.exception { handlers with
          trySize := .ofNat (encodedLength inner.actions)
          catchSize := .ofNat (Sentence.clauseBytes handler)
          finallySize := .ofNat (Sentence.clauseBytes cleanup) })) :: (inner.sized ++
        (Sentence.sizedClause .catchStart handler ++ (Sentence.sizedClause .finallyStart cleanup ++
          .marker .endTry :: sizedBack)))) stack (.exception handlers inner handler cleanup rest)
      back' sizedBack' where
  fits := by
    rw [Sentence.Fits]
    exact ⟨tryFits, innerFits, catchFits, handlerFits, finallyFits, cleanupFits, opens.fits⟩
  actions := by simp [opens.actions, Sentence.actions]
  sized := by simp [opens.sized, Sentence.sized]
  closed := by
    rw [Sentence.actions, Extent.through, Extent.through_append, Extent.through_append,
      Extent.through_append, Extent.through]
    exact opens.closed

end

/-- Where a sequence closes its blocks and some others, it begins with a sentence. -/
def Begins (actions : List Action) : Prop :=
  ∀ (before : Extent) (sized : List Action) (stack : List Pending),
    Closes before.point (before.pieces actions) sized stack →
      ∃ (sentence : Sentence) (back sizedBack : List Action),
        Opens before actions sized stack sentence back sizedBack

/-- A span that no push joins holds a sentence, and ends behind it. -/
structure Spans (before : Extent) (actions sized : List Action) (marker : Marker) (stop : Point)
    (stack : List Pending) (inner : Sentence) (back sizedBack : List Action) : Prop where
  fits : inner.Fits
  actions : actions = inner.actions ++ .marker marker :: back
  sized : sized = inner.sized ++ .marker marker :: sizedBack
  bytes : stop.bytes = before.bytes + encodedLength inner.actions
  records : stop.records = before.records + recordTotal inner.actions
  here : stop = (before.through inner.actions).point
  later : Closes ((before.through inner.actions).advance (.marker marker)).point
    (((before.through inner.actions).advance (.marker marker)).pieces back) sizedBack stack

theorem Begins.span {actions : List Action} (begins : Begins actions) {before : Extent}
    (apart : before.inRun = false) {marker : Marker} {stop : Point} {sized : List Action}
    {stack : List Pending}
    (closes : Closes before.point (before.pieces actions) sized (⟨marker, stop⟩ :: stack)) :
    ∃ (inner : Sentence) (back sizedBack : List Action),
      Spans before actions sized marker stop stack inner back sizedBack ∧
        back.length ≤ actions.length := by
  obtain ⟨inner, _, _, fits, rfl, rfl, rfl, back, sizedBack, rfl, rfl, later⟩ :=
    begins before sized _ closes
  obtain ⟨bytes, records⟩ := Extent.through_apart apart inner.actions
  refine ⟨inner, back, sizedBack, ⟨fits, rfl, rfl, bytes, records, rfl, later⟩, ?_⟩
  rw [List.length_append, List.length_cons]
  omega

/-- A size of 16 bits fits its field. -/
theorem size_eq_ofNat {field : SizeField} (wide : field.bits = 16) {size : UInt16}
    {first second length : Nat} (due : second = first + size.toNat)
    (holds : second = first + length) : field.fits length = true ∧ size = .ofNat length := by
  obtain rfl : size.toNat = length := Nat.add_left_cancel (due.symm.trans holds)
  rw [fits_iff wide, UInt16.ofNat_toNat]
  exact ⟨rfl, rfl⟩

theorem skipCount_eq_ofNat {count : UInt8} {first second total : Nat}
    (due : second = first + count.toNat) (holds : second = first + total) :
    SizeField.skipCount.fits total = true ∧ count = .ofNat total := by
  obtain rfl : count.toNat = total := Nat.add_left_cancel (due.symm.trans holds)
  rw [fits_skipCount_iff, UInt8.ofNat_toNat]
  exact ⟨rfl, rfl⟩

/-- A span whose size is that of its block holds a sentence of that many bytes, which its field
admits. -/
theorem Begins.sizedSpan {actions : List Action} (begins : Begins actions) {before : Extent}
    (apart : before.inRun = false) {marker : Marker} {stop : Point} {sized : List Action}
    {stack : List Pending}
    (closes : Closes before.point (before.pieces actions) sized (⟨marker, stop⟩ :: stack))
    (field : SizeField) (wide : field.bits = 16) {size : UInt16}
    (due : stop.bytes = before.point.bytes + size.toNat) :
    ∃ (inner : Sentence) (back sizedBack : List Action),
      Spans before actions sized marker stop stack inner back sizedBack ∧
        field.fits (encodedLength inner.actions) = true ∧
        size = .ofNat (encodedLength inner.actions) ∧ back.length ≤ actions.length := by
  obtain ⟨inner, back, sizedBack, span, shorter⟩ := begins.span apart closes
  obtain ⟨fits, size⟩ := size_eq_ofNat wide due span.bytes
  exact ⟨inner, back, sizedBack, span, fits, size, shorter⟩

/-- A block that differs from an exception block in sizes is one. -/
theorem Block.exception_of_unsized {block : Block} {new : TryBlock}
    (same : block.unsized = (Block.exception new).unsized) :
    ∃ old, block = .exception old ∧ new = { old with
      trySize := new.trySize
      catchSize := new.catchSize
      finallySize := new.finallySize } := by
  cases block with
  | exception old =>
    obtain ⟨flags, target⟩ : old.flags = new.flags ∧ old.target = new.target := by
      simpa [Block.unsized] using same
    refine ⟨old, rfl, ?_⟩
    rw [flags, target]
  | _ => cases same

/-- An exception block that closes what it opens begins a sentence, if what is behind it does. -/
theorem begins_exception {old new : TryBlock}
    (isNew : new = { old with
      trySize := new.trySize
      catchSize := new.catchSize
      finallySize := new.finallySize })
    {rest sized : List Action} (begins : ∀ {back : List Action}, back.length ≤ rest.length →
      Begins back) {before : Extent} {own stack : List Pending}
    (spanned : Spanned (.exception new)
      (before.advance (.plain (.block (.exception old)))).point own)
    (closes : Closes (before.advance (.plain (.block (.exception old)))).point
      ((before.advance (.plain (.block (.exception old)))).pieces rest) sized (own ++ stack)) :
    ∃ (sentence : Sentence) (back sizedBack : List Action),
      Opens before (.plain (.block (.exception old)) :: rest)
        (.plain (.block (.exception new)) :: sized) stack sentence back sizedBack := by
  have apart := before.inRun_advance_block (.exception old)
  cases spanned with
  | @attempt _ _ tryEnd attempt handler cleanup =>
    obtain ⟨inner, back, sizedBack, span, fits, size, shorter⟩ :=
      (begins (Nat.le_refl _)).sizedSpan apart closes .trySize rfl attempt
    obtain ⟨later, back', sizedBack', opens⟩ := begins shorter _ _ _ span.later
    refine ⟨.exception old inner none none later, back', sizedBack', ?_⟩
    rw [isNew, size, handler, cleanup, span.actions, span.sized]
    exact @Opens.exception before _ _ _ _ _ _ _ old none none span.fits fits trivial rfl trivial rfl
      opens
  | @handled _ _ tryEnd catchEnd attempt handler cleanup =>
    obtain ⟨inner, back, sizedBack, span, fits, size, shorter⟩ :=
      (begins (Nat.le_refl _)).sizedSpan apart closes .trySize rfl attempt
    rw [span.here] at handler
    obtain ⟨handled, back₂, sizedBack₂, span₂, fits₂, size₂, shorter₂⟩ :=
      (begins shorter).sizedSpan rfl span.later .catchSize rfl handler
    obtain ⟨later, back', sizedBack', opens⟩ :=
      begins (Nat.le_trans shorter₂ shorter) _ _ _ span₂.later
    refine ⟨.exception old inner (some handled) none later, back', sizedBack', ?_⟩
    rw [isNew, size, size₂, cleanup, span.actions, span.sized, span₂.actions, span₂.sized]
    exact @Opens.exception before _ _ _ _ _ _ _ old (some handled) none span.fits fits span₂.fits
      fits₂ trivial rfl opens
  | @cleaned _ _ tryEnd finallyEnd attempt handler cleanup =>
    obtain ⟨inner, back, sizedBack, span, fits, size, shorter⟩ :=
      (begins (Nat.le_refl _)).sizedSpan apart closes .trySize rfl attempt
    rw [span.here] at cleanup
    obtain ⟨cleaned, back₂, sizedBack₂, span₂, fits₂, size₂, shorter₂⟩ :=
      (begins shorter).sizedSpan rfl span.later .finallySize rfl cleanup
    obtain ⟨later, back', sizedBack', opens⟩ :=
      begins (Nat.le_trans shorter₂ shorter) _ _ _ span₂.later
    refine ⟨.exception old inner none (some cleaned) later, back', sizedBack', ?_⟩
    rw [isNew, size, size₂, handler, span.actions, span.sized, span₂.actions, span₂.sized]
    exact @Opens.exception before _ _ _ _ _ _ _ old none (some cleaned) span.fits fits trivial rfl
      span₂.fits fits₂ opens
  | @full _ _ tryEnd catchEnd finallyEnd attempt handler cleanup =>
    obtain ⟨inner, back, sizedBack, span, fits, size, shorter⟩ :=
      (begins (Nat.le_refl _)).sizedSpan apart closes .trySize rfl attempt
    rw [span.here] at handler
    obtain ⟨handled, back₂, sizedBack₂, span₂, fits₂, size₂, shorter₂⟩ :=
      (begins shorter).sizedSpan rfl span.later .catchSize rfl handler
    have shorter₂ := Nat.le_trans shorter₂ shorter
    rw [span₂.here] at cleanup
    obtain ⟨cleaned, back₃, sizedBack₃, span₃, fits₃, size₃, shorter₃⟩ :=
      (begins shorter₂).sizedSpan rfl span₂.later .finallySize rfl cleanup
    obtain ⟨later, back', sizedBack', opens⟩ :=
      begins (Nat.le_trans shorter₃ shorter₂) _ _ _ span₃.later
    refine ⟨.exception old inner (some handled) (some cleaned) later, back', sizedBack', ?_⟩
    rw [isNew, size, size₂, size₃, span.actions, span.sized, span₂.actions, span₂.sized,
      span₃.actions, span₃.sized]
    exact @Opens.exception before _ _ _ _ _ _ _ old (some handled) (some cleaned) span.fits fits
      span₂.fits fits₂ span₃.fits fits₃ opens

/-- A block that closes what it opens begins a sentence, if what is behind it does. -/
theorem begins_block {block new : Block} (same : block.unsized = new.unsized)
    {rest sized : List Action} (begins : ∀ {back : List Action}, back.length ≤ rest.length →
      Begins back) {before : Extent} {own stack : List Pending}
    (spanned : Spanned new (before.advance (.plain (.block block))).point own)
    (closes : Closes (before.advance (.plain (.block block))).point
      ((before.advance (.plain (.block block))).pieces rest) sized (own ++ stack)) :
    ∃ (sentence : Sentence) (back sizedBack : List Action),
      Opens before (.plain (.block block) :: rest) (.plain (.block new) :: sized) stack sentence back
        sizedBack := by
  have apart := before.inRun_advance_block block
  cases new with
  | scope size =>
    cases block with
    | scope old =>
      cases spanned with
      | scope bytes =>
        obtain ⟨inner, back, sizedBack, span, fits, rfl, shorter⟩ :=
          (begins (Nat.le_refl _)).sizedSpan apart closes .scopeSize rfl bytes
        obtain ⟨later, back', sizedBack', opens⟩ := begins shorter _ _ _ span.later
        exact ⟨_, back', sizedBack', span.actions ▸ span.sized ▸ opens.scope span.fits fits⟩
    | _ => cases same
  | wait frame skipCount =>
    cases block with
    | wait old count =>
      obtain rfl : old = frame := (Block.wait.inj same).1
      cases spanned with
      | wait records =>
        obtain ⟨inner, back, sizedBack, span, shorter⟩ := (begins (Nat.le_refl _)).span apart closes
        obtain ⟨fits, rfl⟩ := skipCount_eq_ofNat records span.records
        obtain ⟨later, back', sizedBack', opens⟩ := begins shorter _ _ _ span.later
        exact ⟨_, back', sizedBack', span.actions ▸ span.sized ▸ opens.wait span.fits fits⟩
    | _ => cases same
  | exception handlers =>
    obtain ⟨old, rfl, isNew⟩ := Block.exception_of_unsized same
    exact begins_exception isNew begins spanned closes

theorem begins_of_length : ∀ (bound : Nat) {actions : List Action}, actions.length ≤ bound →
    Begins actions
  | _, [], _, before, sized, stack, closes => by
    cases closes
    exact ⟨.done, [], [], trivial, rfl, rfl, rfl, rfl⟩
  | 0, action :: rest, short, _, _, _, _ => absurd short (Nat.not_succ_le_zero _)
  | bound + 1, action :: rest, short, before, sized, stack, closes => by
    have short : rest.length ≤ bound := Nat.le_of_succ_le_succ short
    have begins : ∀ {back : List Action}, back.length ≤ rest.length → Begins back :=
      fun shorter => begins_of_length bound (Nat.le_trans shorter short)
    rw [Extent.pieces] at closes
    obtain ⟨block, rfl⟩ | ⟨marker, rfl, isClosing⟩ | flat := action.opening_closing_or_flat
    · obtain ⟨new, later, own, rfl, same, spanned, closed⟩ := closes.cons_block rfl
      rw [Extent.after_piece] at spanned closed
      exact begins_block same begins spanned closed
    · rw [Extent.piece_marker] at closes
      obtain ⟨later, stack, rfl, rfl, closed⟩ := closes.cons_closing isClosing
      refine ⟨.done, _, _, trivial, rfl, rfl, ?_⟩
      rw [Sentence.actions, Extent.through]
      exact ⟨rfl, rest, later, rfl, rfl, closed⟩
    · obtain ⟨later, rfl, closed⟩ := closes.cons_flat flat
      rw [Extent.after_piece] at closed
      obtain ⟨sentence, back, sizedBack, opens⟩ := begins (Nat.le_refl _) _ _ _ closed
      exact ⟨_, back, sizedBack, opens.flat flat⟩

/-- **Measuring succeeds exactly for sentences whose lengths fit**, and enters these lengths. -/
theorem measureOwnBlocks_ok_iff_sentence {actions sized : List Action} :
    measureOwnBlocks actions = .ok sized ↔
      ∃ sentence : Sentence, sentence.actions = actions ∧ sentence.Fits ∧ sentence.sized = sized := by
  rw [measureOwnBlocks_ok_iff]
  constructor
  · intro closes
    obtain ⟨sentence, _, _, fits, isActions, isSized, rfl, rfl⟩ :=
      begins_of_length _ (Nat.le_refl _) Extent.start _ _ closes
    rw [List.append_nil] at isActions isSized
    exact ⟨sentence, isActions.symm, fits, isSized.symm⟩
  · rintro ⟨sentence, rfl, fits, rfl⟩
    have closes := @Sentence.closes sentence fits Extent.start [] [] [] (.nil _)
    rwa [List.append_nil, List.append_nil] at closes

end ActionCode
