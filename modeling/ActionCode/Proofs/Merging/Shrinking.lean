/-
**Joined records ask for no more than there was.**

* `Closer`: a point that was after another is so still, and no farther from it.
* `Shrinks`: pieces that keep their order and lose room, and runs of pushes that are joined.
* **`Shrinks.tidy`**: closings that matched their blocks match them after these have been given
  smaller sizes.
* **`Shrinks.aimed`**: branches that went to their labels go there after these have been given
  shorter offsets.
-/

import ActionCode.Proofs.Blocks.Measuring
import ActionCode.Proofs.Labels.Finishing
import ActionCode.Proofs.Labels.Resolving
import ActionCode.Proofs.Merging.Levels
import ActionCode.Proofs.Merging.Records

namespace ActionCode

/-! ### Points that come closer -/

/-- A point before and after: the second of two places is no farther from the first than it was, and
where bytes were between them some are left. -/
structure Closer (first second : Point × Point) : Prop where
  bytes : first.2.bytes ≤ second.2.bytes
  shorter : second.2.bytes + first.1.bytes ≤ second.1.bytes + first.2.bytes
  apart : second.2.bytes = first.2.bytes → second.1.bytes = first.1.bytes
  records : first.2.records ≤ second.2.records
  fewer : second.2.records + first.1.records ≤ second.1.records + first.2.records

theorem Closer.trans {first second third : Point × Point} (early : Closer first second)
    (late : Closer second third) : Closer first third where
  bytes := Nat.le_trans early.bytes late.bytes
  shorter := by
    have := early.shorter
    have := late.shorter
    omega
  apart equal := by
    have := early.bytes
    have := late.bytes
    have := early.apart (by omega)
    have := late.apart (by omega)
    omega
  records := Nat.le_trans early.records late.records
  fewer := by
    have := early.fewer
    have := late.fewer
    omega

instance : Trans Closer Closer Closer := ⟨Closer.trans⟩

theorem Closer.refl (place : Point × Point) : Closer place place :=
  ⟨Nat.le_refl _, Nat.le_of_eq (Nat.add_comm _ _), fun _ => rfl, Nat.le_refl _,
    Nat.le_of_eq (Nat.add_comm _ _)⟩

/-- What comes closer to the first of some places does so to an earlier one. -/
theorem isChain_closer_of_head {first second : Point × Point} {places : List (Point × Point)}
    (closer : Closer first second) (chain : (second :: places).IsChain Closer) :
    (first :: places).IsChain Closer := by
  rcases places with _ | ⟨next, places⟩
  · exact .singleton _
  · obtain ⟨here, later⟩ := List.isChain_cons_cons.mp chain
    exact List.isChain_cons_cons.mpr ⟨closer.trans here, later⟩

theorem isChain_closer_right {first : Point × Point} {front back : List (Point × Point)}
    (chain : (first :: (front ++ back)).IsChain Closer) : (first :: back).IsChain Closer :=
  List.isChain_iff_pairwise.mpr ((List.isChain_iff_pairwise.mp chain).sublist
    ((List.sublist_append_right front back).cons_cons _))

/-! ### Pieces that shrink -/

/-- An instruction without offset and sizes; a single literal is a list of one. -/
def Instruction.core : Instruction → Instruction
  | .push value => .pushList [value]
  | instruction => instruction.blank

/-- The core of an action, without code. -/
def Action.hollow : Action → Action
  | .plain instruction => .plain instruction.core
  | .define signature _ => .define signature []
  | .marker found => .marker found

/-- A piece stays in its place, with less room. -/
structure Kept (piece other : Piece) : Prop where
  same : piece.action.hollow = other.action.hollow
  bytes : other.bytes ≤ piece.bytes
  emptied : other.bytes = 0 → piece.bytes = 0
  records : other.records = piece.records

/-- Pieces keep their order and lose room, and neighbouring pushes may be joined: the head of the
later ones is saved. -/
inductive Shrinks : List Piece → List Piece → Prop
  | nil : Shrinks [] []
  | keep {piece other : Piece} {pieces others : List Piece} (kept : Kept piece other)
      (later : Shrinks pieces others) : Shrinks (piece :: pieces) (other :: others)
  | join {piece next both : Piece} {pieces others : List Piece}
      (pushes : piece.action.pushed ≠ []) (pushes' : next.action.pushed ≠ [])
      (pushes'' : both.action.pushed ≠ [])
      (bytes : both.bytes + headWidth = piece.bytes + next.bytes) (long : headWidth < piece.bytes)
      (one : piece.records = 1) (records : both.records = next.records)
      (later : Shrinks pieces (next :: others)) : Shrinks (piece :: pieces) (both :: others)

/-- What can be told from the core of an action is the same of actions with the same core. -/
theorem Action.view_of_hollow {β : Type} (view : Action → β)
    (hollow : ∀ action : Action, view action.hollow = view action) {action other : Action}
    (same : action.hollow = other.hollow) : view action = view other := by
  rw [← hollow action, ← hollow other, same]

theorem Action.block?_of_hollow {action other : Action} (same : action.hollow = other.hollow) :
    action.block?.map Block.unsized = other.block?.map Block.unsized := by
  refine view_of_hollow (fun action => action.block?.map Block.unsized) (fun action => ?_) same
  cases action with
  | plain instruction =>
    cases instruction with
    | block opened => cases opened <;> rfl
    | _ => rfl
  | _ => rfl

theorem Action.closing?_of_hollow {action other : Action} (same : action.hollow = other.hollow) :
    action.closing? = other.closing? :=
  view_of_hollow Action.closing? (fun action => by cases action <;> rfl) same

theorem Action.label?_of_hollow {action other : Action} (same : action.hollow = other.hollow) :
    action.label? = other.label? :=
  view_of_hollow Action.label? (fun action => by cases action <;> rfl) same

theorem Action.pushed_of_hollow {action other : Action} (same : action.hollow = other.hollow) :
    action.pushed = other.pushed := by
  refine view_of_hollow Action.pushed (fun action => ?_) same
  cases action with
  | plain instruction => cases instruction <;> rfl
  | _ => rfl

/-- The label of a branch stays. -/
theorem Action.branch?_of_hollow {action other : Action} (same : action.hollow = other.hollow) :
    action.branch?.map Branch.label = other.branch?.map Branch.label := by
  refine view_of_hollow (fun action => action.branch?.map Branch.label) (fun action => ?_) same
  cases action with
  | plain instruction =>
    cases instruction with
    | branch jump =>
      obtain ⟨conditional, offset, label⟩ := jump
      cases label <;> rfl
    | _ => rfl
  | _ => rfl

theorem Action.Flat.of_hollow {action other : Action} (flat : action.Flat)
    (same : action.hollow = other.hollow) : other.Flat where
  block := by
    have blocks := Action.block?_of_hollow same
    rw [flat.block] at blocks
    exact Option.map_eq_none_iff.mp blocks.symm
  closing := by rw [← Action.closing?_of_hollow same, flat.closing]

theorem Action.eq_marker_of_hollow {action : Action} {marker : Marker}
    (same : (Action.marker marker).hollow = action.hollow) : action = .marker marker := by
  cases action with
  | marker other => exact same.symm
  | _ => cases same

/-- A place before and after goes on past a piece that stays. -/
theorem Kept.closer {piece other : Piece} (kept : Kept piece other) (old new : Point) :
    Closer (old, new) (old.after piece, new.after other) := by
  obtain ⟨_, bytes, emptied, records⟩ := kept
  refine ⟨Nat.le_add_right _ _, ?_, ?_, Nat.le_add_right _ _, ?_⟩
  · show new.bytes + other.bytes + old.bytes ≤ old.bytes + piece.bytes + new.bytes
    omega
  · show new.bytes + other.bytes = new.bytes → old.bytes + piece.bytes = old.bytes
    intro equal
    have := emptied (by omega)
    omega
  · show new.records + other.records + old.records ≤ old.records + piece.records + new.records
    omega

/-- Past a push that is joined with the next one, the record of both begins. -/
def Point.into (point : Point) (piece : Piece) : Point :=
  ⟨point.bytes + (piece.bytes - headWidth), point.records⟩

theorem Point.after_into {piece next both : Piece}
    (bytes : both.bytes + headWidth = piece.bytes + next.bytes) (long : headWidth < piece.bytes)
    (records : both.records = next.records) (point : Point) :
    (point.into piece).after next = point.after both := by
  unfold Point.after Point.into
  rw [records]
  refine congrArg (Point.mk · _) ?_
  show point.bytes + (piece.bytes - headWidth) + next.bytes = point.bytes + both.bytes
  omega

theorem closer_into {piece : Piece} (long : headWidth < piece.bytes) (old new : Point) :
    Closer (old, new) (old.after piece, new.into piece) := by
  refine ⟨Nat.le_add_right _ _, ?_, ?_, Nat.le_refl _, ?_⟩
  · show new.bytes + (piece.bytes - headWidth) + old.bytes ≤ old.bytes + piece.bytes + new.bytes
    omega
  · show new.bytes + (piece.bytes - headWidth) = new.bytes → old.bytes + piece.bytes = old.bytes
    intro equal
    omega
  · show new.records + old.records ≤ old.records + piece.records + new.records
    omega

/-! ### Smaller sizes -/

/-- A closing, the point where it was due and the one where it is. -/
structure Shift where
  marker : Marker
  places : Point × Point

/-- The closing where it was due. -/
def Shift.old (shift : Shift) : Pending := ⟨shift.marker, shift.places.1⟩

/-- The closing where it is due. -/
def Shift.new (shift : Shift) : Pending := ⟨shift.marker, shift.places.2⟩

/-- The bytes between two points that come closer are those of a smaller size. -/
theorem Closer.resize {first second : Point × Point} (closer : Closer first second) (size : UInt16)
    (due : second.1.bytes = first.1.bytes + size.toNat) :
    ∃ other : UInt16, second.2.bytes = first.2.bytes + other.toNat ∧
      (other.toNat = 0 ↔ size.toNat = 0) := by
  have bytes := closer.bytes
  have shorter := closer.shorter
  have apart := closer.apart
  have bounded := size.toNat_lt
  have fits : second.2.bytes - first.2.bytes < 2 ^ 16 := by omega
  refine ⟨.ofNat (second.2.bytes - first.2.bytes), ?_⟩
  rw [UInt16.toNat_ofNat_of_lt' fits]
  omega

/-- The records between two points that come closer are those of a smaller count. -/
theorem Closer.recount {first second : Point × Point} (closer : Closer first second)
    (count : UInt8) (due : second.1.records = first.1.records + count.toNat) :
    ∃ other : UInt8, second.2.records = first.2.records + other.toNat := by
  have records := closer.records
  have fewer := closer.fewer
  have bounded := count.toNat_lt
  have fits : second.2.records - first.2.records < 2 ^ 8 := by omega
  refine ⟨.ofNat (second.2.records - first.2.records), ?_⟩
  rw [UInt8.toNat_ofNat_of_lt' fits]
  omega

/-- The sizes of an exception block. -/
def TryBlock.sized (handlers : TryBlock) (trySize catchSize finallySize : UInt16) : TryBlock :=
  { handlers with trySize := trySize, catchSize := catchSize, finallySize := finallySize }

theorem TryBlock.hasCatch_sized {handlers : TryBlock} {catchSize : UInt16}
    (same : catchSize.toNat = 0 ↔ handlers.catchSize.toNat = 0) (trySize finallySize : UInt16) :
    (handlers.sized trySize catchSize finallySize).hasCatch = handlers.hasCatch := by
  unfold hasCatch sized
  refine congrArg (_ || ·) (decide_eq_decide.mpr ?_)
  show 0 < catchSize.toNat ↔ 0 < handlers.catchSize.toNat
  omega

theorem TryBlock.hasFinally_sized {handlers : TryBlock} {finallySize : UInt16}
    (same : finallySize.toNat = 0 ↔ handlers.finallySize.toNat = 0) (trySize catchSize : UInt16) :
    (handlers.sized trySize catchSize finallySize).hasFinally = handlers.hasFinally := by
  unfold hasFinally sized
  refine congrArg (_ || ·) (decide_eq_decide.mpr ?_)
  show 0 < finallySize.toNat ↔ 0 < handlers.finallySize.toNat
  omega

/-- The first of some closings and the others. -/
theorem Meets.cons {start : Point} {marker : Marker} {amount : Nat} {stops : List (Marker × Nat)}
    {shifts : List Shift}
    (meets : List.Forall₂ (Meets start) ((marker, amount) :: stops) (shifts.map Shift.old)) :
    ∃ old new others, shifts = ⟨marker, old, new⟩ :: others ∧
      old.along marker = start.along marker + amount ∧
      List.Forall₂ (Meets start) stops (others.map Shift.old) := by
  rcases shifts with _ | ⟨⟨other, old, new⟩, others⟩
  · cases meets
  · obtain ⟨⟨same, due⟩, later⟩ := List.forall₂_cons.mp meets
    change other = marker at same
    subst same
    exact ⟨old, new, others, rfl, due, later⟩

theorem Meets.nil {start : Point} {shifts : List Shift}
    (meets : List.Forall₂ (Meets start) [] (shifts.map Shift.old)) : shifts = [] := by
  cases shifts with
  | nil => rfl
  | cons shift others => cases meets

/-- Where a clause begins: at its own closing, or at the next one if there is no such clause. -/
theorem Meets.clause {start : Point} {present : Bool} {marker : Marker} {amount : Nat}
    {stops : List (Marker × Nat)} {shifts : List Shift} {before : Point × Point}
    (inBytes : ∀ point : Point, point.along marker = point.bytes)
    (absent : present = false → ∃ next later, stops = (next, amount) :: later ∧
      ∀ point : Point, point.along next = point.bytes)
    (meets : List.Forall₂ (Meets start) ((if present then [(marker, amount)] else []) ++ stops)
      (shifts.map Shift.old))
    (chain : (before :: shifts.map Shift.places).IsChain Closer) :
    ∃ place others, shifts = (if present then [⟨marker, place⟩] else []) ++ others ∧
      place.1.bytes = start.bytes + amount ∧ Closer before place ∧
      List.Forall₂ (Meets start) stops (others.map Shift.old) ∧
      (place :: others.map Shift.places).IsChain Closer := by
  cases present with
  | true =>
    obtain ⟨old, new, others, rfl, due, later⟩ := Meets.cons meets
    obtain ⟨closer, chain⟩ := List.isChain_cons_cons.mp chain
    rw [inBytes, inBytes] at due
    exact ⟨(old, new), others, rfl, due, closer, later, chain⟩
  | false =>
    obtain ⟨next, later, rfl, inBytes'⟩ := absent rfl
    obtain ⟨old, new, others, rfl, due, _⟩ := Meets.cons meets
    obtain ⟨closer, chain⟩ := List.isChain_cons_cons.mp chain
    rw [inBytes', inBytes'] at due
    exact ⟨(old, new), _, rfl, due, closer, meets, List.isChain_cons_cons.mpr ⟨.refl _, chain⟩⟩

/-- A clause in front of closings, where they are now. -/
theorem Meets.before {start : Point} {marker : Marker} {amount : Nat} {place : Point × Point}
    {stops : List (Marker × Nat)} {shifts : List Shift} (present : Bool)
    (due : place.2.along marker = start.along marker + amount)
    (later : List.Forall₂ (Meets start) stops (shifts.map Shift.new)) :
    List.Forall₂ (Meets start) ((if present then [(marker, amount)] else []) ++ stops)
      (((if present then [Shift.mk marker place] else []) ++ shifts).map Shift.new) := by
  cases present with
  | true => exact .cons ⟨rfl, due⟩ later
  | false => exact later

/-- Without a cleanup, a block ends where its handler does. -/
theorem TryBlock.next_of_no_finally (handlers : TryBlock) (absent : handlers.hasFinally = false) :
    ∃ next later, [(Marker.endTry, handlers.trySize.toNat + handlers.catchSize.toNat +
        handlers.finallySize.toNat)] =
      (next, handlers.trySize.toNat + handlers.catchSize.toNat) :: later ∧
        ∀ point : Point, point.along next = point.bytes := by
  rw [finallySize_of_absent absent]
  exact ⟨_, _, rfl, fun _ => rfl⟩

/-- Without a handler, the cleanup or the end comes where the guarded code ends. -/
theorem TryBlock.next_of_no_catch (handlers : TryBlock) (absent : handlers.hasCatch = false) :
    ∃ next later, (if handlers.hasFinally then
          [(Marker.finallyStart, handlers.trySize.toNat + handlers.catchSize.toNat)] else []) ++
        [(.endTry, handlers.trySize.toNat + handlers.catchSize.toNat +
          handlers.finallySize.toNat)] =
      (next, handlers.trySize.toNat) :: later ∧
        ∀ point : Point, point.along next = point.bytes := by
  rw [catchSize_of_absent absent]
  cases present : handlers.hasFinally with
  | true => exact ⟨_, _, rfl, fun _ => rfl⟩
  | false =>
    rw [finallySize_of_absent present]
    exact ⟨_, _, rfl, fun _ => rfl⟩

/-- **Closings of an exception block that have come closer are those of smaller sizes.** -/
theorem Matches.shrink_exception {handlers : TryBlock} {start start' : Point} {shifts : List Shift}
    (matched : Matches (.exception handlers) start (shifts.map Shift.old))
    (chain : ((start, start') :: shifts.map Shift.places).IsChain Closer) :
    ∃ trySize catchSize finallySize : UInt16,
      Matches (.exception (handlers.sized trySize catchSize finallySize)) start'
        (shifts.map Shift.new) := by
  have meets := matched.meets
  rw [Block.ends, List.append_assoc] at meets
  obtain ⟨first, shifts, rfl, due, closer, meets, chain⟩ :=
    Meets.clause (fun _ => rfl) handlers.next_of_no_catch meets chain
  obtain ⟨second, shifts, rfl, due', closer', meets, chain⟩ :=
    Meets.clause (fun _ => rfl) handlers.next_of_no_finally meets chain
  obtain ⟨stop, stop', others, rfl, due'', later⟩ := Meets.cons meets
  obtain rfl := Meets.nil later
  obtain ⟨closer'', _⟩ := List.isChain_cons_cons.mp chain
  change stop.bytes = start.bytes + _ at due''
  -- The three spans shrink one after another, each from the point where the one before ends.
  obtain ⟨trySize, moved, _⟩ := closer.resize handlers.trySize due
  obtain ⟨catchSize, moved', zero⟩ := closer'.resize handlers.catchSize (by omega)
  obtain ⟨finallySize, moved'', zero'⟩ := closer''.resize handlers.finallySize
    (show stop.bytes = second.1.bytes + _ by omega)
  change first.2.bytes = start'.bytes + _ at moved
  change stop'.bytes = second.2.bytes + _ at moved''
  refine ⟨trySize, catchSize, finallySize, ?_⟩
  unfold Matches
  rw [Block.ends, TryBlock.hasCatch_sized zero, TryBlock.hasFinally_sized zero',
    List.append_assoc]
  refine Meets.before handlers.hasCatch moved (Meets.before handlers.hasFinally ?_
    (List.Forall₂.cons (⟨rfl, ?_⟩ : Meets _ _ ⟨.endTry, stop'⟩) .nil))
  · show second.2.bytes = start'.bytes + (trySize.toNat + catchSize.toNat)
    omega
  · show stop'.bytes = start'.bytes + (trySize.toNat + catchSize.toNat + finallySize.toNat)
    omega

/-- **Closings that have come closer to the start of their block are those of smaller sizes.** -/
theorem Matches.shrink {block : Block} {start start' : Point} {shifts : List Shift}
    (matched : Matches block start (shifts.map Shift.old))
    (chain : ((start, start') :: shifts.map Shift.places).IsChain Closer) :
    ∃ other : Block, other.unsized = block.unsized ∧
      Matches other start' (shifts.map Shift.new) := by
  cases block with
  | scope size =>
    obtain ⟨stop, stop', others, rfl, due, later⟩ := Meets.cons matched.meets
    obtain rfl := Meets.nil later
    obtain ⟨closer, _⟩ := List.isChain_cons_cons.mp chain
    obtain ⟨size', due', _⟩ := closer.resize size due
    exact ⟨.scope size', rfl, .cons ⟨rfl, due'⟩ .nil⟩
  | wait frame skipCount =>
    obtain ⟨stop, stop', others, rfl, due, later⟩ := Meets.cons matched.meets
    obtain rfl := Meets.nil later
    obtain ⟨closer, _⟩ := List.isChain_cons_cons.mp chain
    obtain ⟨skipCount', due'⟩ := closer.recount skipCount due
    exact ⟨.wait frame skipCount', rfl, .cons ⟨rfl, due'⟩ .nil⟩
  | exception handlers =>
    obtain ⟨trySize, catchSize, finallySize, matched⟩ := matched.shrink_exception chain
    exact ⟨.exception (handlers.sized trySize catchSize finallySize), rfl, matched⟩

/-- After a flat piece the same closings are due. -/
theorem Tidy.tail_of_flat {point : Point} {piece : Piece} {rest : List Piece} {stack : List Pending}
    (tidy : Tidy point (piece :: rest) stack) (flat : piece.action.Flat) :
    Tidy (point.after piece) rest stack := by
  cases tidy with
  | flat _ later => exact later
  | opening opens => exact absurd flat (Action.not_flat_of_block opens)
  | closing closes => exact absurd flat (Action.not_flat_of_closes closes)

/-- A marker is kept as it is. -/
theorem Kept.eq_ofMarker {marker : Marker} {other : Piece} (kept : Kept (.ofMarker marker) other) :
    other = .ofMarker marker := by
  have isMarker := Action.eq_marker_of_hollow kept.same
  have bytes : other.bytes = 0 := Nat.le_zero.mp kept.bytes
  have records : other.records = 0 := kept.records
  obtain ⟨action, _, _⟩ := other
  dsimp only at isMarker bytes records
  rw [isMarker, bytes, records]
  rfl

/-- A block is kept up to its sizes. -/
theorem Kept.recastShell_resized {piece other : Piece} (kept : Kept piece other)
    {block resized : Block} (opens : piece.action = .plain (.block block))
    (same : resized.unsized = block.unsized) :
    Piece.recastShell Instruction.unsized { other with action := .plain (.block resized) } =
      other.recastShell Instruction.unsized := by
  have blocks := Action.block?_of_hollow kept.same
  rw [opens] at blocks
  obtain ⟨current, isCurrent, sizes⟩ := Option.map_eq_some_iff.mp blocks.symm
  unfold Piece.recastShell
  rw [Action.eq_block_of_block? isCurrent]
  show Piece.mk (.plain (.block resized.unsized)) _ _ =
    Piece.mk (.plain (.block current.unsized)) _ _
  rw [same, sizes]

/-- **Closings that match their blocks match them when pieces shrink**, once the blocks have other
sizes. -/
theorem Shrinks.tidy {pieces others : List Piece} (shrinks : Shrinks pieces others) {old : Point}
    {stack : List Pending} (tidy : Tidy old pieces stack) (new : Point) :
    ∃ (sized : List Piece) (shifts : List Shift),
      sized.map (Piece.recastShell Instruction.unsized) =
        others.map (Piece.recastShell Instruction.unsized) ∧
      stack = shifts.map Shift.old ∧ Tidy new sized (shifts.map Shift.new) ∧
      ((old, new) :: shifts.map Shift.places).IsChain Closer := by
  induction shrinks generalizing old stack new with
  | nil =>
    cases tidy
    exact ⟨[], [], rfl, rfl, .nil new, .singleton _⟩
  | @keep piece other pieces others kept later ih =>
    have closer := kept.closer old new
    cases tidy with
    | flat flat tidy =>
      obtain ⟨sized, shifts, same, isStack, tidy', chain⟩ := ih tidy (new.after other)
      refine ⟨other :: sized, shifts, congrArg (_ :: ·) same, isStack,
        .flat (flat.of_hollow kept.same) tidy', isChain_closer_of_head closer chain⟩
    | @opening _ _ block _ own stack opens matched tidy =>
      obtain ⟨sized, shifts, same, isStack, tidy', chain⟩ := ih tidy (new.after other)
      obtain ⟨ours, theirs, rfl, rfl, rfl⟩ := List.map_eq_append_iff.mp isStack.symm
      rw [List.map_append] at chain tidy'
      have front : ((old.after piece, new.after other) :: ours.map Shift.places).IsChain Closer :=
        List.IsChain.left_of_append chain
      obtain ⟨resized, sizes, matched'⟩ := matched.shrink front
      exact ⟨{ other with action := .plain (.block resized) } :: sized, theirs,
        congrArg₂ List.cons (kept.recastShell_resized opens sizes) same, rfl,
        .opening rfl matched' tidy', isChain_closer_of_head closer (isChain_closer_right chain)⟩
    | @closing _ marker rest stack closes tidy =>
      obtain ⟨sized, shifts, same, rfl, tidy', chain⟩ := ih tidy new
      obtain rfl := kept.eq_ofMarker
      exact ⟨.ofMarker marker :: sized, ⟨marker, old, new⟩ :: shifts, congrArg (_ :: ·) same, rfl,
        .closing closes tidy', List.isChain_cons_cons.mpr ⟨.refl _, chain⟩⟩
  | @join piece next both pieces others pushes pushes' pushes'' bytes long one records later ih =>
    obtain ⟨sized, shifts, same, isStack, tidy', chain⟩ :=
      ih (tidy.tail_of_flat (Action.flat_of_pushed pushes)) (new.into piece)
    rcases sized with _ | ⟨first, sized⟩
    · cases same
    · obtain ⟨isNext, same⟩ := List.cons.inj same
      obtain ⟨kept, bytes', records'⟩ := Piece.mk.inj isNext
      have flat := Action.flat_of_pushed pushes'
      have equal := Action.eq_of_recastShell_unsized kept.symm flat.block
      rw [equal] at flat
      have tidy'' := tidy'.tail_of_flat flat
      rw [Point.after_into (bytes' ▸ bytes) long (records.trans records'.symm)] at tidy''
      exact ⟨both :: sized, shifts, congrArg (_ :: ·) same, isStack,
        .flat (Action.flat_of_pushed pushes'') tidy'',
        isChain_closer_of_head (closer_into long old new) chain⟩

/-! ### Shorter offsets -/

/-- An action without offset, sizes and code, if it pushes nothing. -/
def Action.spot (action : Action) : Option Action :=
  if action.pushed = [] then some action.hollow else none

/-- What pushes nothing stays, and comes closer. -/
theorem Shrinks.spots {pieces others : List Piece} (shrinks : Shrinks pieces others)
    (old new : Point) :
    ∃ spots : List (Action × Point × Point),
      marksOf Action.spot old.bytes pieces = spots.map (fun spot => (spot.1, spot.2.1.bytes)) ∧
      marksOf Action.spot new.bytes others = spots.map (fun spot => (spot.1, spot.2.2.bytes)) ∧
      ((old, new) :: spots.map Prod.snd).IsChain Closer := by
  induction shrinks generalizing old new with
  | nil => exact ⟨[], rfl, rfl, .singleton _⟩
  | @keep piece other pieces others kept later ih =>
    obtain ⟨spots, isOld, isNew, chain⟩ := ih (old.after piece) (new.after other)
    have chain' := isChain_closer_of_head (kept.closer old new) chain
    have pushed := Action.pushed_of_hollow kept.same
    change marksOf Action.spot (old.bytes + piece.bytes) pieces = _ at isOld
    change marksOf Action.spot (new.bytes + other.bytes) others = _ at isNew
    by_cases empty : piece.action.pushed = []
    · have isSpot : piece.action.spot = some piece.action.hollow := if_pos empty
      have isSpot' : other.action.spot = some piece.action.hollow := by
        rw [kept.same]
        exact if_pos (pushed.symm.trans empty)
      refine ⟨(piece.action.hollow, old, new) :: spots, ?_, ?_,
        List.isChain_cons_cons.mpr ⟨.refl _, chain'⟩⟩
      · rw [marksOf, isSpot, isOld]
        rfl
      · rw [marksOf, isSpot', isNew]
        rfl
    · have isSpot : piece.action.spot = none := if_neg empty
      have isSpot' : other.action.spot = none := if_neg fun equal => empty (pushed.trans equal)
      refine ⟨spots, ?_, ?_, chain'⟩
      · rw [marksOf, isSpot, isOld]
        rfl
      · rw [marksOf, isSpot', isNew]
        rfl
  | @join piece next both pieces others pushes pushes' pushes'' bytes long one records later ih =>
    obtain ⟨spots, isOld, isNew, chain⟩ := ih (old.after piece) (new.into piece)
    have isSpot : piece.action.spot = none := if_neg pushes
    have isSpot' : next.action.spot = none := if_neg pushes'
    have isSpot'' : both.action.spot = none := if_neg pushes''
    have after := congrArg Point.bytes (Point.after_into bytes long records new)
    change (new.into piece).bytes + next.bytes = new.bytes + both.bytes at after
    rw [marksOf, isSpot', after] at isNew
    refine ⟨spots, ?_, ?_, isChain_closer_of_head (closer_into long old new) chain⟩
    · rw [marksOf, isSpot]
      exact isOld
    · rw [marksOf, isSpot'']
      exact isNew

/-- The labels of a sequence stay. -/
theorem Shrinks.labels {pieces others : List Piece} (shrinks : Shrinks pieces others) :
    (labelMarks others).map Prod.fst = (labelMarks pieces).map Prod.fst := by
  have unlabelled : ∀ {action : Action}, action.pushed ≠ [] → action.label? = none := by
    intro action pushes
    cases action with
    | marker found => exact absurd rfl pushes
    | _ => rfl
  unfold labelMarks
  rw [map_fst_marksOf, map_fst_marksOf]
  induction shrinks with
  | nil => rfl
  | @keep piece other pieces others kept later ih =>
    rw [List.filterMap_cons, List.filterMap_cons, Action.label?_of_hollow kept.same, ih]
  | @join piece next both pieces others pushes pushes' pushes'' bytes long one records later ih =>
    rw [List.filterMap_cons, unlabelled pushes'] at ih
    rw [List.filterMap_cons, List.filterMap_cons, unlabelled pushes, unlabelled pushes'']
    exact ih

/-- What is left of an action that pushes nothing is where the action is. -/
theorem mem_marksOf_spot {position : Nat} {pieces : List Piece} {rest : Action} {place : Nat} :
    (rest, place) ∈ marksOf Action.spot position pieces ↔
      ∃ action, (action, place) ∈ marksOf some position pieces ∧ action.pushed = [] ∧
        action.hollow = rest := by
  rw [mem_marksOf]
  refine exists_congr fun action => and_congr_right fun _ => ?_
  unfold Action.spot
  by_cases empty : action.pushed = []
  · rw [if_pos empty, Option.some_inj]
    exact (and_iff_right empty).symm
  · rw [if_neg empty]
    exact ⟨fun equal => (by cases equal), fun both => absurd both.1 empty⟩

/-- An offset that gets no longer still fits. -/
theorem Closer.reaches {branch label : Point × Point}
    (closer : Closer branch label ∨ Closer label branch)
    (fits : Branch.reaches ((label.1.bytes : Int) - (branch.1.bytes + Branch.width : Nat)) = true) :
    Branch.reaches ((label.2.bytes : Int) - (branch.2.bytes + Branch.width : Nat)) = true := by
  unfold Branch.reaches at fits ⊢
  rw [Bool.and_eq_true, decide_eq_true_eq, decide_eq_true_eq] at fits ⊢
  rw [show Branch.width = 5 from rfl] at fits ⊢
  rcases closer with closer | closer
  · have bytes := closer.bytes
    have shorter := closer.shorter
    omega
  · have bytes := closer.bytes
    have shorter := closer.shorter
    omega

/-- What pushes nothing on one side is on the other as well. -/
theorem exists_of_spots {spots : List (Action × Point × Point)} {first second : Point × Point → Point}
    {pieces others : List Piece} {position position' : Nat}
    (one : marksOf Action.spot position pieces =
      spots.map fun spot => (spot.1, (first spot.2).bytes))
    (two : marksOf Action.spot position' others =
      spots.map fun spot => (spot.1, (second spot.2).bytes))
    {action : Action} {place : Nat} (inside : (action, place) ∈ marksOf some position pieces)
    (empty : action.pushed = []) :
    ∃ places ∈ spots.map Prod.snd, (first places).bytes = place ∧
      ∃ other, (other, (second places).bytes) ∈ marksOf some position' others ∧
        other.hollow = action.hollow := by
  have isSpot := mem_marksOf_spot.mpr ⟨action, inside, empty, rfl⟩
  rw [one] at isSpot
  obtain ⟨⟨rest, places⟩, member, equal⟩ := List.mem_map.mp isSpot
  obtain ⟨rfl, rfl⟩ := Prod.mk.inj equal
  have isSpot' : (action.hollow, (second places).bytes) ∈
      marksOf Action.spot position' others := by
    rw [two]
    exact List.mem_map.mpr ⟨_, member, rfl⟩
  obtain ⟨other, inside', _, same⟩ := mem_marksOf_spot.mp isSpot'
  exact ⟨places, List.mem_map.mpr ⟨_, member, rfl⟩, rfl, other, inside', same⟩

/-- **Branches that went to their labels can go there after pieces have shrunk.** -/
theorem Shrinks.reaches {pieces others : List Piece} (shrinks : Shrinks pieces others)
    (aimed : Aimed pieces) {branch : Branch} {place : Nat}
    (isBranch : (branch, place) ∈ branchMarks others) {label : Label}
    (labelled : branch.label = some label) :
    ∃ target : Nat, (label, target) ∈ labelMarks others ∧
      Branch.reaches ((target : Int) - (place + Branch.width : Nat)) = true := by
  obtain ⟨spots, isOld, isNew, chain⟩ := shrinks.spots ⟨0, 0⟩ ⟨0, 0⟩
  have close : ∀ ⦃first⦄, first ∈ spots.map Prod.snd → ∀ ⦃second⦄, second ∈ spots.map Prod.snd →
      Closer first second ∨ Closer second first := by
    have symm : Std.Symm fun first second => Closer first second ∨ Closer second first :=
      ⟨fun _ _ => Or.symm⟩
    exact ((List.isChain_iff_pairwise.mp chain.tail).imp .inl).forall_of_forall
      fun place _ => .inl (.refl place)
  -- the branch as it was
  obtain ⟨action, isAction, seen⟩ := mem_marksOf.mp isBranch
  have silent : action.pushed = [] := by
    rw [Action.eq_branch_of_branch? seen]
    rfl
  obtain ⟨own, inside, rfl, former, wasAction, same⟩ :=
    exists_of_spots isNew isOld isAction silent
  have labels := Action.branch?_of_hollow same
  rw [seen, Option.map_some, labelled] at labels
  obtain ⟨jump, wasBranch, labelled'⟩ := Option.map_eq_some_iff.mp labels
  -- its label, and where that is now
  obtain ⟨target, wasLabel, goes⟩ := aimed.hits (jump, own.1.bytes)
    (mem_marksOf.mpr ⟨former, wasAction, wasBranch⟩) label labelled'
  obtain ⟨marker, wasMarker, isLabel⟩ := mem_marksOf.mp wasLabel
  have silent' : marker.pushed = [] := by
    cases marker with
    | marker found => rfl
    | _ => cases isLabel
  obtain ⟨there, inside', rfl, later, isMarker, same'⟩ :=
    exists_of_spots isOld isNew wasMarker silent'
  have isLabel' : later.label? = some label := by
    rw [Action.label?_of_hollow same', isLabel]
  refine ⟨there.2.bytes, mem_marksOf.mpr ⟨later, isMarker, isLabel'⟩, ?_⟩
  exact Closer.reaches (close inside inside') (Branch.target_eq_iff.mp goes).1

/-- A branch that can reach its label can be given the offset. -/
theorem Action.exists_aimed {marks : List (Label × Nat)} {position : Nat} {action : Action}
    (reach : ∀ branch, action.branch? = some branch → ∀ label, branch.label = some label →
      ∃ target : Nat, (label, target) ∈ marks ∧
        Branch.reaches ((target : Int) - (position + Branch.width : Nat)) = true) :
    ∃ own : Action, own.recastShell Instruction.unaimed = action.recastShell Instruction.unaimed ∧
      ∀ branch, own.branch? = some branch → ∀ label, branch.label = some label →
        ∃ target : Nat, (label, target) ∈ marks ∧ branch.target position = target := by
  by_cases isBranch : ∃ branch label, action.branch? = some branch ∧ branch.label = some label
  · obtain ⟨⟨conditional, offset, _⟩, label, isBranch, rfl⟩ := isBranch
    obtain ⟨target, inside, reaches⟩ := reach _ isBranch label rfl
    refine ⟨.plain (.branch ⟨conditional,
      Int16.ofInt ((target : Int) - (position + Branch.width : Nat)), some label⟩), ?_, ?_⟩
    · rw [Action.eq_branch_of_branch? isBranch]
      rfl
    · rintro _ ⟨⟩ _ ⟨⟩
      exact ⟨target, inside, Branch.target_eq_iff.mpr ⟨reaches, rfl⟩⟩
  · exact ⟨action, rfl, fun branch isOwn label labelled =>
      absurd ⟨branch, label, isOwn, labelled⟩ isBranch⟩

/-- Branches that can reach their labels can be given the offsets. -/
theorem exists_aimed {marks : List (Label × Nat)} {position : Nat} {pieces : List Piece}
    (reach : ∀ mark ∈ marksOf Action.branch? position pieces, ∀ label,
      mark.1.label = some label → ∃ target : Nat, (label, target) ∈ marks ∧
        Branch.reaches ((target : Int) - (mark.2 + Branch.width : Nat)) = true) :
    ∃ others : List Piece, others.map (Piece.recastShell Instruction.unaimed) =
        pieces.map (Piece.recastShell Instruction.unaimed) ∧
      ∀ mark ∈ marksOf Action.branch? position others, ∀ label, mark.1.label = some label →
        ∃ target : Nat, (label, target) ∈ marks ∧ mark.1.target mark.2 = target := by
  induction pieces generalizing position with
  | nil => exact ⟨[], rfl, fun mark inside => by cases inside⟩
  | cons piece rest ih =>
    obtain ⟨others, same, later⟩ := ih fun mark inside =>
      reach mark (marksOf_cons_iff.mpr (.inr inside))
    obtain ⟨action, bytes, records⟩ := piece
    obtain ⟨own, same', here⟩ := Action.exists_aimed fun branch isBranch =>
      reach (branch, position) (marksOf_cons_iff.mpr (.inl ⟨isBranch, rfl⟩))
    refine ⟨⟨own, bytes, records⟩ :: others, ?_, ?_⟩
    · refine congrArg₂ List.cons ?_ same
      exact congrArg (Piece.mk · bytes records) same'
    · intro mark inside label labelled
      rcases marksOf_cons_iff.mp inside with ⟨isOwn, isHere⟩ | inside
      · rw [isHere]
        exact here mark.1 isOwn label labelled
      · exact later mark inside label labelled

/-! ### Settled pieces -/

/-- What closings depend on in a piece. -/
def Piece.face (piece : Piece) : Option Block × Option Marker × Nat × Nat :=
  (piece.action.block?, piece.action.closing?, piece.bytes, piece.records)

theorem exists_cons_of_faces {piece : Piece} {rest others : List Piece}
    (same : (piece :: rest).map Piece.face = others.map Piece.face) :
    ∃ action later, others = ⟨action, piece.bytes, piece.records⟩ :: later ∧
      piece.action.block? = action.block? ∧ piece.action.closing? = action.closing? ∧
      rest.map Piece.face = later.map Piece.face := by
  obtain ⟨⟨action, bytes, records⟩, later, rfl, first, sames⟩ :=
    List.map_eq_cons_iff.mp same.symm
  obtain ⟨block, closing, rfl, rfl⟩ : _ ∧ _ ∧ bytes = piece.bytes ∧ records = piece.records := by
    simpa [Piece.face] using first
  exact ⟨action, later, rfl, block.symm, closing.symm, sames.symm⟩

/-- **Pieces with the same faces have the same closings.** -/
theorem Tidy.of_face {point : Point} {pieces others : List Piece} {stack : List Pending}
    (tidy : Tidy point pieces stack) (same : pieces.map Piece.face = others.map Piece.face) :
    Tidy point others stack := by
  induction tidy generalizing others with
  | nil point =>
    rw [List.map_eq_nil_iff.mp same.symm]
    exact .nil point
  | flat flat later ih =>
    obtain ⟨action, others, rfl, block, closing, sames⟩ := exists_cons_of_faces same
    exact .flat ⟨block.symm.trans flat.block, closing.symm.trans flat.closing⟩ (ih sames)
  | opening opens matched later ih =>
    obtain ⟨action, others, rfl, block, _, sames⟩ := exists_cons_of_faces same
    rw [opens] at block
    exact .opening (Action.eq_block_of_block? block.symm) matched (ih sames)
  | closing closes later ih =>
    obtain ⟨action, others, rfl, _, closing, sames⟩ := exists_cons_of_faces same
    rw [Piece.ofMarker, Action.closing?_marker closes] at closing
    rw [Action.eq_marker_of_closing? closing.symm]
    exact .closing closes (ih sames)

theorem face_recastShell_unaimed (piece : Piece) :
    (piece.recastShell Instruction.unaimed).face = piece.face := by
  obtain ⟨action, bytes, records⟩ := piece
  cases action with
  | plain instruction => cases instruction <;> rfl
  | _ => rfl

theorem Action.branch?_recastShell_unsized (action : Action) :
    (action.recastShell Instruction.unsized).branch? = action.branch? := by
  cases action with
  | plain instruction => cases instruction <;> rfl
  | _ => rfl

theorem map_recastShell_blank (pieces : List Piece) :
    pieces.map (Piece.recastShell Instruction.blank) =
      (pieces.map (Piece.recastShell Instruction.unaimed)).map
        (Piece.recastShell Instruction.unsized) := by
  rw [List.map_map]
  refine List.map_congr_left fun piece _ => ?_
  obtain ⟨action, bytes, records⟩ := piece
  cases action <;> rfl

theorem map_recastShell_unsized_unaimed (pieces : List Piece) :
    (pieces.map (Piece.recastShell Instruction.unaimed)).map
        (Piece.recastShell Instruction.unsized) =
      (pieces.map (Piece.recastShell Instruction.unsized)).map
        (Piece.recastShell Instruction.unaimed) := by
  rw [List.map_map, List.map_map]
  refine List.map_congr_left fun piece _ => ?_
  obtain ⟨action, bytes, records⟩ := piece
  cases action with
  | plain instruction =>
    exact congrArg (fun instruction => Piece.mk (.plain instruction) bytes records)
      (congrFun (Instruction.blank_eq.symm.trans Instruction.blank_eq') instruction)
  | _ => rfl

/-- **Pieces that shrink can be given sizes and offsets** if they had them. -/
theorem Shrinks.settle {pieces others : List Piece} (shrinks : Shrinks pieces others)
    (tidy : Tidy ⟨0, 0⟩ pieces []) (aimed : Aimed pieces) :
    ∃ results : List Piece, results.map (Piece.recastShell Instruction.blank) =
        others.map (Piece.recastShell Instruction.blank) ∧
      Tidy ⟨0, 0⟩ results [] ∧ Aimed results := by
  obtain ⟨sized, shifts, same, isStack, tidy', _⟩ := shrinks.tidy tidy ⟨0, 0⟩
  obtain rfl := List.map_eq_nil_iff.mp isStack.symm
  have branches : branchMarks sized = branchMarks others := by
    unfold branchMarks
    rw [← marksOf_recastShell Action.branch?_recastShell_unsized, same,
      marksOf_recastShell Action.branch?_recastShell_unsized]
  have labels : labelMarks sized = labelMarks others := by
    unfold labelMarks
    rw [← marksOf_recastShell (label?_recastShell Instruction.unsized), same,
      marksOf_recastShell (label?_recastShell Instruction.unsized)]
  -- branches reach their labels, so that they can be given offsets
  have reach : ∀ mark ∈ branchMarks sized, ∀ label, mark.1.label = some label →
      ∃ target : Nat, (label, target) ∈ labelMarks sized ∧
        Branch.reaches ((target : Int) - (mark.2 + Branch.width : Nat)) = true := by
    intro mark inside label labelled
    rw [branches] at inside
    rw [labels]
    exact shrinks.reaches aimed inside labelled
  obtain ⟨results, same', hits⟩ := exists_aimed reach
  have labels' : labelMarks results = labelMarks sized := by
    unfold labelMarks
    rw [← marksOf_recastShell (label?_recastShell Instruction.unaimed), same',
      marksOf_recastShell (label?_recastShell Instruction.unaimed)]
  refine ⟨results, ?_, tidy'.of_face ?_, ?_, ?_⟩
  · rw [map_recastShell_blank, map_recastShell_blank, same', map_recastShell_unsized_unaimed, same,
      map_recastShell_unsized_unaimed]
  · have faces : ∀ pieces : List Piece,
        (pieces.map (Piece.recastShell Instruction.unaimed)).map Piece.face =
          pieces.map Piece.face := by
      intro pieces
      rw [List.map_map]
      exact List.map_congr_left fun piece _ => face_recastShell_unaimed piece
    rw [← faces, ← same', faces]
  · rw [labels', labels, shrinks.labels]
    exact aimed.once
  · rw [labels']
    exact hits

/-! ### Joined records -/

/-- An action takes the place of a piece, with no more room, and as much if it is a push. -/
structure Fills (piece : Piece) (action : Action) : Prop where
  same : piece.action.hollow = action.hollow
  bytes : action.width ≤ piece.bytes
  emptied : action.width = 0 → piece.bytes = 0
  records : action.recordCount = piece.records
  pushes : action.pushed ≠ [] → piece.bytes = action.width

theorem Fills.kept {piece : Piece} {action : Action} (fills : Fills piece action) :
    Kept piece action.alone := ⟨fills.same, fills.bytes, fills.emptied, fills.records⟩

theorem Action.hollow_of_pushed {action : Action} (some : action.pushed ≠ []) :
    action.hollow = .plain (.pushList action.pushed) := by
  obtain ⟨_, rfl⟩ | ⟨_, _, rfl⟩ := action.eq_of_pushed some <;> rfl

/-- A push in the form it has among joined ones. -/
theorem Fills.pushOf {piece : Piece} {action : Action} (fills : Fills piece action)
    (some : action.pushed ≠ []) : Fills piece (ActionCode.pushOf action.pushed) := by
  have pushes : (ActionCode.pushOf action.pushed).pushed ≠ [] := by rwa [pushed_pushOf]
  have width : (ActionCode.pushOf action.pushed).width = action.width := by
    rw [width_of_pushed some, width_pushOf some]
  refine ⟨?_, width ▸ fills.bytes, width ▸ fills.emptied, ?_, fun _ => width ▸ fills.pushes some⟩
  · rw [fills.same, Action.hollow_of_pushed some, Action.hollow_of_pushed pushes, pushed_pushOf]
  · rw [← fills.records, recordCount_of_pushed some, recordCount_of_pushed pushes]

/-- **Actions whose pushes are joined shrink the pieces whose places they take.** -/
theorem shrinks_fuse {pieces : List Piece} {actions : List Action}
    (fills : List.Forall₂ Fills pieces actions) :
    Shrinks pieces ((fuse actions).map Action.alone) := by
  induction fills with
  | nil => exact .nil
  | @cons piece action pieces actions first later ih =>
    by_cases empty : action.pushed = []
    · rw [fuse_unpushed empty, List.map_cons]
      exact .keep first.kept ih
    · rw [fuse_pushed empty]
      have merged := merged_fuse actions
      cases isLater : fuse actions with
      | nil =>
        rw [isLater] at ih
        rw [joinRun_end empty, List.map_cons]
        exact .keep (first.pushOf empty).kept ih
      | cons next rest =>
        rw [isLater] at ih merged
        by_cases apart : next.pushed = []
        · rw [joinRun_apart empty apart, List.map_cons]
          exact .keep (first.pushOf empty).kept ih
        · have own := merged.head apart
          have both : action.pushed ++ next.pushed ≠ [] := fun equal =>
            empty (List.append_eq_nil_iff.mp equal).1
          have pushes : (pushOf (action.pushed ++ next.pushed)).pushed ≠ [] := by
            rwa [pushed_pushOf]
          rw [joinRun_pushed _ apart own, List.map_cons]
          rw [List.map_cons] at ih
          refine .join ?_ apart pushes ?_ ?_ ?_ ?_ ih
          · rw [Action.pushed_of_hollow first.same]
            exact empty
          · show (pushOf (action.pushed ++ next.pushed)).width + headWidth =
              piece.bytes + next.width
            rw [width_pushOf_append empty apart, ← own, first.pushes empty, width_pushOf empty,
              width_of_pushed empty]
          · rw [first.pushes empty]
            exact headWidth_lt_width empty
          · rw [← first.records]
            exact recordCount_of_pushed empty
          · show (pushOf (action.pushed ++ next.pushed)).recordCount = next.recordCount
            rw [recordCount_of_pushed pushes, recordCount_of_pushed apart]

end ActionCode
