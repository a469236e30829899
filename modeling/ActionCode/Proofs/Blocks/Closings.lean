/-
**Where the closings of decoded blocks go.**

The disassembler collects closings index by index, block after block, and weaves them in at the end.
The same sequence arises from the back: **each block enters its closings into what comes after it**,
and a closing goes behind those that are there already.

* `insertClosing`: a closing after so much room, behind the closings of that point.
* `placed`: all closings of a list of pieces.
* **`placeClosings_ok_iff`**: closings are placed exactly if every span ends where an action ends.
-/

import ActionCode.Disassembly.Spans
import ActionCode.Proofs.Blocks.Pieces

namespace ActionCode

/-! ### Spans and the room they take -/

/-- The room of a piece in the unit of a closing: waits are measured in records, other blocks in
bytes. -/
def Marker.room : Marker → Piece → Nat
  | .endWait => Piece.records
  | _ => Piece.bytes

@[simp]
theorem Marker.room_endWith : Marker.endWith.room = Piece.bytes := rfl

@[simp]
theorem Marker.room_endWait : Marker.endWait.room = Piece.records := rfl

@[simp]
theorem Marker.room_catchStart : Marker.catchStart.room = Piece.bytes := rfl

@[simp]
theorem Marker.room_finallyStart : Marker.finallyStart.room = Piece.bytes := rfl

@[simp]
theorem Marker.room_endTry : Marker.endTry.room = Piece.bytes := rfl

@[simp]
theorem Marker.room_ofMarker (unit marker : Marker) : unit.room (.ofMarker marker) = 0 := by
  cases unit <;> rfl

/-- The closings of a block and the room before each, counted from the start of the block. **The
handler of an exception block is marked if it is flagged or not empty**, and its end always. -/
def Block.ends : Block → List (Marker × Nat)
  | .scope size => [(.endWith, size.toNat)]
  | .wait _ skipCount => [(.endWait, skipCount.toNat)]
  | .exception handlers =>
    (if handlers.hasCatch then [(.catchStart, handlers.trySize.toNat)] else []) ++
      (if handlers.hasFinally then
        [(.finallyStart, handlers.trySize.toNat + handlers.catchSize.toNat)] else []) ++
      [(.endTry, handlers.trySize.toNat + handlers.catchSize.toNat + handlers.finallySize.toNat)]

/-- So much room ends where a piece ends. -/
def Aligned (room : Piece → Nat) : Nat → List Piece → Prop
  | 0, _ => True
  | _ + 1, [] => False
  | amount + 1, piece :: rest =>
    room piece ≤ amount + 1 ∧ Aligned room (amount + 1 - room piece) rest

/-- The number of pieces that take so much room. -/
def spanSteps (room : Piece → Nat) : Nat → List Piece → Nat
  | 0, _ => 0
  | _ + 1, [] => 0
  | amount + 1, piece :: rest => spanSteps room (amount + 1 - room piece) rest + 1

@[simp]
theorem aligned_zero (room : Piece → Nat) (pieces : List Piece) : Aligned room 0 pieces := by
  cases pieces <;> trivial

@[simp]
theorem spanSteps_zero (room : Piece → Nat) (pieces : List Piece) : spanSteps room 0 pieces = 0 := by
  cases pieces <;> rfl

theorem aligned_cons {room : Piece → Nat} {amount : Nat} {piece : Piece} {rest : List Piece} :
    0 < amount → (Aligned room amount (piece :: rest) ↔
      room piece ≤ amount ∧ Aligned room (amount - room piece) rest) := by
  intro positive
  cases amount with
  | zero => cases positive
  | succ amount => rfl

theorem spanSteps_cons {room : Piece → Nat} {amount : Nat} {piece : Piece} {rest : List Piece} :
    0 < amount → spanSteps room amount (piece :: rest) =
      spanSteps room (amount - room piece) rest + 1 := by
  intro positive
  cases amount with
  | zero => cases positive
  | succ amount => rfl

/-- **One span after another is a span.** -/
theorem aligned_add {room : Piece → Nat} {first : Nat} {pieces : List Piece}
    (aligned : Aligned room first pieces) (second : Nat) :
    (Aligned room (first + second) pieces ↔
      Aligned room second (pieces.drop (spanSteps room first pieces))) ∧
    spanSteps room (first + second) pieces =
      spanSteps room first pieces +
        spanSteps room second (pieces.drop (spanSteps room first pieces)) := by
  induction pieces generalizing first with
  | nil =>
    cases first with
    | zero => simp
    | succ first => cases aligned
  | cons piece rest ih =>
    by_cases zero : first = 0
    · subst zero
      simp
    · have positive : 0 < first := Nat.pos_of_ne_zero zero
      obtain ⟨fits, aligned⟩ := (aligned_cons positive).mp aligned
      obtain ⟨sameEnd, sameSteps⟩ := ih aligned
      have positive' : 0 < first + second := Nat.add_pos_left positive second
      have left : first + second - room piece = first - room piece + second := by omega
      have fits' : room piece ≤ first + second := Nat.le_add_right_of_le fits
      rw [spanSteps_cons positive, List.drop_succ_cons]
      constructor
      · rw [aligned_cons positive', left, sameEnd]
        exact and_iff_right fits'
      · rw [spanSteps_cons positive', left, sameSteps]
        omega

/-! ### Rows as pieces -/

/-- A row as a piece. -/
def Located.piece (row : Located) : Piece := ⟨row.action, row.span, row.recordCount⟩

@[simp]
theorem Located.action_piece (row : Located) : row.piece.action = row.action := rfl

theorem Located.span_eq (row : Located) : row.span = row.piece.bytes := rfl

theorem Located.recordCount_eq (row : Located) : row.recordCount = row.piece.records := rfl

/-- A walk over a span ends where an action ends, or fails. -/
theorem spanEnd_ok_iff {measure : Located → Nat} {overrun misaligned : DisassemblyFault}
    {room : Piece → Nat} (measured : ∀ row : Located, measure row = room row.piece)
    {rows : List Located} {index amount : Nat} {result : Nat × List Located} :
    spanEnd measure overrun misaligned index amount rows = .ok result ↔
      Aligned room amount (rows.map Located.piece) ∧
        result = (index + spanSteps room amount (rows.map Located.piece),
          rows.drop (spanSteps room amount (rows.map Located.piece))) := by
  induction rows generalizing index amount with
  | nil =>
    cases amount with
    | zero => simp [spanEnd, eq_comm]
    | succ amount => simp [spanEnd, Aligned]
  | cons row rest ih =>
    cases amount with
    | zero => simp [spanEnd, eq_comm]
    | succ amount =>
      have walk : spanEnd measure overrun misaligned index (amount + 1) (row :: rest) =
          if measure row ≤ amount + 1 then
            spanEnd measure overrun misaligned (index + 1) (amount + 1 - measure row) rest
          else .error misaligned := rfl
      rw [walk, List.map_cons, aligned_cons (Nat.succ_pos _), spanSteps_cons (Nat.succ_pos _),
        measured, List.drop_succ_cons, ← Nat.add_assoc, Nat.add_right_comm index]
      by_cases fits : room row.piece ≤ amount + 1
      · rw [if_pos fits, ih, and_iff_right fits]
      · rw [if_neg fits]
        simp [fits]

/-! ### The closings of one block -/

/-- The closings of a block end where pieces end. -/
def Block.Fits (block : Block) (pieces : List Piece) : Prop :=
  ∀ stop ∈ block.ends, Aligned stop.1.room stop.2 pieces

/-- The closings of a block and their indices, if the pieces after the block begin at an index. -/
def Block.closingsAt (block : Block) (index : Nat) (pieces : List Piece) : List Closing :=
  block.ends.map fun stop => ⟨index + spanSteps stop.1.room stop.2 pieces, stop.1⟩

theorem TryBlock.catchSize_of_absent {handlers : TryBlock} (absent : handlers.hasCatch = false) :
    handlers.catchSize.toNat = 0 := by
  rw [hasCatch, Bool.or_eq_false_iff, decide_eq_false_iff_not] at absent
  exact Nat.eq_zero_of_not_pos absent.2

theorem TryBlock.finallySize_of_absent {handlers : TryBlock}
    (absent : handlers.hasFinally = false) : handlers.finallySize.toNat = 0 := by
  rw [hasFinally, Bool.or_eq_false_iff, decide_eq_false_iff_not] at absent
  exact Nat.eq_zero_of_not_pos absent.2

/-- The three spans of an exception block end where pieces end. -/
theorem Block.fits_exception_iff {handlers : TryBlock} {pieces : List Piece} :
    (Block.exception handlers).Fits pieces ↔
      Aligned Piece.bytes handlers.trySize.toNat pieces ∧
      Aligned Piece.bytes (handlers.trySize.toNat + handlers.catchSize.toNat) pieces ∧
      Aligned Piece.bytes
        (handlers.trySize.toNat + handlers.catchSize.toNat + handlers.finallySize.toNat) pieces := by
  unfold Fits ends
  cases hasCatch : handlers.hasCatch with
  | true =>
    cases hasFinally : handlers.hasFinally with
    | true => simp [hasCatch, hasFinally]
    | false =>
      have empty := TryBlock.finallySize_of_absent hasFinally
      simp [hasCatch, hasFinally, empty]
  | false =>
    have empty := TryBlock.catchSize_of_absent hasCatch
    cases hasFinally : handlers.hasFinally with
    | true => simp [hasCatch, hasFinally, empty]
    | false =>
      have empty' := TryBlock.finallySize_of_absent hasFinally
      simp [hasCatch, hasFinally, empty, empty']

/-- A chain of checked steps succeeds if each does. -/
theorem except_bind_ok_iff {ε α β : Type} {first : Except ε α} {next : α → Except ε β} {result : β} :
    (first >>= next) = .ok result ↔ ∃ value, first = .ok value ∧ next value = .ok result := by
  cases first with
  | error fault => exact ⟨nofun, nofun⟩
  | ok value =>
    refine ⟨fun success => ⟨value, rfl, success⟩, ?_⟩
    rintro ⟨_, ⟨⟩, success⟩
    exact success

theorem except_pure_ok_iff {ε α : Type} {value result : α} :
    (pure value : Except ε α) = .ok result ↔ result = value := by
  constructor
  · intro success
    cases success
    rfl
  · rintro rfl
    rfl

/-- A walk over bytes after a span that has been walked over. -/
theorem byteSpanEnd_ok_iff {offset index done : Nat} {size : UInt16} {rows : List Located}
    {result : Nat × List Located} (walked : Aligned Piece.bytes done (rows.map Located.piece)) :
    byteSpanEnd offset (index + spanSteps Piece.bytes done (rows.map Located.piece)) size
        (rows.drop (spanSteps Piece.bytes done (rows.map Located.piece))) = .ok result ↔
      Aligned Piece.bytes (done + size.toNat) (rows.map Located.piece) ∧
        result = (index + spanSteps Piece.bytes (done + size.toNat) (rows.map Located.piece),
          rows.drop (spanSteps Piece.bytes (done + size.toNat) (rows.map Located.piece))) := by
  obtain ⟨sameEnd, sameSteps⟩ := aligned_add walked size.toNat
  unfold byteSpanEnd
  rw [spanEnd_ok_iff Located.span_eq, List.map_drop, sameEnd, List.drop_drop,
    Nat.add_assoc, ← sameSteps]

/-- **The closings of a block are found exactly if its spans end where actions end.** -/
theorem closings_ok_iff {offset index : Nat} {rows : List Located} {block : Block}
    {found : List Closing} :
    closings offset index rows block = .ok found ↔
      block.Fits (rows.map Located.piece) ∧
        found = block.closingsAt index (rows.map Located.piece) := by
  have first : ∀ (size : UInt16) (result : Nat × List Located),
      byteSpanEnd offset index size rows = .ok result ↔
        Aligned Piece.bytes size.toNat (rows.map Located.piece) ∧
          result = (index + spanSteps Piece.bytes size.toNat (rows.map Located.piece),
            rows.drop (spanSteps Piece.bytes size.toNat (rows.map Located.piece))) :=
    fun _ _ => spanEnd_ok_iff Located.span_eq
  rcases block with size | ⟨frame, skipCount⟩ | handlers
  · rw [closings, except_bind_ok_iff]
    simp [first, except_pure_ok_iff, Block.Fits, Block.closingsAt, Block.ends, and_assoc]
  · have walk : ∀ result : Nat × List Located,
        recordSpanEnd offset index skipCount rows = .ok result ↔
          Aligned Piece.records skipCount.toNat (rows.map Located.piece) ∧
            result = (index + spanSteps Piece.records skipCount.toNat (rows.map Located.piece),
              rows.drop (spanSteps Piece.records skipCount.toNat (rows.map Located.piece))) :=
      fun _ => spanEnd_ok_iff Located.recordCount_eq
    rw [closings, except_bind_ok_iff]
    simp [walk, except_pure_ok_iff, Block.Fits, Block.closingsAt, Block.ends, and_assoc]
  · have listed : (Block.exception handlers).closingsAt index (rows.map Located.piece) =
        (if handlers.hasCatch then [Closing.mk (index + spanSteps Piece.bytes
          handlers.trySize.toNat (rows.map Located.piece)) .catchStart] else []) ++
        (if handlers.hasFinally then [Closing.mk (index + spanSteps Piece.bytes
          (handlers.trySize.toNat + handlers.catchSize.toNat) (rows.map Located.piece))
          .finallyStart] else []) ++
        [Closing.mk (index + spanSteps Piece.bytes (handlers.trySize.toNat +
          handlers.catchSize.toNat + handlers.finallySize.toNat) (rows.map Located.piece))
          .endTry] := by
      rw [Block.closingsAt, Block.ends]
      cases handlers.hasCatch <;> cases handlers.hasFinally <;> rfl
    rw [closings, Block.fits_exception_iff, listed]
    simp only [except_bind_ok_iff, except_pure_ok_iff]
    constructor
    · rintro ⟨_, walked, _, walked', _, walked'', rfl⟩
      obtain ⟨tryFits, rfl⟩ := (first _ _).mp walked
      obtain ⟨catchFits, rfl⟩ := (byteSpanEnd_ok_iff tryFits).mp walked'
      obtain ⟨finallyFits, rfl⟩ := (byteSpanEnd_ok_iff catchFits).mp walked''
      exact ⟨⟨tryFits, catchFits, finallyFits⟩, rfl⟩
    · rintro ⟨⟨tryFits, catchFits, finallyFits⟩, rfl⟩
      exact ⟨_, (first _ _).mpr ⟨tryFits, rfl⟩, _,
        (byteSpanEnd_ok_iff tryFits).mpr ⟨catchFits, rfl⟩, _,
        (byteSpanEnd_ok_iff catchFits).mpr ⟨finallyFits, rfl⟩, rfl⟩

/-! ### Placing from the back -/

/-- A closing after so much room, behind the closings that are there already. -/
def insertClosing (marker : Marker) : Nat → List Piece → List Piece
  | _, [] => [.ofMarker marker]
  | amount, piece :: rest =>
    if amount = 0 ∧ piece.action.closing? = none then .ofMarker marker :: piece :: rest
    else piece :: insertClosing marker (amount - marker.room piece) rest

/-- Closings after so much room each, one after another. -/
def insertClosings (stops : List (Marker × Nat)) (pieces : List Piece) : List Piece :=
  stops.foldl (fun pieces stop => insertClosing stop.1 stop.2 pieces) pieces

/-- The closings that the first piece asks for, entered into what comes after it. -/
def Piece.enter (piece : Piece) (later : List Piece) : List Piece :=
  match piece.action.block? with
  | none => later
  | some block => insertClosings block.ends later

/-- Pieces with the closings of their blocks. -/
def placed : List Piece → List Piece
  | [] => []
  | piece :: rest => piece :: piece.enter (placed rest)

/-- Every span ends where a piece ends. -/
def AllFit : List Piece → Prop
  | [] => True
  | piece :: rest => (∀ block, piece.action.block? = some block → block.Fits rest) ∧ AllFit rest

/-! ### Placing by index -/

/-- The closings before each piece and after the last, as they are collected. -/
def gapsOf : List Piece → List (List Marker)
  | [] => [[]]
  | piece :: rest => [] ::
    match piece.action.block? with
    | none => gapsOf rest
    | some block => block.ends.foldl (fun gaps stop =>
        gaps.modify (spanSteps stop.1.room stop.2 rest) (· ++ [stop.1])) (gapsOf rest)

/-- Pieces with the closings before each and after the last. -/
def woven : List (List Marker) → List Piece → List Piece
  | markers :: gaps, piece :: rest => markers.map .ofMarker ++ piece :: woven gaps rest
  | markers :: _, [] => markers.map .ofMarker
  | [], pieces => pieces

theorem length_modifies (stops : List (Marker × Nat)) (index : Marker × Nat → Nat)
    (gaps : List (List Marker)) :
    (stops.foldl (fun gaps stop => gaps.modify (index stop) (· ++ [stop.1])) gaps).length =
      gaps.length := by
  induction stops generalizing gaps with
  | nil => rfl
  | cons stop stops ih => rw [List.foldl_cons, ih, List.length_modify]

@[simp]
theorem length_gapsOf (pieces : List Piece) : (gapsOf pieces).length = pieces.length + 1 := by
  induction pieces with
  | nil => rfl
  | cons piece rest ih =>
    rw [gapsOf, List.length_cons, List.length_cons]
    split
    · rw [ih]
    · rw [length_modifies, ih]

/-- Markers in front of those of a gap, or behind those that come before them. -/
theorem zipWith_modify (gaps others : List (List Marker)) (index : Nat) (marker : Marker) :
    List.zipWith (· ++ ·) gaps (others.modify index (marker :: ·)) =
      List.zipWith (· ++ ·) (gaps.modify index (· ++ [marker])) others := by
  induction gaps generalizing others index with
  | nil => cases index <;> rfl
  | cons gap gaps ih =>
    cases others with
    | nil => cases index <;> rfl
    | cons other others =>
      cases index with
      | zero => simp
      | succ index => simp [ih]

theorem modify_append_right {α : Type} (front back : List α) (index : Nat) (f : α → α) :
    (front ++ back).modify (front.length + index) f = front ++ back.modify index f := by
  induction front with
  | nil => simp
  | cons first front ih =>
    have there : (first :: front).length + index = front.length + index + 1 := by
      rw [List.length_cons]
      omega
    rw [there, List.cons_append, List.modify_succ_cons, ih, List.cons_append]

/-- The closings of one block enter the places after an index. -/
theorem addClosings_toList (stops : List (Marker × Nat)) (pieces : List Piece)
    (front back : List (List Marker)) (gaps : List (List Marker)) (places : Array (List Marker))
    (whole : places.toList = front ++ back) :
    ∃ back', (addClosings places (stops.map fun stop =>
        ⟨front.length + spanSteps stop.1.room stop.2 pieces, stop.1⟩)).toList = front ++ back' ∧
      back'.length = back.length ∧
      List.zipWith (· ++ ·) gaps back' = List.zipWith (· ++ ·)
        (stops.foldl (fun gaps stop =>
          gaps.modify (spanSteps stop.1.room stop.2 pieces) (· ++ [stop.1])) gaps) back := by
  induction stops generalizing gaps with
  | nil => exact ⟨back, whole, rfl, rfl⟩
  | cons stop stops ih =>
    obtain ⟨back', entered, full, zipped⟩ := ih (gaps.modify
      (spanSteps stop.1.room stop.2 pieces) (· ++ [stop.1]))
    refine ⟨back'.modify (spanSteps stop.1.room stop.2 pieces) (stop.1 :: ·), ?_, ?_, ?_⟩
    · change (Array.modify _ _ _).toList = _
      rw [Array.toList_modify]
      change List.modify (addClosings places _).toList _ _ = _
      rw [entered, modify_append_right]
    · rw [List.length_modify, full]
    · rw [zipWith_modify, zipped]
      rfl

/-- **Closings are collected exactly if every span ends where an action ends**, and then those of
later blocks come first. -/
theorem collectClosings_ok_iff {rows : List Located} {places : Array (List Marker)}
    {front back : List (List Marker)} (whole : places.toList = front ++ back)
    (full : back.length = rows.length + 1) (result : Array (List Marker)) :
    collectClosings places front.length rows = .ok result ↔
      AllFit (rows.map Located.piece) ∧
        result.toList = front ++ List.zipWith (· ++ ·) (gapsOf (rows.map Located.piece)) back := by
  induction rows generalizing places front back with
  | nil =>
    obtain ⟨last, rfl⟩ := List.length_eq_one_iff.mp full
    rw [collectClosings]
    constructor
    · intro success
      cases success
      exact ⟨trivial, whole⟩
    · rintro ⟨_, same⟩
      rw [← Array.toList_inj.mp (whole.trans same.symm)]
  | cons row rest ih =>
    rcases back with _ | ⟨here, back⟩
    · cases full
    have full' : back.length = rest.length + 1 := Nat.succ.inj full
    have whole' : places.toList = (front ++ [here]) ++ back := by
      rw [List.append_assoc]
      exact whole
    have next : (front ++ [here]).length = front.length + 1 := by
      rw [List.length_append, List.length_singleton]
    rw [collectClosings, List.map_cons, AllFit, gapsOf, Located.action_piece]
    cases opens : row.action.block? with
    | none =>
      have later := ih whole' full'
      rw [next, List.append_assoc] at later
      simp only [later, List.zipWith_cons_cons, List.nil_append, reduceCtorEq, false_implies,
        implies_true, true_and]
      rfl
    | some block =>
      simp only [Option.some.injEq, forall_eq', List.zipWith_cons_cons, List.nil_append]
      cases found : closings row.offset (front.length + 1) rest block with
      | error fault =>
        constructor
        · intro success
          cases success
        · rintro ⟨⟨fits, _⟩, _⟩
          rw [closings_ok_iff.mpr ⟨fits, rfl⟩] at found
          cases found
      | ok list =>
        obtain ⟨fits, rfl⟩ := closings_ok_iff.mp found
        obtain ⟨back', entered, long, zipped⟩ := addClosings_toList block.ends
          (rest.map Located.piece) (front ++ [here]) back (gapsOf (rest.map Located.piece)) places
          whole'
        rw [next] at entered
        have later := ih entered (long.trans full')
        rw [next, zipped, List.append_assoc] at later
        dsimp only
        rw [Block.closingsAt, later, and_iff_right fits]
        rfl

/-- Weaving the places of a sequence in. -/
theorem weave_toList (gaps : List (List Marker)) (rows : List Located) (done : Array Action) :
    (weave done gaps rows).toList =
      done.toList ++ (woven gaps (rows.map Located.piece)).map Piece.action := by
  have markers : ∀ list : List Marker,
      (list.map Piece.ofMarker).map Piece.action = list.map Action.marker := by
    intro list
    rw [List.map_map]
    rfl
  fun_induction weave done gaps rows with
  | case1 done closings gaps row rest ih =>
    rw [ih, List.map_cons, woven, List.map_append, markers]
    simp
  | case2 done closings gaps => simp [woven, markers]
  | case3 done rows => simp [woven]

/-! ### The two ways agree -/

/-- No piece closes a span. -/
def Unclosed (pieces : List Piece) : Prop := ∀ piece ∈ pieces, piece.action.closing? = none

/-- All markers close spans. -/
def AllClose (markers : List Marker) : Prop := ∀ marker ∈ markers, marker.closes = true

theorem Action.closing?_marker {marker : Marker} (closes : marker.closes = true) :
    (Action.marker marker).closing? = some marker := by
  rw [closing?, if_pos closes]

theorem Action.eq_marker_of_closing? {action : Action} {marker : Marker}
    (found : action.closing? = some marker) : action = .marker marker := by
  cases action with
  | marker other =>
    cases closes : other.closes with
    | true =>
      rw [Action.closing?_marker closes] at found
      cases found
      rfl
    | false =>
      rw [closing?, closes] at found
      cases found
  | _ => cases found

theorem Block.closes_of_mem_ends {block : Block} {stop : Marker × Nat}
    (inside : stop ∈ block.ends) : stop.1.closes = true := by
  rcases block with size | ⟨frame, skipCount⟩ | handlers
  · cases List.mem_singleton.mp inside
    rfl
  · cases List.mem_singleton.mp inside
    rfl
  · unfold ends at inside
    cases hasCatch : handlers.hasCatch <;> cases hasFinally : handlers.hasFinally <;>
      simp only [hasCatch, hasFinally, if_true, List.nil_append, List.cons_append,
        Bool.false_eq_true, if_false, List.mem_cons, List.not_mem_nil, or_false] at inside <;>
      rcases inside with rfl | rfl | rfl <;> rfl

/-- A closing goes behind those that are there already. -/
theorem insertClosing_past {markers : List Marker} (close : AllClose markers) (marker : Marker)
    (amount : Nat) (later : List Piece) :
    insertClosing marker amount (markers.map .ofMarker ++ later) =
      markers.map .ofMarker ++ insertClosing marker amount later := by
  induction markers with
  | nil => rfl
  | cons first markers ih =>
    have closing := Action.closing?_marker (close first List.mem_cons_self)
    have skip : ¬ (amount = 0 ∧ (Piece.ofMarker first).action.closing? = none) := by
      rintro ⟨_, absent⟩
      change (Action.marker first).closing? = none at absent
      rw [closing] at absent
      cases absent
    rw [List.map_cons, List.cons_append, insertClosing, if_neg skip, Marker.room_ofMarker,
      Nat.sub_zero, ih fun marker inside => close marker (List.mem_cons_of_mem _ inside)]
    rfl

/-- A closing behind those of a gap goes behind those that come before the same piece. -/
theorem woven_modify {marker : Marker} {amount : Nat} {gaps : List (List Marker)}
    {pieces : List Piece} (unclosed : Unclosed pieces) (close : ∀ gap ∈ gaps, AllClose gap)
    (full : gaps.length = pieces.length + 1) (aligned : Aligned marker.room amount pieces) :
    woven (gaps.modify (spanSteps marker.room amount pieces) (· ++ [marker])) pieces =
      insertClosing marker amount (woven gaps pieces) := by
  induction pieces generalizing amount gaps with
  | nil =>
    obtain ⟨gap, rfl⟩ := List.length_eq_one_iff.mp full
    cases amount with
    | succ amount => cases aligned
    | zero =>
      have past : insertClosing marker 0 (gap.map .ofMarker) = gap.map .ofMarker ++ [.ofMarker marker] := by
        have whole := insertClosing_past (close gap List.mem_cons_self) marker 0 []
        rwa [List.append_nil] at whole
      rw [spanSteps_zero, woven, past, List.modify_zero_cons, woven, List.map_append]
      rfl
  | cons piece rest ih =>
    rcases gaps with _ | ⟨gap, gaps⟩
    · cases full
    have notClosing : piece.action.closing? = none := unclosed piece List.mem_cons_self
    rw [woven, insertClosing_past (close gap List.mem_cons_self), insertClosing]
    by_cases zero : amount = 0
    · subst zero
      rw [if_pos ⟨rfl, notClosing⟩, spanSteps_zero, List.modify_zero_cons, woven, List.map_append,
        List.append_assoc]
      rfl
    · have positive := Nat.pos_of_ne_zero zero
      rw [if_neg (fun both => zero both.1), spanSteps_cons positive, List.modify_succ_cons, woven,
        ih (fun piece inside => unclosed piece (List.mem_cons_of_mem _ inside))
          (fun gap inside => close gap (List.mem_cons_of_mem _ inside)) (Nat.succ.inj full)
          ((aligned_cons positive).mp aligned).2]

theorem allClose_modify {gaps : List (List Marker)} {marker : Marker}
    (close : ∀ gap ∈ gaps, AllClose gap) (closes : marker.closes = true) (index : Nat) :
    ∀ gap ∈ gaps.modify index (· ++ [marker]), AllClose gap := by
  induction gaps generalizing index with
  | nil =>
    intro gap inside
    cases index <;> cases inside
  | cons first gaps ih =>
    intro gap inside
    cases index with
    | zero =>
      rw [List.modify_zero_cons] at inside
      rcases List.mem_cons.mp inside with rfl | inside
      · intro other inside
        rcases List.mem_append.mp inside with inside | inside
        · exact close first List.mem_cons_self other inside
        · rw [List.mem_singleton.mp inside]
          exact closes
      · exact close gap (List.mem_cons_of_mem _ inside)
    | succ index =>
      rw [List.modify_succ_cons] at inside
      rcases List.mem_cons.mp inside with rfl | inside
      · exact close _ List.mem_cons_self
      · exact ih (fun gap inside => close gap (List.mem_cons_of_mem _ inside)) index gap inside

/-- The closings of one block behind those of later blocks. -/
theorem woven_modifies {stops : List (Marker × Nat)} {gaps : List (List Marker)}
    {pieces : List Piece} (unclosed : Unclosed pieces) (close : ∀ gap ∈ gaps, AllClose gap)
    (full : gaps.length = pieces.length + 1) (closing : ∀ stop ∈ stops, stop.1.closes = true)
    (aligned : ∀ stop ∈ stops, Aligned stop.1.room stop.2 pieces) :
    woven (stops.foldl (fun gaps stop =>
        gaps.modify (spanSteps stop.1.room stop.2 pieces) (· ++ [stop.1])) gaps) pieces =
      insertClosings stops (woven gaps pieces) ∧
    ∀ gap ∈ stops.foldl (fun gaps stop =>
        gaps.modify (spanSteps stop.1.room stop.2 pieces) (· ++ [stop.1])) gaps, AllClose gap := by
  induction stops generalizing gaps with
  | nil => exact ⟨rfl, close⟩
  | cons stop stops ih =>
    have close' := allClose_modify close (closing stop List.mem_cons_self)
      (spanSteps stop.1.room stop.2 pieces)
    have later := ih close' (by rw [List.length_modify, full])
      (fun stop inside => closing stop (List.mem_cons_of_mem _ inside))
      (fun stop inside => aligned stop (List.mem_cons_of_mem _ inside))
    rw [woven_modify unclosed close full (aligned stop List.mem_cons_self)] at later
    exact later

/-- **Closings by index are closings from the back.** -/
theorem woven_gapsOf {pieces : List Piece} (unclosed : Unclosed pieces) (fit : AllFit pieces) :
    woven (gapsOf pieces) pieces = placed pieces ∧ ∀ gap ∈ gapsOf pieces, AllClose gap := by
  induction pieces with
  | nil =>
    refine ⟨rfl, fun gap inside => ?_⟩
    cases List.mem_singleton.mp inside
    exact fun marker inside => absurd inside List.not_mem_nil
  | cons piece rest ih =>
    have unclosed' : Unclosed rest :=
      fun piece inside => unclosed piece (List.mem_cons_of_mem _ inside)
    obtain ⟨same, close⟩ := ih unclosed' fit.2
    have empty : AllClose [] := fun marker inside => absurd inside List.not_mem_nil
    rw [gapsOf, woven, placed, Piece.enter]
    cases opens : piece.action.block? with
    | none =>
      refine ⟨?_, fun gap inside => ?_⟩
      · dsimp only
        rw [same]
        rfl
      · rcases List.mem_cons.mp inside with rfl | inside
        · exact empty
        · exact close gap inside
    | some block =>
      obtain ⟨entered, close'⟩ := woven_modifies unclosed' close (length_gapsOf rest)
        (fun stop inside => Block.closes_of_mem_ends inside) (fit.1 block opens)
      refine ⟨?_, fun gap inside => ?_⟩
      · dsimp only
        rw [entered, same]
        rfl
      · rcases List.mem_cons.mp inside with rfl | inside
        · exact empty
        · exact close' gap inside

/-- **Closings are placed exactly if every span ends where an action ends**, each block entering its
own into what comes after it. -/
theorem placeClosings_ok_iff {rows : List Located} (unclosed : Unclosed (rows.map Located.piece))
    {actions : List Action} :
    placeClosings rows = .ok actions ↔
      AllFit (rows.map Located.piece) ∧
        actions = (placed (rows.map Located.piece)).map Piece.action := by
  have whole : (Array.replicate (rows.length + 1) ([] : List Marker)).toList =
      [] ++ List.replicate (rows.length + 1) [] := Array.toList_replicate
  have bare : ∀ gaps : List (List Marker), gaps.length = rows.length + 1 →
      List.zipWith (· ++ ·) gaps (List.replicate (rows.length + 1) []) = gaps := by
    intro gaps full
    rw [← full]
    clear full
    induction gaps with
    | nil => rfl
    | cons gap gaps ih =>
      rw [List.length_cons, List.replicate_succ, List.zipWith_cons_cons, ih, List.append_nil]
  have full : (gapsOf (rows.map Located.piece)).length = rows.length + 1 := by
    rw [length_gapsOf, List.length_map]
  have collected : ∀ places, collectClosings (Array.replicate (rows.length + 1) []) 0 rows =
      .ok places ↔ AllFit (rows.map Located.piece) ∧
        places.toList = gapsOf (rows.map Located.piece) := by
    intro places
    have found := collectClosings_ok_iff whole List.length_replicate places
    rw [bare _ full] at found
    exact found
  unfold placeClosings
  constructor
  · intro success
    split at success
    · cases success
    · rename_i places found
      cases success
      obtain ⟨fit, gaps⟩ := (collected places).mp found
      rw [weave_toList, gaps, (woven_gapsOf unclosed fit).1]
      exact ⟨fit, rfl⟩
  · rintro ⟨fit, rfl⟩
    rw [(collected (gapsOf (rows.map Located.piece)).toArray).mpr ⟨fit, rfl⟩]
    dsimp only
    rw [weave_toList, (woven_gapsOf unclosed fit).1]
    rfl

end ActionCode
