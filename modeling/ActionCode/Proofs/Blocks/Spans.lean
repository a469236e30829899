/-
**Spans of blocks, and closings that match them.**

* `Nested`: a block that opens inside a span of an earlier one ends inside that span; `spansFrom`,
  `layout`: the spans of pieces.
* `Reached`: a point that some of the pieces lead to. Spans in bytes and in records end there.
* `Tidy`: pieces that close the blocks they open, where each block has exactly the closings that the
  disassembler marks; **`Tidy.closes`**.
-/

import ActionCode.Proofs.Blocks.Closings
import Mathlib.Data.List.Forall2

namespace ActionCode

/-! ### Spans in bytes -/

/-- The spans of a block, if the widths of the actions after it are given from a byte on. -/
def Block.spans (start : Nat) (widths : List Nat) : Block → List (Nat × Nat)
  | .scope size => [(start, start + size.toNat)]
  | .wait _ skipCount => [(start, start + (widths.take skipCount.toNat).sum)]
  | .exception handlers =>
    let tryEnd := start + handlers.trySize.toNat
    let catchEnd := tryEnd + handlers.catchSize.toNat
    [(start, tryEnd), (tryEnd, catchEnd), (catchEnd, catchEnd + handlers.finallySize.toNat)]

/-- Where actions begin and which spans their blocks have, if each is given with the block it opens
and its width. -/
def spansFrom (start : Nat) : List (Option Block × Nat) → List (Nat × List (Nat × Nat))
  | [] => []
  | (block, width) :: rest =>
    (start, match block with
      | some block => block.spans (start + width) (rest.map Prod.snd)
      | none => []) :: spansFrom (start + width) rest

/-- **A block that opens inside a span of an earlier one ends inside that span**, in a sequence that
begins at a byte. -/
def Nested (start : Nat) (layout : List (Option Block × Nat)) : Prop :=
  (spansFrom start layout).Pairwise fun outer inner =>
    ∀ span ∈ outer.2, span.1 ≤ inner.1 → inner.1 < span.2 → ∀ own ∈ inner.2, own.2 ≤ span.2

instance (start : Nat) (layout : List (Option Block × Nat)) : Decidable (Nested start layout) :=
  inferInstanceAs (Decidable ((spansFrom start layout).Pairwise fun outer inner =>
    ∀ span ∈ outer.2, span.1 ≤ inner.1 → inner.1 < span.2 → ∀ own ∈ inner.2, own.2 ≤ span.2))

/-- No block that opens before a byte ends after it. -/
def Uncrossed (stop : Nat) (spans : List (Nat × List (Nat × Nat))) : Prop :=
  ∀ entry ∈ spans, entry.1 < stop → ∀ span ∈ entry.2, span.2 ≤ stop

theorem le_of_mem_spansFrom {start : Nat} {layout : List (Option Block × Nat)}
    {entry : Nat × List (Nat × Nat)} (inside : entry ∈ spansFrom start layout) :
    start ≤ entry.1 := by
  induction layout generalizing start with
  | nil => cases inside
  | cons first rest ih =>
    rcases List.mem_cons.mp inside with rfl | inside
    · exact Nat.le_refl _
    · exact Nat.le_trans (Nat.le_add_right _ _) (ih inside)

/-! ### Pieces of real actions -/

/-- A real action takes a record and some bytes. -/
structure Piece.Real (piece : Piece) : Prop where
  real : piece.action.isMarker = false
  bytes : 0 < piece.bytes
  records : piece.records = 1

/-- A marker that takes no room, or a real action. -/
def Piece.Solid (piece : Piece) : Prop := (∃ marker, piece = .ofMarker marker) ∨ piece.Real

/-- All pieces are solid. -/
def AllSolid (pieces : List Piece) : Prop := ∀ piece ∈ pieces, piece.Solid

theorem AllSolid.head {piece : Piece} {rest : List Piece} (solid : AllSolid (piece :: rest)) :
    piece.Solid := solid piece List.mem_cons_self

theorem AllSolid.tail {piece : Piece} {rest : List Piece} (solid : AllSolid (piece :: rest)) :
    AllSolid rest := fun piece inside => solid piece (List.mem_cons_of_mem _ inside)

/-- The pieces that are no markers. -/
def reals (pieces : List Piece) : List Piece := pieces.filter fun piece => !piece.action.isMarker

@[simp]
theorem reals_ofMarker (marker : Marker) (rest : List Piece) :
    reals (.ofMarker marker :: rest) = reals rest := rfl

theorem reals_cons {piece : Piece} (real : piece.action.isMarker = false) (rest : List Piece) :
    reals (piece :: rest) = piece :: reals rest := by
  rw [reals, List.filter_cons_of_pos (by rw [real]; rfl), reals]

/-- The blocks of pieces, and their widths. -/
def layout (pieces : List Piece) : List (Option Block × Nat) :=
  pieces.map fun piece => (piece.action.block?, piece.bytes)

theorem spansFrom_flat {piece : Piece} (flat : piece.action.block? = none) (start : Nat)
    (rest : List Piece) :
    spansFrom start (layout (piece :: rest)) =
      (start, []) :: spansFrom (start + piece.bytes) (layout rest) := by
  rw [layout, List.map_cons, flat]
  rfl

theorem spansFrom_opening {piece : Piece} {block : Block} (opens : piece.action.block? = some block)
    (start : Nat) (rest : List Piece) :
    spansFrom start (layout (piece :: rest)) =
      (start, block.spans (start + piece.bytes) ((layout rest).map Prod.snd)) ::
        spansFrom (start + piece.bytes) (layout rest) := by
  rw [layout, List.map_cons, opens]
  rfl

/-- The component of a point in the unit of a closing. -/
def Point.along (point : Point) : Marker → Nat
  | .endWait => point.records
  | _ => point.bytes

theorem Point.along_after (point : Point) (piece : Piece) (marker : Marker) :
    (point.after piece).along marker = point.along marker + marker.room piece := by
  cases marker <;> rfl

theorem Point.Le.along {first second : Point} (le : Point.Le first second) (marker : Marker) :
    first.along marker ≤ second.along marker := by
  cases marker with
  | endWait => exact le.records
  | _ => exact le.bytes

/-- A real piece takes room in either unit. -/
theorem Piece.Real.room_pos {piece : Piece} (real : piece.Real) (marker : Marker) :
    0 < marker.room piece := by
  cases marker with
  | endWait =>
    show 0 < piece.records
    rw [real.records]
    exact Nat.one_pos
  | _ => exact real.bytes

/-! ### Points that are reached -/

/-- A point is reached after some of the pieces from another point on. -/
def Reached (point : Point) (pieces : List Piece) (stop : Point) : Prop :=
  ∃ front back, pieces = front ++ back ∧ stop = point.through front

theorem Reached.here (point : Point) (pieces : List Piece) : Reached point pieces point :=
  ⟨[], pieces, rfl, rfl⟩

theorem Reached.later {point : Point} {piece : Piece} {rest : List Piece} {stop : Point}
    (reached : Reached (point.after piece) rest stop) : Reached point (piece :: rest) stop := by
  obtain ⟨front, back, rfl, rfl⟩ := reached
  exact ⟨piece :: front, back, rfl, rfl⟩

theorem reached_nil_iff {point stop : Point} : Reached point [] stop ↔ stop = point := by
  constructor
  · rintro ⟨front, back, empty, rfl⟩
    rw [(List.append_eq_nil_iff.mp empty.symm).1]
    rfl
  · rintro rfl
    exact .here _ _

theorem reached_cons_iff {point stop : Point} {piece : Piece} {rest : List Piece} :
    Reached point (piece :: rest) stop ↔
      stop = point ∨ Reached (point.after piece) rest stop := by
  constructor
  · rintro ⟨_ | ⟨first, front⟩, back, whole, rfl⟩
    · exact .inl rfl
    · cases whole
      exact .inr ⟨front, back, rfl, rfl⟩
  · rintro (rfl | reached)
    · exact .here _ _
    · exact reached.later

theorem Reached.le {point stop : Point} {pieces : List Piece} (reached : Reached point pieces stop) :
    Point.Le point stop := by
  obtain ⟨front, back, _, rfl⟩ := reached
  exact point.le_through front

/-- **Points of solid pieces that are not after one another in bytes are not so in records.** -/
theorem Reached.le_of_bytes {point first second : Point} {pieces : List Piece}
    (solid : AllSolid pieces) (reached : Reached point pieces first)
    (reached' : Reached point pieces second) (bytes : first.bytes ≤ second.bytes) :
    Point.Le first second := by
  induction pieces generalizing point with
  | nil =>
    rw [reached_nil_iff.mp reached, reached_nil_iff.mp reached']
    exact .refl _
  | cons piece rest ih =>
    rcases reached_cons_iff.mp reached with rfl | later
    · exact reached'.le
    · rcases reached_cons_iff.mp reached' with rfl | later'
      · obtain ⟨marker, rfl⟩ | real := solid.head
        · exact ih solid.tail later (.here _ _)
        · have le := later.le.bytes
          have positive := real.bytes
          change second.bytes + piece.bytes ≤ _ at le
          omega
      · exact ih solid.tail later later'

/-- All pieces are real. -/
def AllReal (pieces : List Piece) : Prop := ∀ piece ∈ pieces, piece.Real

theorem AllReal.head {piece : Piece} {rest : List Piece} (real : AllReal (piece :: rest)) :
    piece.Real := real piece List.mem_cons_self

theorem AllReal.tail {piece : Piece} {rest : List Piece} (real : AllReal (piece :: rest)) :
    AllReal rest := fun piece inside => real piece (List.mem_cons_of_mem _ inside)

theorem AllReal.solid {pieces : List Piece} (real : AllReal pieces) : AllSolid pieces :=
  fun piece inside => .inr (real piece inside)

/-- Markers reach no further point. -/
theorem reached_reals_iff {point stop : Point} {pieces : List Piece} (solid : AllSolid pieces) :
    Reached point (reals pieces) stop ↔ Reached point pieces stop := by
  induction pieces generalizing point with
  | nil => rfl
  | cons piece rest ih =>
    rcases solid.head with ⟨marker, rfl⟩ | real
    · rw [reals_ofMarker, ih solid.tail, reached_cons_iff, Point.after_ofMarker]
      constructor
      · exact .inr
      · rintro (rfl | reached)
        · exact .here _ _
        · exact reached
    · rw [reals_cons real.real, reached_cons_iff, reached_cons_iff, ih solid.tail]

/-- So much room ends where a piece ends if the point there is reached. -/
theorem aligned_iff_reached {marker : Marker} {amount : Nat} {pieces : List Piece} (point : Point)
    (real : AllReal pieces) :
    Aligned marker.room amount pieces ↔
      ∃ stop, Reached point pieces stop ∧ stop.along marker = point.along marker + amount := by
  induction pieces generalizing point amount with
  | nil =>
    cases amount with
    | zero => simp [reached_nil_iff]
    | succ amount => simp [Aligned, reached_nil_iff]
  | cons piece rest ih =>
    by_cases zero : amount = 0
    · subst zero
      exact iff_of_true (aligned_zero _ _) ⟨point, .here _ _, rfl⟩
    · rw [aligned_cons (Nat.pos_of_ne_zero zero), ih (point.after piece) real.tail]
      constructor
      · rintro ⟨fits, stop, reached, along⟩
        refine ⟨stop, reached.later, ?_⟩
        rw [along, point.along_after]
        omega
      · rintro ⟨stop, reached, along⟩
        rcases reached_cons_iff.mp reached with rfl | later
        · omega
        · have le := later.le.along marker
          rw [point.along_after] at le
          refine ⟨by omega, stop, later, ?_⟩
          rw [along, point.along_after]
          omega

/-- Bytes are counted by the records that take them. -/
theorem Reached.bytes_eq {point stop : Point} {pieces : List Piece} (solid : AllSolid pieces)
    (reached : Reached point pieces stop) :
    stop.bytes = point.bytes +
      (((reals pieces).map Piece.bytes).take (stop.records - point.records)).sum := by
  induction pieces generalizing point with
  | nil =>
    rw [reached_nil_iff.mp reached]
    simp
  | cons piece rest ih =>
    rcases reached_cons_iff.mp reached with rfl | later
    · simp
    · have whole := ih solid.tail later
      rcases solid.head with ⟨marker, rfl⟩ | real
      · exact whole
      · have le := later.le.records
        change point.records + piece.records ≤ stop.records at le
        rw [real.records] at le
        have first : stop.records - point.records = stop.records - (point.records + 1) + 1 := by
          omega
        rw [reals_cons real.real, List.map_cons, first, List.take_succ_cons, List.sum_cons, whole]
        change point.bytes + piece.bytes + ((_ : List Nat).take
          (stop.records - (point.records + piece.records))).sum = _
        rw [real.records, Nat.add_assoc]

/-! ### Closings that match -/

/-- Closings are those of a block that is followed by a point, each after its room. -/
def Matches (block : Block) (start : Point) (own : List Pending) : Prop :=
  List.Forall₂ (fun stop pending => pending.marker = stop.1 ∧
    pending.point.along stop.1 = start.along stop.1 + stop.2) block.ends own

/-- A closing is due so much room after the start of its block. -/
def Meets (start : Point) (stop : Marker × Nat) (pending : Pending) : Prop :=
  pending.marker = stop.1 ∧ pending.point.along stop.1 = start.along stop.1 + stop.2

theorem Matches.meets {block : Block} {start : Point} {own : List Pending}
    (matched : Matches block start own) : List.Forall₂ (Meets start) block.ends own := matched

/-- The first of some closings is a point for its marker, so much room after the start. -/
theorem Meets.first {start : Point} {marker : Marker} {amount : Nat} {stops : List (Marker × Nat)}
    {own : List Pending} (meets : List.Forall₂ (Meets start) ((marker, amount) :: stops) own) :
    ∃ stop others, own = ⟨marker, stop⟩ :: others ∧
      stop.along marker = start.along marker + amount ∧
      List.Forall₂ (Meets start) stops others := by
  obtain ⟨⟨_, stop⟩, others, ⟨rfl, due⟩, later, rfl⟩ := List.forall₂_cons_left_iff.mp meets
  exact ⟨stop, others, rfl, due, later⟩

/-- The pieces from a point on close the blocks they open and the closings of a stack, and **each
block has the closings that the disassembler marks**. -/
inductive Tidy : Point → List Piece → List Pending → Prop
  | nil (point : Point) : Tidy point [] []
  | flat {point : Point} {piece : Piece} {rest : List Piece} {stack : List Pending}
      (flat : piece.action.Flat) (later : Tidy (point.after piece) rest stack) :
      Tidy point (piece :: rest) stack
  | opening {point : Point} {piece : Piece} {block : Block} {rest : List Piece}
      {own stack : List Pending} (opens : piece.action = .plain (.block block))
      (matched : Matches block (point.after piece) own)
      (later : Tidy (point.after piece) rest (own ++ stack)) : Tidy point (piece :: rest) stack
  | closing {point : Point} {marker : Marker} {rest : List Piece} {stack : List Pending}
      (closes : marker.closes = true) (later : Tidy point rest stack) :
      Tidy point (.ofMarker marker :: rest) (⟨marker, point⟩ :: stack)

/-- The closings of an exception block span its sizes. -/
theorem Matches.spanned_exception {handlers : TryBlock} {start : Point} {own : List Pending}
    (matched : Matches (.exception handlers) start own) :
    Spanned (.exception handlers) start own := by
  have meets := matched.meets
  rw [Block.ends] at meets
  cases hasCatch : handlers.hasCatch with
  | true =>
    rw [hasCatch, if_pos rfl] at meets
    obtain ⟨tryEnd, _, rfl, attempt, later⟩ := Meets.first meets
    cases hasFinally : handlers.hasFinally with
    | true =>
      rw [hasFinally, if_pos rfl] at later
      obtain ⟨catchEnd, _, rfl, handler, later⟩ := Meets.first later
      obtain ⟨finallyEnd, _, rfl, cleanup, none⟩ := Meets.first later
      obtain rfl := List.forall₂_nil_left_iff.mp none
      simp only [Point.along] at attempt handler cleanup
      exact .full attempt (by omega) (by omega)
    | false =>
      rw [hasFinally, if_neg Bool.false_ne_true] at later
      obtain ⟨finallyEnd, _, rfl, cleanup, none⟩ := Meets.first later
      obtain rfl := List.forall₂_nil_left_iff.mp none
      have empty := TryBlock.finallySize_of_absent hasFinally
      simp only [Point.along] at attempt cleanup
      exact .handled attempt (by omega) (UInt16.toNat_inj.mp empty)
  | false =>
    have empty := TryBlock.catchSize_of_absent hasCatch
    rw [hasCatch, if_neg Bool.false_ne_true] at meets
    cases hasFinally : handlers.hasFinally with
    | true =>
      rw [hasFinally, if_pos rfl] at meets
      obtain ⟨tryEnd, _, rfl, attempt, later⟩ := Meets.first meets
      obtain ⟨finallyEnd, _, rfl, cleanup, none⟩ := Meets.first later
      obtain rfl := List.forall₂_nil_left_iff.mp none
      simp only [Point.along] at attempt cleanup
      exact .cleaned (by omega) (UInt16.toNat_inj.mp empty) (by omega)
    | false =>
      rw [hasFinally, if_neg Bool.false_ne_true] at meets
      obtain ⟨tryEnd, _, rfl, attempt, none⟩ := Meets.first meets
      obtain rfl := List.forall₂_nil_left_iff.mp none
      have empty' := TryBlock.finallySize_of_absent hasFinally
      simp only [Point.along] at attempt
      exact .attempt (by omega) (UInt16.toNat_inj.mp empty) (UInt16.toNat_inj.mp empty')

/-- The closings of a block span its sizes. -/
theorem Matches.spanned {block : Block} {start : Point} {own : List Pending}
    (matched : Matches block start own) : Spanned block start own := by
  cases block with
  | scope size =>
    obtain ⟨stop, _, rfl, bytes, none⟩ := Meets.first matched.meets
    obtain rfl := List.forall₂_nil_left_iff.mp none
    exact .scope bytes
  | wait frame skipCount =>
    obtain ⟨stop, _, rfl, records, none⟩ := Meets.first matched.meets
    obtain rfl := List.forall₂_nil_left_iff.mp none
    exact .wait records
  | exception handlers => exact matched.spanned_exception

/-- **Matching closings close their blocks, with the sizes that these have.** -/
theorem Tidy.closes {point : Point} {pieces : List Piece} {stack : List Pending}
    (tidy : Tidy point pieces stack) : Closes point pieces (pieces.map Piece.action) stack := by
  induction tidy with
  | nil point => exact .nil point
  | flat flat _ ih => exact .flat flat ih
  | opening opens matched _ ih =>
    rw [List.map_cons, opens]
    exact .opening opens rfl matched.spanned ih
  | closing closes _ ih => exact .closing closes ih

/-- Closings are due where a piece ends. -/
theorem Closes.reached {point : Point} {pieces : List Piece} {sized : List Action}
    {stack : List Pending} (closes : Closes point pieces sized stack) :
    ∀ pending ∈ stack, Reached point pieces pending.point := by
  induction closes with
  | nil point =>
    intro pending inside
    cases inside
  | flat _ _ ih => exact fun pending inside => (ih pending inside).later
  | opening _ _ _ _ ih =>
    exact fun pending inside => (ih pending (List.mem_append_right _ inside)).later
  | closing _ _ ih =>
    intro pending inside
    rcases List.mem_cons.mp inside with rfl | inside
    · exact .here _ _
    · exact reached_cons_iff.mpr (.inr (ih pending inside))

/-- The widths of real pieces, in order. -/
theorem map_snd_layout (pieces : List Piece) :
    (layout pieces).map Prod.snd = pieces.map Piece.bytes := by
  rw [layout, List.map_map]
  rfl

/-- **The spans of a block end where its closings are due**, and nowhere else. -/
theorem Spanned.ends_iff {block : Block} {start : Point} {own : List Pending}
    {pieces : List Piece} {holds : Nat → Prop} (spanned : Spanned block start own)
    (solid : AllSolid pieces) (reached : ∀ pending ∈ own, Reached start pieces pending.point) :
    (∀ span ∈ block.spans start.bytes ((layout (reals pieces)).map Prod.snd), holds span.2) ↔
      ∀ pending ∈ own, holds pending.point.bytes := by
  rw [map_snd_layout]
  cases spanned with
  | scope bytes => simp [Block.spans, bytes]
  | @wait frame skipCount _ last records =>
    have here : last.bytes = _ := (reached _ List.mem_cons_self).bytes_eq solid
    have count : last.records - start.records = skipCount.toNat := by omega
    rw [count] at here
    simp [Block.spans, here]
  | attempt attempt handler cleanup => simp [Block.spans, attempt, handler, cleanup]
  | handled attempt handler cleanup => simp [Block.spans, attempt, handler, cleanup]
  | cleaned attempt handler cleanup => simp [Block.spans, attempt, handler, cleanup]
  | full attempt handler cleanup => simp [Block.spans, attempt, handler, cleanup]

/-- Where a span of a block ends, a closing of the block is due. -/
theorem Spanned.exists_of_mem {block : Block} {start : Point} {own : List Pending}
    {pieces : List Piece} (spanned : Spanned block start own) (solid : AllSolid pieces)
    (reached : ∀ pending ∈ own, Reached start pieces pending.point) {span : Nat × Nat}
    (inside : span ∈ block.spans start.bytes ((layout (reals pieces)).map Prod.snd)) :
    ∃ pending ∈ own, pending.point.bytes = span.2 :=
  (@Spanned.ends_iff block start own pieces (fun stop => ∃ pending ∈ own,
    pending.point.bytes = stop) spanned solid reached).mpr
      (fun pending member => ⟨pending, member, rfl⟩) span inside

/-- A block has a span that ends at a byte exactly if a closing of it is due there. -/
theorem Spanned.exists_span_iff {block : Block} {start : Point} {own : List Pending}
    {pieces : List Piece} (spanned : Spanned block start own) (solid : AllSolid pieces)
    (reached : ∀ pending ∈ own, Reached start pieces pending.point) (place : Nat) :
    (∃ span ∈ block.spans start.bytes ((layout (reals pieces)).map Prod.snd), span.2 = place) ↔
      ∃ pending ∈ own, pending.point.bytes = place := by
  constructor
  · rintro ⟨span, inside, rfl⟩
    exact spanned.exists_of_mem solid reached inside
  · rintro ⟨pending, inside, rfl⟩
    exact (@Spanned.ends_iff block start own pieces
      (fun stop => ∃ span ∈ block.spans start.bytes ((layout (reals pieces)).map Prod.snd),
        span.2 = stop) spanned solid reached).mp (fun span member => ⟨span, member, rfl⟩) pending
          inside

end ActionCode
