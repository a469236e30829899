/-
**Spans nest exactly if closings match.**

* **`tidy_placed`**: if spans nest, the closings that are placed match their blocks.
* **`Closes.nested`**: if closings match the sizes of their blocks, spans nest.
* **`Tidy.placed_eq`**: matching closings are where they would be placed again.
-/

import ActionCode.Proofs.Blocks.Spans

namespace ActionCode

/-! ### From spans that nest to closings that match -/

/-- A closing of a span, or a real action. -/
def Piece.Bare (piece : Piece) : Prop :=
  (∃ marker, marker.closes = true ∧ piece = .ofMarker marker) ∨ piece.Real

/-- All pieces are bare, so that there are no labels. -/
def AllBare (pieces : List Piece) : Prop := ∀ piece ∈ pieces, piece.Bare

theorem AllBare.head {piece : Piece} {rest : List Piece} (bare : AllBare (piece :: rest)) :
    piece.Bare := bare piece List.mem_cons_self

theorem AllBare.tail {piece : Piece} {rest : List Piece} (bare : AllBare (piece :: rest)) :
    AllBare rest := fun piece inside => bare piece (List.mem_cons_of_mem _ inside)

theorem Piece.Bare.solid {piece : Piece} (bare : piece.Bare) : piece.Solid := by
  obtain ⟨marker, _, rfl⟩ | real := bare
  · exact .inl ⟨marker, rfl⟩
  · exact .inr real

theorem AllBare.solid {pieces : List Piece} (bare : AllBare pieces) : AllSolid pieces :=
  fun piece inside => (bare piece inside).solid

theorem Piece.Real.closing {piece : Piece} (real : piece.Real) : piece.action.closing? = none := by
  obtain ⟨action, bytes, records⟩ := piece
  cases action with
  | marker marker => cases real.real
  | _ => rfl

/-- Nothing is due before a real piece ends, except at its start. -/
theorem Due.eq_nil {point : Point} {piece : Piece} {stack : List Pending} (real : piece.Real)
    (due : Due (point.after piece) stack) (late : ∀ pending ∈ stack, pending.point.Le point) :
    stack = [] := by
  cases stack with
  | nil => rfl
  | cons next stack =>
    have first := due.1.bytes
    have last := (late next List.mem_cons_self).bytes
    have positive := real.bytes
    change point.bytes + piece.bytes ≤ next.point.bytes at first
    omega

/-- A closing goes behind one that is there. -/
theorem insertClosing_behind {other : Marker} (closes : other.closes = true) (marker : Marker)
    (amount : Nat) (rest : List Piece) :
    insertClosing marker amount (.ofMarker other :: rest) =
      .ofMarker other :: insertClosing marker amount rest := by
  have close : AllClose [other] := fun marker inside => by
    rw [List.mem_singleton.mp inside]
    exact closes
  exact insertClosing_past close marker amount rest

/-- A closing of a later point goes behind the first piece. -/
theorem insertClosing_later {marker : Marker} {point stop : Point} {piece : Piece} {rest : List Piece}
    (real : piece.Real) (le : Point.Le (point.after piece) stop) :
    insertClosing marker (stop.along marker - point.along marker) (piece :: rest) =
      piece :: insertClosing marker (stop.along marker - (point.after piece).along marker) rest := by
  have along := le.along marker
  rw [point.along_after] at along
  have positive := real.room_pos marker
  have skip : ¬ (stop.along marker - point.along marker = 0 ∧ piece.action.closing? = none) := by
    omega
  rw [insertClosing, if_neg skip, point.along_after, Nat.sub_add_eq]

/-- A closing of this very point goes before a real piece. -/
theorem insertClosing_here {marker : Marker} {point : Point} {piece : Piece} {rest : List Piece}
    (real : piece.Real) :
    insertClosing marker (point.along marker - point.along marker) (piece :: rest) =
      .ofMarker marker :: piece :: rest := by
  rw [Nat.sub_self, insertClosing, if_pos ⟨rfl, real.closing⟩]

theorem insertClosing_nil (marker : Marker) (amount : Nat) :
    insertClosing marker amount [] = [.ofMarker marker] := by
  rw [insertClosing]

/-- The closings of a block are due no later than a point behind it that its spans do not cross. -/
theorem Spanned.le_of_uncrossed {point stop : Point} {piece : Piece} {block : Block}
    {rest : List Piece} {own : List Pending} (spanned : Spanned block (point.after piece) own)
    (opens : piece.action = .plain (.block block)) (real : piece.Real) (solid : AllSolid rest)
    (due : ∀ pending ∈ own, Reached (point.after piece) rest pending.point)
    (reached : Reached (point.after piece) rest stop)
    (uncrossed : Uncrossed stop.bytes (spansFrom point.bytes (layout (piece :: reals rest)))) :
    ∀ pending ∈ own, pending.point.Le stop := by
  have before : point.bytes < stop.bytes := by
    have le := reached.le.bytes
    have positive := real.bytes
    change point.bytes + piece.bytes ≤ stop.bytes at le
    omega
  have ends := (@Spanned.ends_iff _ _ _ _ (· ≤ stop.bytes) spanned solid due).mp
    fun span inside => by
      refine uncrossed _ List.mem_cons_self before span ?_
      rw [opens]
      exact inside
  exact fun pending inside => (due pending inside).le_of_bytes solid reached (ends pending inside)

/-- **A closing that no open block crosses keeps closings matched**, behind those that are due. -/
theorem Tidy.insert {point stop : Point} {pieces : List Piece} {stack : List Pending}
    {marker : Marker} (tidy : Tidy point pieces stack) (closes : marker.closes = true)
    (bare : AllBare pieces) (reached : Reached point pieces stop)
    (late : ∀ pending ∈ stack, pending.point.Le stop)
    (uncrossed : Uncrossed stop.bytes (spansFrom point.bytes (layout (reals pieces)))) :
    Tidy point (insertClosing marker (stop.along marker - point.along marker) pieces)
      (stack ++ [⟨marker, stop⟩]) := by
  induction tidy with
  | nil point =>
    rw [reached_nil_iff.mp reached, insertClosing_nil]
    exact .closing closes (.nil _)
  | @flat point piece rest stack flat later ih =>
    obtain ⟨closing, closes', rfl⟩ | real := bare.head
    · exact absurd flat (Action.not_flat_of_closes closes')
    · rcases reached_cons_iff.mp reached with rfl | reached
      · have empty := later.closes.sorted.eq_nil real late
        subst empty
        rw [insertClosing_here real]
        exact .closing closes (.flat flat later)
      · rw [reals_cons real.real] at uncrossed
        rw [insertClosing_later real reached.le]
        refine .flat flat (ih bare.tail reached late ?_)
        exact fun entry inside => uncrossed entry (List.mem_cons_of_mem _ inside)
  | @opening point piece block rest own stack opens matched later ih =>
    obtain ⟨closing, closes', rfl⟩ | real := bare.head
    · cases opens
    · have due := later.closes.sorted
      rcases reached_cons_iff.mp reached with rfl | reached
      · have empty := due.append_right.eq_nil real late
        subst empty
        rw [insertClosing_here real]
        exact .closing closes (.opening opens matched later)
      · rw [reals_cons real.real] at uncrossed
        rw [insertClosing_later real reached.le]
        refine .opening opens matched ?_
        rw [← List.append_assoc]
        have inner : ∀ pending ∈ own, Reached (point.after piece) rest pending.point :=
          fun pending inside => later.closes.reached pending (List.mem_append_left _ inside)
        have ownLate := matched.spanned.le_of_uncrossed opens real bare.tail.solid inner reached
          uncrossed
        exact ih bare.tail reached (List.forall_mem_append.mpr ⟨ownLate, late⟩) fun entry inside =>
          uncrossed entry (List.mem_cons_of_mem _ inside)
  | @closing point marker' rest stack closes' later ih =>
    have here : Reached point rest stop := by
      rcases reached_cons_iff.mp reached with rfl | reached
      · exact .here _ _
      · exact reached
    rw [insertClosing_behind closes']
    exact .closing closes' (ih bare.tail here
      (fun pending inside => late pending (List.mem_cons_of_mem _ inside)) uncrossed)

/-! #### The closings of one block -/

theorem reals_insertClosing (marker : Marker) (amount : Nat) (pieces : List Piece) :
    reals (insertClosing marker amount pieces) = reals pieces := by
  induction pieces generalizing amount with
  | nil => rfl
  | cons piece rest ih =>
    rw [insertClosing]
    split
    · exact reals_ofMarker _ _
    · rw [reals, reals, List.filter_cons, List.filter_cons]
      change (if _ then piece :: reals (insertClosing _ _ rest) else reals (insertClosing _ _ rest)) = _
      rw [ih]
      rfl

theorem reals_insertClosings (stops : List (Marker × Nat)) (pieces : List Piece) :
    reals (insertClosings stops pieces) = reals pieces := by
  induction stops generalizing pieces with
  | nil => rfl
  | cons stop stops ih =>
    have whole := ih (insertClosing stop.1 stop.2 pieces)
    rw [reals_insertClosing] at whole
    exact whole

theorem AllBare.insertClosing {pieces : List Piece} (bare : AllBare pieces) {marker : Marker}
    (closes : marker.closes = true) (amount : Nat) :
    AllBare (ActionCode.insertClosing marker amount pieces) := by
  have first : Piece.Bare (.ofMarker marker) := .inl ⟨marker, closes, rfl⟩
  induction pieces generalizing amount with
  | nil =>
    intro piece inside
    rw [List.mem_singleton.mp inside]
    exact first
  | cons piece rest ih =>
    rw [ActionCode.insertClosing]
    split
    · intro other inside
      rcases List.mem_cons.mp inside with rfl | inside
      · exact first
      · exact bare other inside
    · intro other inside
      rcases List.mem_cons.mp inside with rfl | inside
      · exact bare.head
      · exact ih bare.tail _ other inside

/-- The closings of a block are due one after another. -/
theorem Spanned.sorted {block : Block} {start : Point} {own : List Pending} {pieces : List Piece}
    (spanned : Spanned block start own) (solid : AllSolid pieces)
    (reached : ∀ pending ∈ own, Reached start pieces pending.point) :
    own.Pairwise fun first second => first.point.Le second.point := by
  refine List.Pairwise.imp_of_mem (R := fun first second => first.point.bytes ≤ second.point.bytes)
    (fun inside inside' le => (reached _ inside).le_of_bytes solid (reached _ inside') le) ?_
  cases spanned with
  | scope bytes => simp
  | wait records => simp
  | attempt attempt handler cleanup => simp
  | handled attempt handler cleanup => simp [handler]
  | cleaned attempt handler cleanup => simp [cleanup]
  | full attempt handler cleanup =>
    simp only [List.pairwise_cons, List.mem_cons, List.not_mem_nil]
    simp [handler, cleanup, Nat.add_assoc]

/-- Closings of one block that no later block crosses keep closings matched. -/
theorem Tidy.insert_all {start : Point} {stops : List (Marker × Nat)} {own : List Pending}
    (matched : List.Forall₂ (fun stop pending => pending.marker = stop.1 ∧
      pending.point.along stop.1 = start.along stop.1 + stop.2) stops own)
    {pieces : List Piece} {stack : List Pending} (tidy : Tidy start pieces stack)
    (bare : AllBare pieces) (closes : ∀ stop ∈ stops, stop.1.closes = true)
    (reached : ∀ pending ∈ own, Reached start pieces pending.point)
    (sorted : (stack ++ own).Pairwise fun first second => first.point.Le second.point)
    (uncrossed : ∀ pending ∈ own,
      Uncrossed pending.point.bytes (spansFrom start.bytes (layout (reals pieces)))) :
    Tidy start (insertClosings stops pieces) (stack ++ own) := by
  induction matched generalizing pieces stack with
  | nil =>
    rw [List.append_nil]
    exact tidy
  | @cons stop pending stops own first _ ih =>
    obtain ⟨marker, due⟩ := pending
    obtain ⟨rfl, along⟩ := first
    have amount : stop.2 = due.along stop.1 - start.along stop.1 := by
      rw [along, Nat.add_sub_cancel_left]
    have closing := closes stop List.mem_cons_self
    have late : ∀ pending ∈ stack, pending.point.Le due := fun pending inside =>
      (List.pairwise_append.mp sorted).2.2 pending inside _ List.mem_cons_self
    have inserted := tidy.insert closing bare (reached _ List.mem_cons_self) late
      (uncrossed _ List.mem_cons_self)
    rw [← amount] at inserted
    rw [List.append_cons]
    refine ih inserted (bare.insertClosing closing _)
      (fun stop inside => closes stop (List.mem_cons_of_mem _ inside)) ?_ ?_ ?_
    · intro pending inside
      have bare' := bare.insertClosing closing stop.2
      rw [← reached_reals_iff bare'.solid, reals_insertClosing, reached_reals_iff bare.solid]
      exact reached pending (List.mem_cons_of_mem _ inside)
    · rw [List.append_assoc]
      exact sorted
    · intro pending inside
      rw [reals_insertClosing]
      exact uncrossed pending (List.mem_cons_of_mem _ inside)

/-- The closings of a block whose spans end where pieces end. -/
theorem Block.Fits.exists_matches {block : Block} {pieces : List Piece}
    (fits : block.Fits pieces) (start : Point) (real : AllReal pieces) :
    ∃ own, Matches block start own ∧ ∀ pending ∈ own, Reached start pieces pending.point := by
  unfold Matches
  unfold Fits at fits
  generalize block.ends = stops at fits
  induction stops with
  | nil => exact ⟨[], .nil, fun pending inside => absurd inside List.not_mem_nil⟩
  | cons stop stops ih =>
    obtain ⟨own, matched, reached⟩ := ih fun stop inside => fits stop (List.mem_cons_of_mem _ inside)
    obtain ⟨due, here, along⟩ :=
      (aligned_iff_reached start real).mp (fits stop List.mem_cons_self)
    refine ⟨⟨stop.1, due⟩ :: own, .cons ⟨rfl, along⟩ matched, fun pending inside => ?_⟩
    rcases List.mem_cons.mp inside with rfl | inside
    · exact here
    · exact reached pending inside

/-- No block crosses the start of a sequence. -/
theorem uncrossed_start (start : Nat) (layout : List (Option Block × Nat)) :
    Uncrossed start (spansFrom start layout) :=
  fun _ inside before => absurd (le_of_mem_spansFrom inside) (Nat.not_le.mpr before)

/-- If no block crosses the start of a span, and blocks that open inside it end inside it, then no
block crosses its end. -/
theorem Uncrossed.extend {start stop : Nat} {spans : List (Nat × List (Nat × Nat))}
    (uncrossed : Uncrossed start spans) (le : start ≤ stop)
    (inside : ∀ entry ∈ spans, start ≤ entry.1 → entry.1 < stop → ∀ own ∈ entry.2, own.2 ≤ stop) :
    Uncrossed stop spans := by
  intro entry member before own mine
  by_cases early : entry.1 < start
  · exact Nat.le_trans (uncrossed entry member early own mine) le
  · exact inside entry member (Nat.not_lt.mp early) before own mine

/-- No later block crosses a closing of a block whose spans nest the later ones. -/
theorem Spanned.uncrossed {block : Block} {start : Point} {own : List Pending}
    {pieces : List Piece} (spanned : Spanned block start own) (solid : AllSolid pieces)
    (reached : ∀ pending ∈ own, Reached start pieces pending.point)
    (inside : ∀ span ∈ block.spans start.bytes ((layout (reals pieces)).map Prod.snd),
      ∀ entry ∈ spansFrom start.bytes (layout (reals pieces)),
        span.1 ≤ entry.1 → entry.1 < span.2 → ∀ own ∈ entry.2, own.2 ≤ span.2) :
    ∀ pending ∈ own,
      Uncrossed pending.point.bytes (spansFrom start.bytes (layout (reals pieces))) := by
  have bare := uncrossed_start start.bytes (layout (reals pieces))
  have exception : ∀ {handlers : TryBlock}, block = .exception handlers →
      Uncrossed (start.bytes + handlers.trySize.toNat)
        (spansFrom start.bytes (layout (reals pieces))) ∧
      Uncrossed (start.bytes + handlers.trySize.toNat + handlers.catchSize.toNat)
        (spansFrom start.bytes (layout (reals pieces))) ∧
      Uncrossed (start.bytes + handlers.trySize.toNat + handlers.catchSize.toNat +
        handlers.finallySize.toNat) (spansFrom start.bytes (layout (reals pieces))) := by
    rintro handlers rfl
    have attempt := bare.extend (Nat.le_add_right _ _) (inside _ List.mem_cons_self)
    have handler := attempt.extend (Nat.le_add_right _ _)
      (inside _ (List.mem_cons_of_mem _ List.mem_cons_self))
    exact ⟨attempt, handler, handler.extend (Nat.le_add_right _ _)
      (inside _ (List.mem_cons_of_mem _ (List.mem_cons_of_mem _ List.mem_cons_self)))⟩
  cases spanned with
  | scope bytes =>
    have whole := bare.extend (Nat.le_add_right _ _) (inside _ List.mem_cons_self)
    simpa [bytes] using whole
  | @wait frame skipCount _ last records =>
    have here : last.bytes = _ := (reached _ List.mem_cons_self).bytes_eq solid
    have count : last.records - start.records = skipCount.toNat := by omega
    rw [map_snd_layout] at inside
    rw [count] at here
    have whole := bare.extend (Nat.le_add_right _ _) (inside _ List.mem_cons_self)
    simpa [here] using whole
  | attempt attempt handler cleanup =>
    obtain ⟨first, _, _⟩ := exception rfl
    simpa [attempt] using first
  | handled attempt handler cleanup =>
    obtain ⟨first, second, _⟩ := exception rfl
    simpa [attempt, handler] using ⟨first, second⟩
  | cleaned attempt handler cleanup =>
    obtain ⟨first, _, third⟩ := exception rfl
    rw [handler, UInt16.toNat_zero, Nat.add_zero] at third
    simpa [attempt, cleanup] using ⟨first, third⟩
  | full attempt handler cleanup =>
    obtain ⟨first, second, third⟩ := exception rfl
    simpa [attempt, handler, cleanup] using ⟨first, second, third⟩

theorem reals_of_real {pieces : List Piece} (real : AllReal pieces) : reals pieces = pieces := by
  rw [reals, List.filter_eq_self]
  intro piece inside
  rw [(real piece inside).real]
  rfl

theorem reals_placed {pieces : List Piece} (real : AllReal pieces) :
    reals (placed pieces) = pieces := by
  induction pieces with
  | nil => rfl
  | cons piece rest ih =>
    rw [placed, reals_cons real.head.real, Piece.enter]
    split
    · rw [ih real.tail]
    · rw [reals_insertClosings, ih real.tail]

theorem AllBare.insertClosings {stops : List (Marker × Nat)}
    (closes : ∀ stop ∈ stops, stop.1.closes = true) {pieces : List Piece} (bare : AllBare pieces) :
    AllBare (ActionCode.insertClosings stops pieces) := by
  induction stops generalizing pieces with
  | nil => exact bare
  | cons stop stops ih =>
    exact ih (fun stop inside => closes stop (List.mem_cons_of_mem _ inside))
      (bare.insertClosing (closes stop List.mem_cons_self) _)

theorem bare_placed {pieces : List Piece} (real : AllReal pieces) : AllBare (placed pieces) := by
  induction pieces with
  | nil => exact fun piece inside => absurd inside List.not_mem_nil
  | cons piece rest ih =>
    have later : AllBare (piece.enter (placed rest)) := by
      rw [Piece.enter]
      split
      · exact ih real.tail
      · exact (ih real.tail).insertClosings fun stop inside => Block.closes_of_mem_ends inside
    intro other inside
    rcases List.mem_cons.mp inside with rfl | inside
    · exact .inr real.head
    · exact later other inside

/-- **If spans nest and end where actions end, the closings that are placed match their blocks.** -/
theorem tidy_placed {point : Point} {pieces : List Piece} (real : AllReal pieces)
    (fit : AllFit pieces) (nested : Nested point.bytes (layout pieces)) :
    Tidy point (placed pieces) [] := by
  induction pieces generalizing point with
  | nil => exact .nil point
  | cons piece rest ih =>
    obtain ⟨inside, nested⟩ := List.pairwise_cons.mp nested
    have tidy : Tidy (point.after piece) (placed rest) [] := ih real.tail fit.2 nested
    rw [placed, Piece.enter]
    cases opens : piece.action.block? with
    | none =>
      refine .flat ⟨opens, ?_⟩ tidy
      exact real.head.closing
    | some block =>
      have plain : piece.action = .plain (.block block) := by
        obtain ⟨⟨instruction⟩ | _ | _, _, _⟩ := piece
        · cases instruction <;> cases opens
          rfl
        · cases opens
        · cases opens
      obtain ⟨own, matched, reached⟩ :=
        (fit.1 block opens).exists_matches (point.after piece) real.tail
      have bare := bare_placed real.tail
      have same := reals_placed real.tail
      have reached' : ∀ pending ∈ own, Reached (point.after piece) (placed rest) pending.point := by
        intro pending mine
        rw [← reached_reals_iff bare.solid, same]
        exact reached pending mine
      have spanned := matched.spanned
      refine .opening plain matched ?_
      rw [List.append_nil]
      refine Tidy.insert_all matched tidy bare
        (fun stop inside => Block.closes_of_mem_ends inside) reached'
        (spanned.sorted bare.solid reached') ?_
      refine spanned.uncrossed bare.solid reached' fun span mine entry later => ?_
      rw [same] at mine later
      refine inside entry later span ?_
      rw [opens]
      exact mine

/-! ### From closings that match to spans that nest -/

/-- **No block that opens before a closing that is due ends after it.** -/
theorem Closes.uncrossed {point : Point} {pieces : List Piece} {sized : List Action}
    {stack : List Pending} (closes : Closes point pieces sized stack) (solid : AllSolid pieces)
    (same : sized = pieces.map Piece.action) :
    ∀ pending ∈ stack,
      Uncrossed pending.point.bytes (spansFrom point.bytes (layout (reals pieces))) := by
  induction closes with
  | nil point =>
    intro pending inside
    cases inside
  | @flat point piece rest sized stack flat later ih =>
    intro pending inside
    have uncrossed := ih solid.tail (List.cons.inj same).2 pending inside
    rcases solid.head with ⟨marker, rfl⟩ | real
    · exact uncrossed
    · rw [reals_cons real.real, spansFrom_flat flat.block]
      intro entry member before own mine
      rcases List.mem_cons.mp member with rfl | member
      · cases mine
      · exact uncrossed entry member before own mine
  | @opening point piece old new rest sized own stack opens unsized spanned later ih =>
    intro pending inside
    rcases solid.head with ⟨marker, rfl⟩ | real
    · cases opens
    · obtain ⟨equal, later'⟩ := List.cons.inj same
      rw [opens] at equal
      cases equal
      rw [reals_cons real.real, spansFrom_opening (by rw [opens]; rfl)]
      intro entry member before span mine
      rcases List.mem_cons.mp member with rfl | member
      · have due := later.sorted
        have reached : ∀ pending ∈ own, Reached (point.after piece) rest pending.point :=
          fun pending inside => later.reached pending (List.mem_append_left _ inside)
        refine (@Spanned.ends_iff _ _ _ _ (· ≤ pending.point.bytes) spanned solid.tail reached).mpr
          (fun other member' => ?_) span mine
        exact (due.le_of_append member' inside).bytes
      · exact ih solid.tail later' pending (List.mem_append_right _ inside) entry member before span
          mine
  | @closing point marker rest sized stack closes later ih =>
    intro pending inside
    rcases List.mem_cons.mp inside with rfl | inside
    · exact uncrossed_start _ _
    · exact ih solid.tail (List.cons.inj same).2 pending inside

/-- The spans of a block whose closings are due where pieces end do so too. -/
theorem Spanned.fits {block : Block} {start : Point} {own : List Pending} {pieces : List Piece}
    (spanned : Spanned block start own) (real : AllReal pieces)
    (reached : ∀ pending ∈ own, Reached start pieces pending.point) : block.Fits pieces := by
  have along : ∀ pending ∈ own, ∀ (marker : Marker) (amount : Nat),
      pending.point.along marker = start.along marker + amount →
        Aligned marker.room amount pieces := fun pending inside marker amount equal =>
    (aligned_iff_reached start real).mpr ⟨pending.point, reached pending inside, equal⟩
  have bytes : ∀ pending ∈ own, ∀ amount : Nat,
      pending.point.bytes = start.bytes + amount → Aligned Piece.bytes amount pieces :=
    fun pending inside amount equal => along pending inside .endTry amount equal
  cases spanned with
  | scope fits =>
    intro stop inside
    rw [List.mem_singleton.mp inside]
    exact along _ List.mem_cons_self .endWith _ fits
  | wait fits =>
    intro stop inside
    rw [List.mem_singleton.mp inside]
    exact along _ List.mem_cons_self .endWait _ fits
  | attempt attempt handler cleanup =>
    have first := bytes _ List.mem_cons_self _ attempt
    rw [Block.fits_exception_iff, handler, cleanup]
    exact ⟨first, first, first⟩
  | handled attempt handler cleanup =>
    have first := bytes _ List.mem_cons_self _ attempt
    have second := bytes _ (List.mem_cons_of_mem _ List.mem_cons_self) _
      (by rw [handler, attempt, Nat.add_assoc])
    rw [Block.fits_exception_iff, cleanup]
    exact ⟨first, second, second⟩
  | cleaned attempt handler cleanup =>
    have first := bytes _ List.mem_cons_self _ attempt
    have second := bytes _ (List.mem_cons_of_mem _ List.mem_cons_self) _
      (by rw [cleanup, attempt, Nat.add_assoc])
    rw [Block.fits_exception_iff, handler]
    exact ⟨first, first, second⟩
  | full attempt handler cleanup =>
    have first := bytes _ List.mem_cons_self _ attempt
    have second := bytes _ (List.mem_cons_of_mem _ List.mem_cons_self) _
      (by rw [handler, attempt, Nat.add_assoc])
    refine Block.fits_exception_iff.mpr ⟨first, second, bytes _
      (List.mem_cons_of_mem _ (List.mem_cons_of_mem _ List.mem_cons_self)) _ ?_⟩
    rw [cleanup, handler, attempt, Nat.add_assoc, Nat.add_assoc, Nat.add_assoc]

theorem real_reals {pieces : List Piece} (solid : AllSolid pieces) : AllReal (reals pieces) := by
  intro piece inside
  obtain ⟨inside, real⟩ := List.mem_filter.mp inside
  rcases solid piece inside with ⟨marker, rfl⟩ | real
  · cases real
  · exact real

/-- **If closings match the sizes of their blocks, spans nest and end where actions end.** -/
theorem Closes.nested {point : Point} {pieces : List Piece} {sized : List Action}
    {stack : List Pending} (closes : Closes point pieces sized stack) (solid : AllSolid pieces)
    (same : sized = pieces.map Piece.action) :
    AllFit (reals pieces) ∧ Nested point.bytes (layout (reals pieces)) := by
  induction closes with
  | nil point => exact ⟨trivial, .nil⟩
  | @flat point piece rest sized stack flat later ih =>
    obtain ⟨fit, nested⟩ := ih solid.tail (List.cons.inj same).2
    rcases solid.head with ⟨marker, rfl⟩ | real
    · exact ⟨fit, nested⟩
    · rw [reals_cons real.real, Nested, spansFrom_flat flat.block]
      refine ⟨⟨fun block opens => ?_, fit⟩, .cons (fun entry inside span mine => ?_) nested⟩
      · rw [flat.block] at opens
        cases opens
      · cases mine
  | @opening point piece old new rest sized own stack opens unsized spanned later ih =>
    obtain ⟨equal, later'⟩ := List.cons.inj same
    obtain ⟨fit, nested⟩ := ih solid.tail later'
    rcases solid.head with ⟨marker, rfl⟩ | real
    · cases opens
    · rw [opens] at equal
      cases equal
      have reached : ∀ pending ∈ own, Reached (point.after piece) rest pending.point :=
        fun pending inside => later.reached pending (List.mem_append_left _ inside)
      rw [reals_cons real.real, Nested, spansFrom_opening (by rw [opens]; rfl)]
      refine ⟨⟨fun block opens' => ?_, fit⟩, .cons (fun entry inside span mine first last => ?_) nested⟩
      · rw [opens] at opens'
        cases opens'
        refine spanned.fits (real_reals solid.tail) fun pending inside => ?_
        rw [reached_reals_iff solid.tail]
        exact reached pending inside
      · obtain ⟨pending, due, here⟩ := spanned.exists_of_mem solid.tail reached mine
        rw [← here] at last ⊢
        exact later.uncrossed solid.tail later' pending (List.mem_append_left _ due) entry inside last
  | closing closes later ih => exact ih solid.tail (List.cons.inj same).2

/-! ### Placing again -/

/-- Closings that are due, entered into what comes after a point. -/
def insertPending (point : Point) (stack : List Pending) (pieces : List Piece) : List Piece :=
  stack.foldl (fun pieces pending => insertClosing pending.marker
    (pending.point.along pending.marker - point.along pending.marker) pieces) pieces

/-- Closings of later points go behind a real piece. -/
theorem insertPending_cons {point : Point} {piece : Piece} {rest : List Piece}
    {stack : List Pending} (real : piece.Real)
    (late : ∀ pending ∈ stack, Point.Le (point.after piece) pending.point) :
    insertPending point stack (piece :: rest) =
      piece :: insertPending (point.after piece) stack rest := by
  induction stack generalizing rest with
  | nil => rfl
  | cons pending stack ih =>
    change insertPending point stack (insertClosing _ _ (piece :: rest)) = _
    rw [insertClosing_later real (late pending List.mem_cons_self),
      ih fun pending inside => late pending (List.mem_cons_of_mem _ inside)]
    rfl

/-- Closings go behind one that is there. -/
theorem insertPending_behind {point : Point} {marker : Marker} (closes : marker.closes = true)
    (stack : List Pending) (rest : List Piece) :
    insertPending point stack (.ofMarker marker :: rest) =
      .ofMarker marker :: insertPending point stack rest := by
  induction stack generalizing rest with
  | nil => rfl
  | cons pending stack ih =>
    change insertPending point stack (insertClosing _ _ (.ofMarker marker :: rest)) = _
    rw [insertClosing_behind closes, ih]
    rfl

/-- The closings of a block are those that are due. -/
theorem Matches.insertClosings_eq {block : Block} {start : Point} {own : List Pending}
    (matched : Matches block start own) (pieces : List Piece) :
    insertClosings block.ends pieces = insertPending start own pieces := by
  unfold Matches at matched
  generalize block.ends = stops at matched
  induction matched generalizing pieces with
  | nil => rfl
  | @cons stop pending stops own first _ ih =>
    obtain ⟨marker, due⟩ := pending
    obtain ⟨rfl, along⟩ := first
    have amount : stop.2 = due.along stop.1 - start.along stop.1 := by
      rw [along, Nat.add_sub_cancel_left]
    have whole := ih (insertClosing stop.1 stop.2 pieces)
    rw [amount] at whole
    change insertClosings stops (insertClosing stop.1 stop.2 pieces) = _
    rw [amount, whole]
    rfl

/-- A closing of this very point goes before real pieces with their closings. -/
theorem insertClosing_placed {pieces : List Piece} (real : AllReal pieces) (marker : Marker)
    (point : Point) :
    insertClosing marker (point.along marker - point.along marker) (placed pieces) =
      .ofMarker marker :: placed pieces := by
  cases pieces with
  | nil => exact insertClosing_nil _ _
  | cons piece rest => exact insertClosing_here real.head

/-- **Closings that match their blocks are where they would be placed again.** -/
theorem Tidy.placed_eq {point : Point} {pieces : List Piece} {stack : List Pending}
    (tidy : Tidy point pieces stack) (bare : AllBare pieces) :
    insertPending point stack (placed (reals pieces)) = pieces := by
  induction tidy with
  | nil point => rfl
  | @flat point piece rest stack flat later ih =>
    obtain ⟨marker, closes, rfl⟩ | real := bare.head
    · exact absurd flat (Action.not_flat_of_closes closes)
    · have due := later.closes.sorted
      rw [reals_cons real.real, placed, Piece.enter, flat.block,
        insertPending_cons real fun pending inside => due.le_of_mem inside, ih bare.tail]
  | @opening point piece block rest own stack opens matched later ih =>
    obtain ⟨marker, closes, rfl⟩ | real := bare.head
    · cases opens
    · have due := later.closes.sorted.append_right
      have whole := ih bare.tail
      rw [insertPending, List.foldl_append] at whole
      rw [reals_cons real.real, placed, Piece.enter, opens,
        insertPending_cons real fun pending inside => due.le_of_mem inside]
      dsimp only [Action.block?]
      rw [matched.insertClosings_eq]
      exact congrArg (piece :: ·) whole
  | @closing point marker rest stack closes later ih =>
    change insertPending point stack (insertClosing _ _ (placed (reals rest))) = _
    rw [insertClosing_placed (real_reals bare.tail.solid), insertPending_behind closes,
      ih bare.tail]

end ActionCode
