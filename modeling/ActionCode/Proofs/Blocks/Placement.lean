/-
**Closings stand exactly where spans end.**

A span is counted in bytes, or in records for a wait, and the spans of one block follow each other.

* `SpanEnds`: a span ends directly after the last row it covers. `Overruns`: the rows end before the
  span does. `Straddles`: a row begins inside the span and ends after it.
* `FitsAt`, `FailsAt`: what that says of all spans of the block at an index.
* `fits_or_fails`: a block closes or names its first fault.
* `collectClosings_fits`, `collectClosings_fails`: what a whole sequence of rows collects.
* **`placeClosings_at_span_ends`**: the closings of rows that have been labeled.
-/

import ActionCode.Proofs.Chunks.Grammar

namespace ActionCode

variable {measure : Located → Nat} {rows rest : List Located} {row : Located}
  {start amount stop index : Nat}

/-! ### One span -/

/-- The room of the rows from one index to another. -/
def covered (measure : Located → Nat) (rows : List Located) (start stop : Nat) : Nat :=
  ((rows.extract start stop).map measure).sum

/-- A span ends **directly after the last row it covers**: fewer rows do not fill it. -/
structure SpanEnds (measure : Located → Nat) (rows : List Located) (start amount stop : Nat) :
    Prop where
  ordered : start ≤ stop
  inside : stop ≤ rows.length
  exact : covered measure rows start stop = amount
  first : ∀ index, start ≤ index → index < stop → covered measure rows start index < amount

/-- The rows end before a span does. -/
def Overruns (measure : Located → Nat) (rows : List Located) (start amount : Nat) : Prop :=
  covered measure rows start rows.length < amount

/-- A row begins inside a span and ends after it. -/
def Straddles (measure : Located → Nat) (rows : List Located) (start amount : Nat) : Prop :=
  ∃ index, start ≤ index ∧ index < rows.length ∧ covered measure rows start index < amount ∧
    amount < covered measure rows start (index + 1)

theorem covered_self : covered measure rows start start = 0 := by
  rw [covered, List.extract_eq_take_drop, Nat.sub_self, List.take_zero, List.map_nil, List.sum_nil]

/-- The first row and those after it. -/
theorem covered_step (here : rows.drop start = row :: rest) (before : start < stop) :
    covered measure rows start stop = measure row + covered measure rows (start + 1) stop := by
  have later : rows.drop (start + 1) = rest := by
    rw [← List.tail_drop, here, List.tail_cons]
  obtain ⟨count, rfl⟩ := Nat.exists_eq_add_of_lt before
  have steps : start + count + 1 - start = count + 1 := by omega
  have steps' : start + count + 1 - (start + 1) = count := by omega
  rw [covered, covered, List.extract_eq_take_drop, List.extract_eq_take_drop, here, later, steps,
    steps', List.take_succ_cons, List.map_cons, List.sum_cons]

theorem lt_length_of_drop (here : rows.drop start = row :: rest) : start < rows.length := by
  apply Nat.lt_of_not_ge
  intro past
  rw [List.drop_eq_nil_of_le past] at here
  cases here

theorem spanEnds_zero (inside : start ≤ rows.length) :
    SpanEnds measure rows start 0 stop ↔ stop = start := by
  constructor
  · intro ends
    have notLater : ¬ start < stop := fun later =>
      absurd (ends.first start (Nat.le_refl _) later) (Nat.not_lt_zero _)
    have := ends.ordered
    omega
  · rintro rfl
    exact ⟨Nat.le_refl _, inside, covered_self, fun index after before => by omega⟩

theorem not_overruns_zero : ¬ Overruns measure rows start 0 := Nat.not_lt_zero _

theorem not_straddles_zero : ¬ Straddles measure rows start 0 := by
  rintro ⟨_, _, _, before, _⟩
  exact Nat.not_lt_zero _ before

/-- **A span goes on behind its first row**, which must fit. -/
theorem spanEnds_step (here : rows.drop start = row :: rest) (positive : 0 < amount) :
    SpanEnds measure rows start amount stop ↔
      measure row ≤ amount ∧ SpanEnds measure rows (start + 1) (amount - measure row) stop := by
  constructor
  · intro ends
    have later : start < stop := by
      apply Nat.lt_of_le_of_ne ends.ordered
      rintro rfl
      have exact := ends.exact
      rw [covered_self] at exact
      omega
    have exact := ends.exact
    rw [covered_step here later] at exact
    refine ⟨by omega, later, ends.inside, by omega, fun index after before => ?_⟩
    have fewer := ends.first index (by omega) before
    rw [covered_step here after] at fewer
    omega
  · rintro ⟨fits, ends⟩
    have later : start < stop := ends.ordered
    refine ⟨Nat.le_of_lt later, ends.inside, ?_, fun index after before => ?_⟩
    · rw [covered_step here later, ends.exact]
      omega
    · rcases Nat.eq_or_lt_of_le after with rfl | after
      · rw [covered_self]
        exact positive
      · have fewer := ends.first index after before
        rw [covered_step here after]
        omega

theorem overruns_step (here : rows.drop start = row :: rest) :
    Overruns measure rows start amount ↔
      measure row ≤ amount ∧ Overruns measure rows (start + 1) (amount - measure row) := by
  unfold Overruns
  rw [covered_step here (lt_length_of_drop here)]
  omega

theorem straddles_step (here : rows.drop start = row :: rest) (positive : 0 < amount) :
    Straddles measure rows start amount ↔
      amount < measure row ∨ Straddles measure rows (start + 1) (amount - measure row) := by
  have first : covered measure rows start (start + 1) = measure row := by
    rw [covered_step here (Nat.lt_succ_self _), covered_self, Nat.add_zero]
  constructor
  · rintro ⟨index, after, inside, before, past⟩
    rcases Nat.eq_or_lt_of_le after with rfl | after
    · rw [first] at past
      exact .inl past
    · rw [covered_step here after] at before
      rw [covered_step here (Nat.lt_add_right 1 after)] at past
      exact .inr ⟨index, after, inside, by omega, by omega⟩
  · rintro (past | ⟨index, after, inside, before, past⟩)
    · refine ⟨start, Nat.le_refl _, lt_length_of_drop here, ?_, ?_⟩
      · rw [covered_self]
        exact positive
      · rw [first]
        exact past
    · refine ⟨index, Nat.le_of_lt after, inside, ?_, ?_⟩
      · rw [covered_step here after]
        omega
      · rw [covered_step here (Nat.lt_add_right 1 after)]
        omega

/-- **A walk ends where its span ends.** -/
theorem spanEnd_ends_iff {overrun misaligned : DisassemblyFault} (inside : start ≤ rows.length) :
    spanEnd measure overrun misaligned start amount (rows.drop start) = .ok (stop, rest) ↔
      SpanEnds measure rows start amount stop ∧ rest = rows.drop stop := by
  generalize ahead : rows.drop start = remaining
  fun_induction spanEnd measure overrun misaligned start amount remaining with
  | case1 start remaining =>
    rw [spanEnds_zero inside, Except.ok.injEq, Prod.mk.injEq]
    constructor
    · rintro ⟨rfl, rfl⟩
      exact ⟨rfl, ahead.symm⟩
    · rintro ⟨rfl, rfl⟩
      exact ⟨rfl, ahead.symm⟩
  | case2 start amount =>
    constructor
    · intro success
      cases success
    · rintro ⟨ends, _⟩
      have past := List.drop_eq_nil_iff.mp ahead
      have same : stop = start := by
        have := ends.ordered
        have := ends.inside
        omega
      have exact := ends.exact
      rw [same, covered_self] at exact
      cases exact
  | case3 start amount row later more fits ih =>
    have next : rows.drop (start + 1) = later := by
      rw [← List.tail_drop, ahead, List.tail_cons]
    have positive : 0 < amount := Nat.pos_of_ne_zero more
    rw [spanEnds_step ahead positive, and_iff_right fits]
    exact ih (lt_length_of_drop ahead) next
  | case4 start amount row later more past =>
    have positive : 0 < amount := Nat.pos_of_ne_zero more
    rw [spanEnds_step ahead positive]
    constructor
    · intro success
      cases success
    · rintro ⟨⟨fits, _⟩, _⟩
      exact absurd fits past

/-- **A walk fails as its span does.** -/
theorem spanEnd_fails_iff {overrun misaligned fault : DisassemblyFault}
    (inside : start ≤ rows.length) :
    spanEnd measure overrun misaligned start amount (rows.drop start) = .error fault ↔
      (Overruns measure rows start amount ∧ fault = overrun) ∨
        (Straddles measure rows start amount ∧ fault = misaligned) := by
  generalize ahead : rows.drop start = remaining
  fun_induction spanEnd measure overrun misaligned start amount remaining with
  | case1 start remaining =>
    constructor
    · intro failure
      cases failure
    · rintro (⟨short, _⟩ | ⟨crossed, _⟩)
      · exact absurd short not_overruns_zero
      · exact absurd crossed not_straddles_zero
  | case2 start amount =>
    have ended : start = rows.length :=
      Nat.le_antisymm inside (List.drop_eq_nil_iff.mp ahead)
    have short : Overruns measure rows start (amount + 1) := by
      rw [Overruns, ← ended, covered_self]
      exact Nat.succ_pos _
    constructor
    · intro failure
      cases failure
      exact .inl ⟨short, rfl⟩
    · rintro (⟨_, rfl⟩ | ⟨⟨index, after, before, _⟩, _⟩)
      · rfl
      · omega
  | case3 start amount row later more fits ih =>
    have next : rows.drop (start + 1) = later := by
      rw [← List.tail_drop, ahead, List.tail_cons]
    have positive : 0 < amount := Nat.pos_of_ne_zero more
    rw [overruns_step ahead, straddles_step ahead positive, and_iff_right fits,
      or_iff_right (Nat.not_lt_of_le fits)]
    exact ih (lt_length_of_drop ahead) next
  | case4 start amount row later more past =>
    have positive : 0 < amount := Nat.pos_of_ne_zero more
    rw [overruns_step ahead, straddles_step ahead positive]
    constructor
    · intro failure
      cases failure
      exact .inr ⟨.inl (Nat.lt_of_not_le past), rfl⟩
    · rintro (⟨⟨fits, _⟩, _⟩ | ⟨_, rfl⟩)
      · exact absurd fits past
      · rfl

/-! ### The spans of one block -/

/-- What the spans of a block are counted in: waits count records, other blocks bytes. -/
def Block.room : Block → Located → Nat
  | .wait _ _ => Located.recordCount
  | _ => Located.span

/-- The spans of a block, each of which begins where the one before ends. -/
def Block.spanSizes : Block → List Nat
  | .scope size => [size.toNat]
  | .wait _ skipCount => [skipCount.toNat]
  | .exception handlers =>
    [handlers.trySize.toNat, handlers.catchSize.toNat, handlers.finallySize.toNat]

/-- The closings of a block whose spans end at these indices. -/
def Block.closingsOf : Block → List Nat → List Closing
  | .scope _, [stop] => [⟨stop, .endWith⟩]
  | .wait _ _, [stop] => [⟨stop, .endWait⟩]
  | .exception handlers, [tryEnd, catchEnd, finallyEnd] =>
    (if handlers.hasCatch then [⟨tryEnd, .catchStart⟩] else []) ++
      (if handlers.hasFinally then [⟨catchEnd, .finallyStart⟩] else []) ++
      [⟨finallyEnd, .endTry⟩]
  | _, _ => []

/-- Spans that follow each other end at these indices. -/
def SpansEnd (measure : Located → Nat) (rows : List Located) : Nat → List Nat → List Nat → Prop
  | _, [], [] => True
  | start, amount :: amounts, stop :: stops =>
    SpanEnds measure rows start amount stop ∧ SpansEnd measure rows stop amounts stops
  | _, _, _ => False

/-- The fault of **the first of some spans that does not end where a row ends**. -/
def SpansFail (measure : Located → Nat) (rows : List Located) (offset : Nat) :
    Nat → List Nat → DisassemblyFault → Prop
  | _, [], _ => False
  | start, amount :: amounts, fault =>
    (Overruns measure rows start amount ∧ fault = .blockOverrun offset amount) ∨
      (Straddles measure rows start amount ∧ fault = .misalignedBlock offset amount) ∨
      ∃ stop, SpanEnds measure rows start amount stop ∧
        SpansFail measure rows offset stop amounts fault

/-- Walk over spans that follow each other, and keep where they end. -/
def walkSpans (measure : Located → Nat) (offset : Nat) :
    Nat → List Nat → List Located → Except DisassemblyFault (List Nat)
  | _, [], _ => .ok []
  | index, amount :: amounts, rows =>
    match spanEnd measure (.blockOverrun offset amount) (.misalignedBlock offset amount) index
        amount rows with
    | .error fault => .error fault
    | .ok (stop, rows) => (walkSpans measure offset stop amounts rows).map (stop :: ·)

/-- The closings of a block stand where its spans end. -/
theorem closings_eq_walkSpans (offset index : Nat) (rows : List Located) (block : Block) :
    closings offset index rows block =
      (walkSpans block.room offset index block.spanSizes rows).map block.closingsOf := by
  rcases block with size | ⟨frame, skipCount⟩ | handlers
  · simp only [closings, byteSpanEnd, Block.spanSizes, walkSpans, Block.room]
    cases spanEnd Located.span (.blockOverrun offset size.toNat)
      (.misalignedBlock offset size.toNat) index size.toNat rows <;> rfl
  · rw [closings, recordSpanEnd, Block.spanSizes, walkSpans, Block.room]
    cases spanEnd Located.recordCount (.blockOverrun offset skipCount.toNat)
      (.misalignedBlock offset skipCount.toNat) index skipCount.toNat rows <;> rfl
  · simp only [closings, byteSpanEnd, Block.spanSizes, walkSpans, Block.room]
    cases spanEnd Located.span (.blockOverrun offset handlers.trySize.toNat)
      (.misalignedBlock offset handlers.trySize.toNat) index handlers.trySize.toNat rows with
    | error fault => rfl
    | ok walked =>
      obtain ⟨tryEnd, rows⟩ := walked
      dsimp only [bind, Except.bind]
      cases spanEnd Located.span (.blockOverrun offset handlers.catchSize.toNat)
        (.misalignedBlock offset handlers.catchSize.toNat) tryEnd handlers.catchSize.toNat rows with
      | error fault => rfl
      | ok walked =>
        obtain ⟨catchEnd, rows⟩ := walked
        dsimp only [bind, Except.bind]
        cases spanEnd Located.span (.blockOverrun offset handlers.finallySize.toNat)
          (.misalignedBlock offset handlers.finallySize.toNat) catchEnd handlers.finallySize.toNat
          rows <;> rfl

/-- A changed result is one that has been changed. -/
theorem except_map_ok_iff {ε α β : Type} {change : α → β} {given : Except ε α} {result : β} :
    given.map change = .ok result ↔ ∃ value, given = .ok value ∧ result = change value := by
  cases given with
  | error fault => exact ⟨nofun, nofun⟩
  | ok value =>
    constructor
    · rintro ⟨⟩
      exact ⟨value, rfl, rfl⟩
    · rintro ⟨_, ⟨⟩, rfl⟩
      rfl

theorem except_map_error_iff {ε α β : Type} {change : α → β} {given : Except ε α} {fault : ε} :
    given.map change = .error fault ↔ given = .error fault := by
  cases given <;> simp [Except.map]

/-- Spans end if the first one does, and then the others. -/
theorem walkSpans_cons_ok_iff {offset : Nat} {amounts stops : List Nat} :
    walkSpans measure offset start (amount :: amounts) rows = .ok stops ↔
      ∃ stop remaining later, spanEnd measure (.blockOverrun offset amount)
          (.misalignedBlock offset amount) start amount rows = .ok (stop, remaining) ∧
        walkSpans measure offset stop amounts remaining = .ok later ∧ stops = stop :: later := by
  rw [walkSpans]
  cases spanEnd measure (.blockOverrun offset amount) (.misalignedBlock offset amount) start amount
    rows with
  | error fault =>
    constructor
    · intro success
      cases success
    · rintro ⟨_, _, _, walked, _⟩
      cases walked
  | ok walked =>
    obtain ⟨stop, remaining⟩ := walked
    dsimp only
    constructor
    · intro success
      obtain ⟨later, further, rfl⟩ := except_map_ok_iff.mp success
      exact ⟨stop, remaining, later, rfl, further, rfl⟩
    · rintro ⟨_, _, later, walked, further, rfl⟩
      cases walked
      exact except_map_ok_iff.mpr ⟨later, further, rfl⟩

/-- Spans fail if the first one does, or if it ends and then the others fail. -/
theorem walkSpans_cons_error_iff {offset : Nat} {amounts : List Nat} {fault : DisassemblyFault} :
    walkSpans measure offset start (amount :: amounts) rows = .error fault ↔
      spanEnd measure (.blockOverrun offset amount) (.misalignedBlock offset amount) start amount
          rows = .error fault ∨
        ∃ stop remaining, spanEnd measure (.blockOverrun offset amount)
            (.misalignedBlock offset amount) start amount rows = .ok (stop, remaining) ∧
          walkSpans measure offset stop amounts remaining = .error fault := by
  rw [walkSpans]
  cases spanEnd measure (.blockOverrun offset amount) (.misalignedBlock offset amount) start amount
    rows with
  | error found =>
    constructor
    · intro failure
      cases failure
      exact .inl rfl
    · rintro (failed | ⟨_, _, walked, _⟩)
      · cases failed
        rfl
      · cases walked
  | ok walked =>
    obtain ⟨stop, remaining⟩ := walked
    dsimp only
    constructor
    · exact fun failure => .inr ⟨stop, remaining, rfl, except_map_error_iff.mp failure⟩
    · rintro (failed | ⟨_, _, walked, failure⟩)
      · cases failed
      · cases walked
        exact except_map_error_iff.mpr failure

theorem walkSpans_ends_iff {offset : Nat} {amounts stops : List Nat}
    (inside : start ≤ rows.length) :
    walkSpans measure offset start amounts (rows.drop start) = .ok stops ↔
      SpansEnd measure rows start amounts stops := by
  induction amounts generalizing start stops with
  | nil => cases stops <;> simp [walkSpans, SpansEnd]
  | cons amount amounts ih =>
    rw [walkSpans_cons_ok_iff]
    constructor
    · rintro ⟨stop, remaining, later, walked, further, rfl⟩
      obtain ⟨ends, rfl⟩ := (spanEnd_ends_iff inside).mp walked
      exact ⟨ends, (ih ends.inside).mp further⟩
    · intro ends
      cases stops with
      | nil => exact ends.elim
      | cons stop stops =>
        exact ⟨stop, _, stops, (spanEnd_ends_iff inside).mpr ⟨ends.1, rfl⟩,
          (ih ends.1.inside).mpr ends.2, rfl⟩

theorem walkSpans_fails_iff {offset : Nat} {amounts : List Nat} {fault : DisassemblyFault}
    (inside : start ≤ rows.length) :
    walkSpans measure offset start amounts (rows.drop start) = .error fault ↔
      SpansFail measure rows offset start amounts fault := by
  induction amounts generalizing start with
  | nil =>
    constructor
    · intro failure
      cases failure
    · exact False.elim
  | cons amount amounts ih =>
    rw [walkSpans_cons_error_iff, spanEnd_fails_iff inside, or_assoc, SpansFail]
    refine or_congr_right (or_congr_right ?_)
    constructor
    · rintro ⟨stop, remaining, walked, failure⟩
      obtain ⟨ends, rfl⟩ := (spanEnd_ends_iff inside).mp walked
      exact ⟨stop, ends, (ih ends.inside).mp failure⟩
    · rintro ⟨stop, ends, failure⟩
      exact ⟨stop, _, (spanEnd_ends_iff inside).mpr ⟨ends, rfl⟩, (ih ends.inside).mpr failure⟩

/-! ### The blocks of a sequence -/

/-- All spans of the block that opens at an index, if one does, end where rows end. -/
def FitsAt (rows : List Located) (index : Nat) : Prop :=
  ∀ row block, rows[index]? = some row → row.action.block? = some block →
    ∃ stops, SpansEnd block.room rows (index + 1) block.spanSizes stops

/-- A block opens at an index, and the first of its spans that does not end where a row ends has
this fault. -/
def FailsAt (rows : List Located) (index : Nat) (fault : DisassemblyFault) : Prop :=
  ∃ row block, rows[index]? = some row ∧ row.action.block? = some block ∧
    SpansFail block.room rows row.offset (index + 1) block.spanSizes fault

/-- These are the closings of the block that opens at an index; none if no block does. -/
def ClosedBy (rows : List Located) (index : Nat) (found : List Closing) : Prop :=
  ∀ row, rows[index]? = some row →
    match row.action.block? with
    | none => found = []
    | some block => ∃ stops, SpansEnd block.room rows (index + 1) block.spanSizes stops ∧
        found = block.closingsOf stops

theorem closings_ends_iff {offset : Nat} {block : Block} {found : List Closing}
    (inside : start ≤ rows.length) :
    closings offset start (rows.drop start) block = .ok found ↔
      ∃ stops, SpansEnd block.room rows start block.spanSizes stops ∧
        found = block.closingsOf stops := by
  rw [closings_eq_walkSpans, except_map_ok_iff]
  simp only [walkSpans_ends_iff inside]

theorem closings_fails_iff {offset : Nat} {block : Block} {fault : DisassemblyFault}
    (inside : start ≤ rows.length) :
    closings offset start (rows.drop start) block = .error fault ↔
      SpansFail block.room rows offset start block.spanSizes fault := by
  rw [closings_eq_walkSpans, except_map_error_iff, walkSpans_fails_iff inside]

/-- **A block closes or names its first fault.** -/
theorem fits_or_fails (rows : List Located) (index : Nat) :
    FitsAt rows index ∨ ∃ fault, FailsAt rows index fault := by
  cases here : rows[index]? with
  | none =>
    refine .inl fun row block found => ?_
    rw [here] at found
    cases found
  | some row =>
    cases opens : row.action.block? with
    | none =>
      refine .inl fun other block found opens' => ?_
      rw [here] at found
      cases found
      rw [opens] at opens'
      cases opens'
    | some block =>
      have inside : index + 1 ≤ rows.length := (List.getElem?_eq_some_iff.mp here).1
      cases walked : closings row.offset (index + 1) (rows.drop (index + 1)) block with
      | error fault =>
        exact .inr ⟨fault, row, block, here, opens, (closings_fails_iff inside).mp walked⟩
      | ok found =>
        obtain ⟨stops, ends, _⟩ := (closings_ends_iff inside).mp walked
        refine .inl fun other block' found opens' => ?_
        rw [here] at found
        cases found
        rw [opens] at opens'
        cases opens'
        exact ⟨stops, ends⟩

/-- The markers of some closings that go to a place. -/
def markersAt (found : List Closing) (place : Nat) : List Marker :=
  (found.filter fun closing => closing.index = place).map Closing.marker

/-- The markers that go to a place, if these are the closings of the blocks at the indices below a
bound. **The block that opened last comes first.** -/
def gapAt (found : Nat → List Closing) (bound place : Nat) : List Marker :=
  (List.range bound).reverse.flatMap fun index => markersAt (found index) place

theorem mapIdx_keep {α : Type} (list : List α) : (list.mapIdx fun _ entry => entry) = list := by
  apply List.ext_getElem?
  intro index
  rw [List.getElem?_mapIdx, Option.map_id']

/-- The markers of a block go in front of those that are there already. -/
theorem addClosings_eq (places : Array (List Marker)) (found : List Closing) :
    (addClosings places found).toList =
      places.toList.mapIdx fun place before => markersAt found place ++ before := by
  induction found with
  | nil => exact (mapIdx_keep _).symm
  | cons closing found ih =>
    change (Array.modify (addClosings places found) closing.index _).toList = _
    rw [Array.toList_modify, ih]
    apply List.ext_getElem?
    intro place
    rw [List.getElem?_modify, List.getElem?_mapIdx, List.getElem?_mapIdx]
    cases places.toList[place]? with
    | none => simp
    | some before =>
      by_cases here : closing.index = place <;> simp [markersAt, here]

/-- **If all blocks close, each place collects the markers of the blocks whose spans end there**,
those of the last block first. -/
theorem collectClosings_fits {found : Nat → List Closing}
    (closed : ∀ index, ClosedBy rows index (found index)) (places : Array (List Marker))
    (inside : start ≤ rows.length) :
    ∃ result, collectClosings places start (rows.drop start) = .ok result ∧
      result.toList = places.toList.mapIdx fun place before =>
        ((List.range' start (rows.length - start)).reverse.flatMap fun index =>
          markersAt (found index) place) ++ before := by
  generalize ahead : rows.drop start = remaining
  induction remaining generalizing start places with
  | nil =>
    have none : rows.length - start = 0 := Nat.sub_eq_zero_of_le (List.drop_eq_nil_iff.mp ahead)
    refine ⟨places, rfl, ?_⟩
    rw [none]
    exact (mapIdx_keep _).symm
  | cons row rest ih =>
    have before := lt_length_of_drop ahead
    have next : rows.drop (start + 1) = rest := by
      rw [← List.tail_drop, ahead, List.tail_cons]
    have here : rows[start]? = some row := by
      rw [← List.head?_drop, ahead, List.head?_cons]
    have one : rows.length - start = rows.length - (start + 1) + 1 := by omega
    have front := closed start row here
    rw [collectClosings, one, List.range'_succ, List.reverse_cons]
    simp only [List.flatMap_append, List.flatMap_singleton, List.append_assoc]
    cases opens : row.action.block? with
    | none =>
      rw [opens] at front
      have bare : found start = [] := front
      obtain ⟨result, collected, same⟩ := ih places before next
      refine ⟨result, collected, ?_⟩
      rw [same, bare]
      rfl
    | some block =>
      rw [opens] at front
      have walked : closings row.offset (start + 1) (rows.drop (start + 1)) block =
          .ok (found start) := (closings_ends_iff before).mpr front
      rw [next] at walked
      obtain ⟨result, collected, same⟩ := ih (addClosings places (found start)) before next
      refine ⟨result, ?_, ?_⟩
      · dsimp only
        rw [walked]
        exact collected
      · rw [same, addClosings_eq, List.mapIdx_mapIdx]
        rfl

/-- **The first block with a fault is the one that is reported.** -/
theorem collectClosings_fails {fault : DisassemblyFault} {distance : Nat}
    (places : Array (List Marker))
    (fit : ∀ index, start ≤ index → index < start + distance → FitsAt rows index)
    (fails : FailsAt rows (start + distance) fault) :
    collectClosings places start (rows.drop start) = .error fault := by
  induction distance generalizing start places with
  | zero =>
    obtain ⟨row, block, here, opens, fails⟩ := fails
    obtain ⟨inside, rfl⟩ := List.getElem?_eq_some_iff.mp here
    rw [Nat.add_zero] at inside
    change rows[start].action.block? = some block at opens
    change SpansFail block.room rows rows[start].offset (start + 1) block.spanSizes fault at fails
    rw [List.drop_eq_getElem_cons inside, collectClosings, opens]
    dsimp only
    rw [(closings_fails_iff inside).mpr fails]
  | succ distance ih =>
    have shift : start + (distance + 1) = start + 1 + distance := by omega
    rw [shift] at fails fit
    have later := fun places => ih places
      (fun index after before => fit index (Nat.le_of_succ_le after) before) fails
    have inside : start < rows.length := by
      obtain ⟨_, _, here, _⟩ := fails
      have := (List.getElem?_eq_some_iff.mp here).1
      omega
    rw [List.drop_eq_getElem_cons inside, collectClosings]
    cases opens : rows[start].action.block? with
    | none => exact later places
    | some block =>
      obtain ⟨stops, ends⟩ := fit start (Nat.le_refl _) (by omega) _ block
        (List.getElem?_eq_getElem inside) opens
      dsimp only
      rw [(closings_ends_iff inside).mpr ⟨stops, ends, rfl⟩]
      exact later _

/-! ### The whole sequence -/

/-- Rows with the markers of each place before the row there, and those of the last place at the
end. -/
def interleaved (gap : Nat → List Marker) : Nat → List Located → List Action
  | place, [] => (gap place).map .marker
  | place, row :: rest =>
    (gap place).map .marker ++ row.action :: interleaved gap (place + 1) rest

/-- Rows that have been labeled: no row closes a span yet, and markers take no bytes. -/
structure Labeled (rows : List Located) : Prop where
  unclosed : ∀ row ∈ rows, row.action.closing? = none
  markers : ∀ row ∈ rows, row.action.isMarker = true → row.span = 0

theorem weave_interleaved (gap : Nat → List Marker) (place : Nat) (rows : List Located)
    (done : Array Action) :
    (weave done ((List.range' place (rows.length + 1)).map gap) rows).toList =
      done.toList ++ interleaved gap place rows := by
  induction rows generalizing place done with
  | nil =>
    rw [List.length_nil, List.range'_succ, List.map_cons, weave, interleaved]
    simp
  | cons row rest ih =>
    rw [List.length_cons, List.range'_succ, List.map_cons, weave, interleaved, ih]
    simp

/-- Without the markers of the gaps, the rows are left. -/
theorem filter_interleaved {gap : Nat → List Marker} (closes : ∀ place, AllClose (gap place))
    (unclosed : ∀ row ∈ rows, row.action.closing? = none) (place : Nat) :
    (interleaved gap place rows).filter (fun action => action.closing?.isNone) =
      rows.map Located.action := by
  have nothing : ∀ place, ((gap place).map Action.marker).filter
      (fun action => action.closing?.isNone) = [] := by
    intro place
    rw [List.filter_eq_nil_iff]
    intro action inside
    obtain ⟨marker, inside', rfl⟩ := List.mem_map.mp inside
    rw [Action.closing?_marker (closes place marker inside')]
    exact Bool.false_ne_true
  induction rows generalizing place with
  | nil => rw [interleaved, nothing, List.map_nil]
  | cons row rest ih =>
    rw [interleaved, List.filter_append, nothing, List.nil_append, List.filter_cons_of_pos,
      ih (fun row inside => unclosed row (List.mem_cons_of_mem _ inside)), List.map_cons]
    rw [unclosed row List.mem_cons_self]
    rfl

/-- A place is not before all rows, and the row before it is a real action. -/
def BehindReal (rows : List Located) (place : Nat) : Prop :=
  ∃ before row, place = before + 1 ∧ rows[before]? = some row ∧ row.action.isMarker = false

/-- Rows that take room are real actions. -/
theorem Labeled.real (labeled : Labeled rows) {block : Block} (inside : row ∈ rows)
    (takes : 0 < block.room row) : row.action.isMarker = false := by
  rw [← Bool.not_eq_true]
  intro marker
  have span := labeled.markers row inside marker
  have count : row.recordCount = 0 := if_pos marker
  cases block <;> simp only [Block.room, span, count, Nat.lt_irrefl] at takes

/-- One more row at the end. -/
theorem covered_succ (inside : rows[index]? = some row) (after : start ≤ index) :
    covered measure rows start (index + 1) = covered measure rows start index + measure row := by
  have steps : index + 1 - start = index - start + 1 := by omega
  have there : (rows.drop start)[index - start]? = some row := by
    rw [List.getElem?_drop, Nat.add_sub_cancel' after, inside]
  rw [covered, covered, List.extract_eq_take_drop, List.extract_eq_take_drop, steps,
    List.take_add_one, there, Option.toList_some, List.map_append, List.sum_append,
    List.map_singleton, List.sum_singleton]

/-- **The last row that a span covers is a real action**, so no label stands before its end. -/
theorem SpanEnds.behindReal {block : Block} (labeled : Labeled rows)
    (ends : SpanEnds block.room rows start amount stop) (behind : BehindReal rows start) :
    BehindReal rows stop := by
  rcases Nat.eq_or_lt_of_le ends.ordered with rfl | later
  · exact behind
  · obtain ⟨last, rfl⟩ := Nat.exists_eq_succ_of_ne_zero (Nat.ne_zero_of_lt later)
    have inside : last < rows.length := ends.inside
    have there := List.getElem?_eq_getElem inside
    have fewer := ends.first last (Nat.le_of_lt_succ later) (Nat.lt_succ_self last)
    have exact := ends.exact
    rw [Nat.succ_eq_add_one, covered_succ there (Nat.le_of_lt_succ later)] at exact
    have takes : 0 < block.room rows[last] := by omega
    exact ⟨last, rows[last], rfl, there, labeled.real (List.getElem_mem inside) takes⟩

theorem SpansEnd.behindReal {block : Block} {amounts stops : List Nat} (labeled : Labeled rows)
    (ends : SpansEnd block.room rows start amounts stops) (behind : BehindReal rows start) :
    ∀ stop ∈ stops, BehindReal rows stop := by
  induction amounts generalizing start stops with
  | nil =>
    cases stops with
    | nil => exact fun stop inside => absurd inside List.not_mem_nil
    | cons stop stops => exact ends.elim
  | cons amount amounts ih =>
    cases stops with
    | nil => exact ends.elim
    | cons first stops =>
      obtain ⟨here, later⟩ := ends
      have behind' := here.behindReal labeled behind
      intro stop inside
      rcases List.mem_cons.mp inside with rfl | inside
      · exact behind'
      · exact ih later behind' stop inside

/-- The closings of a block stand where one of its spans ends. -/
theorem Block.of_mem_closingsOf {block : Block} {stops : List Nat} {closing : Closing}
    (inside : closing ∈ block.closingsOf stops) :
    closing.index ∈ stops ∧ closing.marker.closes = true := by
  unfold closingsOf at inside
  split at inside
  · cases List.mem_singleton.mp inside
    exact ⟨List.mem_cons_self, rfl⟩
  · cases List.mem_singleton.mp inside
    exact ⟨List.mem_cons_self, rfl⟩
  · rename_i handlers tryEnd catchEnd finallyEnd
    rcases List.mem_append.mp inside with inside | inside
    · rcases List.mem_append.mp inside with inside | inside
      · split at inside
        · cases List.mem_singleton.mp inside
          exact ⟨List.mem_cons_self, rfl⟩
        · cases inside
      · split at inside
        · cases List.mem_singleton.mp inside
          exact ⟨List.mem_cons_of_mem _ List.mem_cons_self, rfl⟩
        · cases inside
    · cases List.mem_singleton.mp inside
      exact ⟨List.mem_cons_of_mem _ (List.mem_cons_of_mem _ List.mem_cons_self), rfl⟩
  · cases inside

theorem mem_gapAt {found : Nat → List Closing} {bound place : Nat} {marker : Marker} :
    marker ∈ gapAt found bound place ↔
      ∃ index < bound, ∃ closing ∈ found index,
        closing.index = place ∧ closing.marker = marker := by
  simp [gapAt, markersAt, and_assoc]

/-- What closes a block stands behind a real action, and closes a span. -/
theorem ClosedBy.of_mem {found : List Closing} {closing : Closing} (labeled : Labeled rows)
    (closed : ClosedBy rows index found) (here : rows[index]? = some row)
    (inside : closing ∈ found) :
    BehindReal rows closing.index ∧ closing.marker.closes = true := by
  have same := closed row here
  cases opens : row.action.block? with
  | none =>
    rw [opens] at same
    cases (show found = [] from same)
    cases inside
  | some block =>
    rw [opens] at same
    obtain ⟨stops, ends, rfl⟩ := same
    obtain ⟨atStop, closes⟩ := Block.of_mem_closingsOf inside
    have real : row.action.isMarker = false := by
      cases action : row.action with
      | marker marker =>
        rw [action] at opens
        cases opens
      | _ => rfl
    exact ⟨ends.behindReal labeled ⟨index, row, rfl, here, real⟩ _ atStop, closes⟩

/-- If every block closes, each has its closings. -/
theorem exists_closedBy (fit : ∀ index, FitsAt rows index) :
    ∃ found : Nat → List Closing, ∀ index, ClosedBy rows index (found index) := by
  have each : ∀ index, ∃ found, ClosedBy rows index found := by
    intro index
    cases here : rows[index]? with
    | none =>
      refine ⟨[], fun row found => ?_⟩
      rw [here] at found
      cases found
    | some row =>
      cases opens : row.action.block? with
      | none =>
        refine ⟨[], fun other found => ?_⟩
        rw [here] at found
        cases found
        rw [opens]
      | some block =>
        obtain ⟨stops, ends⟩ := fit index row block here opens
        refine ⟨block.closingsOf stops, fun other found => ?_⟩
        rw [here] at found
        cases found
        rw [opens]
        exact ⟨stops, ends, rfl⟩
  exact Classical.axiomOfChoice each

/-- If all blocks close, the rows are interleaved with what closes them. -/
theorem placeClosings_fits {found : Nat → List Closing}
    (closed : ∀ index, ClosedBy rows index (found index)) :
    placeClosings rows = .ok (interleaved (gapAt found rows.length) 0 rows) := by
  obtain ⟨places, collected, same⟩ := collectClosings_fits closed
    (Array.replicate (rows.length + 1) []) (Nat.zero_le _)
  have gaps : places.toList =
      (List.range' 0 (rows.length + 1)).map (gapAt found rows.length) := by
    rw [same, Array.toList_replicate]
    apply List.ext_getElem
    · rw [List.length_mapIdx, List.length_replicate, List.length_map, List.length_range']
    · intro place _ _
      rw [List.getElem_mapIdx, List.getElem_replicate, List.getElem_map, List.getElem_range',
        List.append_nil, Nat.sub_zero, Nat.zero_add, Nat.one_mul, gapAt, List.range_eq_range']
  rw [List.drop_zero] at collected
  rw [placeClosings, collected]
  dsimp only
  rw [gaps, weave_interleaved]
  rfl

/-- A fault of the first block that has one is reported. -/
theorem placeClosings_fails {fault : DisassemblyFault} (fit : ∀ other < index, FitsAt rows other)
    (fails : FailsAt rows index fault) : placeClosings rows = .error fault := by
  have failed : collectClosings (Array.replicate (rows.length + 1) []) 0 (rows.drop 0) =
      .error fault := by
    rw [← Nat.zero_add index] at fit fails
    exact collectClosings_fails _ (fun other _ before => fit other before) fails
  rw [List.drop_zero] at failed
  rw [placeClosings, failed]

/-- Either all blocks close, or there is a first that does not. -/
theorem all_fit_or_first_fails (rows : List Located) :
    (∀ index, FitsAt rows index) ∨
      ∃ index fault, (∀ other < index, FitsAt rows other) ∧ FailsAt rows index fault := by
  have below : ∀ bound, (∀ index < bound, FitsAt rows index) ∨
      ∃ index fault, (∀ other < index, FitsAt rows other) ∧ FailsAt rows index fault := by
    intro bound
    induction bound with
    | zero => exact .inl fun index before => absurd before (Nat.not_lt_zero _)
    | succ bound ih =>
      rcases ih with fit | fails
      · rcases fits_or_fails rows bound with here | ⟨fault, fails⟩
        · refine .inl fun index before => ?_
          rcases Nat.lt_succ_iff_lt_or_eq.mp before with before | rfl
          · exact fit index before
          · exact here
        · exact .inr ⟨bound, fault, fit, fails⟩
      · exact .inr fails
  rcases below rows.length with fit | fails
  · refine .inl fun index row block here => ?_
    exact fit index (List.getElem?_eq_some_iff.mp here).1 row block here
  · exact .inr fails

/-! ### Rows that are decoded and labeled -/

/-- Binding a row keeps what it is. -/
theorem bindRow_keeps {region : Region} {starts : Std.TreeSet Nat} {row bound : Located}
    {before after : Binding} (ran : bindRow region starts row before = .ok (bound, after)) :
    bound.action.isMarker = row.action.isMarker := by
  rw [bindRow] at ran
  cases isBranch : row.action.branch? with
  | none =>
    rw [isBranch] at ran
    cases ran
    rfl
  | some branch =>
    have plain : row.action.isMarker = false := by
      cases action : row.action with
      | marker marker =>
        rw [action] at isBranch
        cases isBranch
      | _ => rfl
    rw [isBranch] at ran
    unfold bindBranch at ran
    dsimp only at ran
    split at ran
    · cases ran
    · split at ran
      · cases ran
        exact plain.symm
      · cases ran

theorem bindRows_real {region : Region} {starts : Std.TreeSet Nat} {located : List Located}
    {before : Binding} {bound : List Located × Binding}
    (ran : (located.mapM (bindRow region starts)).run before = .ok bound)
    (real : ∀ row ∈ located, row.action.isMarker = false) :
    ∀ row ∈ bound.1, row.action.isMarker = false := by
  induction located generalizing before bound with
  | nil =>
    cases ran
    intro row inside
    cases inside
  | cons first rest ih =>
    rw [run_mapM_cons] at ran
    obtain ⟨here, ranHere, ran⟩ := except_bind_ok_iff.mp ran
    obtain ⟨later, ranLater, ran⟩ := except_bind_ok_iff.mp ran
    cases ran
    intro row inside
    rcases List.mem_cons.mp inside with rfl | inside
    · rw [bindRow_keeps ranHere]
      exact real first List.mem_cons_self
    · exact ih ranLater (fun row inside => real row (List.mem_cons_of_mem _ inside)) row inside

theorem labeled_placeLabels {region : Region} {labels : Std.TreeMap Nat Label}
    {bound : List Located} (real : ∀ row ∈ bound, row.action.isMarker = false) :
    Labeled (placeLabels region labels bound) := by
  have either : ∀ row ∈ placeLabels region labels bound,
      row.action.isMarker = false ∨ ∃ label offset, row = .ofLabel label offset := by
    have placed : ∀ offset, ∀ row ∈ labelAt region labels offset,
        ∃ label offset, row = .ofLabel label offset := by
      intro offset row inside
      unfold labelAt at inside
      split at inside
      · exact ⟨_, _, List.mem_singleton.mp inside⟩
      · cases inside
    intro row inside
    rcases List.mem_append.mp inside with inside | inside
    · obtain ⟨other, inBound, inside⟩ := List.mem_flatMap.mp inside
      rcases List.mem_append.mp inside with inside | inside
      · exact .inr (placed _ row inside)
      · rw [List.mem_singleton.mp inside]
        exact .inl (real other inBound)
    · exact .inr (placed _ row inside)
  constructor
  · intro row inside
    rcases either row inside with plain | ⟨label, offset, rfl⟩
    · cases action : row.action with
      | marker marker =>
        rw [action] at plain
        cases plain
      | _ => rfl
    · rfl
  · intro row inside marker
    rcases either row inside with plain | ⟨label, offset, rfl⟩
    · rw [plain] at marker
      cases marker
    · rfl

/-- Decoded rows with their labels are labeled rows. -/
theorem labeled_of_decoded {maxDepth depth : Nat} {cursor : Cursor} {progress after : Progress}
    {located bound : List Located} {binding : Binding}
    (decoded : decodeFrom maxDepth depth #[] cursor progress = .ok located after)
    (ran : bindLabels cursor.region located after.nextLabel = .ok (bound, binding)) :
    Labeled (placeLabels cursor.region binding.labels bound) := by
  have read := (decodeFrom_ok_iff.mp decoded).read
  have all : AllReal (located.map Located.piece) := by
    rw [read.pieces]
    exact real_piecesFrom (fun _ _ => Instruction.SpelledBy.length_pos) read.formed _
  refine labeled_placeLabels (bindRows_real ran fun row inside => ?_)
  exact (all row.piece (List.mem_map_of_mem inside)).real

/-- **Closings stand exactly where spans end.** The rows may be those of any decoded sequence with
its labels. Closings are placed if all spans of all blocks end where a row ends, and otherwise the
first block with a span that does not is reported, with an overrun if the rows end before the span
and a misaligned block if a row straddles its end. Without the closings the rows are left. Each
block has its own where its spans end, those of the block that opened last come first, and **all of
them come directly after a real action**, before any label. -/
theorem placeClosings_at_span_ends :
    (∀ {maxDepth depth : Nat} {cursor : Cursor} {progress after : Progress}
      {located bound : List Located} {binding : Binding},
      decodeFrom maxDepth depth #[] cursor progress = .ok located after →
      bindLabels cursor.region located after.nextLabel = .ok (bound, binding) →
      Labeled (placeLabels cursor.region binding.labels bound)) ∧
    ∀ rows, Labeled rows →
      ((∃ actions, placeClosings rows = .ok actions) ↔ ∀ index, FitsAt rows index) ∧
      (∀ fault, placeClosings rows = .error fault ↔
        ∃ index, (∀ other < index, FitsAt rows other) ∧ FailsAt rows index fault) ∧
      ∀ actions, placeClosings rows = .ok actions →
        actions.filter (fun action => action.closing?.isNone) = rows.map Located.action ∧
        ∃ found : Nat → List Closing, (∀ index, ClosedBy rows index (found index)) ∧
          actions = interleaved (gapAt found rows.length) 0 rows ∧
          ∀ place, gapAt found rows.length place ≠ [] → BehindReal rows place := by
  refine ⟨labeled_of_decoded, fun rows labeled => ?_⟩
  rcases all_fit_or_first_fails rows with fit | ⟨index, fault, fit, fails⟩
  · obtain ⟨found, closed⟩ := exists_closedBy fit
    have success := placeClosings_fits closed
    have members : ∀ place, ∀ marker ∈ gapAt found rows.length place,
        BehindReal rows place ∧ marker.closes = true := by
      intro place marker inside
      obtain ⟨index, before, closing, inFound, rfl, rfl⟩ := mem_gapAt.mp inside
      exact (closed index).of_mem labeled (List.getElem?_eq_getElem before) inFound
    refine ⟨⟨fun _ => fit, fun _ => ⟨_, success⟩⟩, fun fault => ⟨fun failed => ?_, ?_⟩, ?_⟩
    · rw [success] at failed
      cases failed
    · rintro ⟨index, fit, fails⟩
      exact placeClosings_fails fit fails
    · intro actions succeeds
      rw [success] at succeeds
      cases succeeds
      refine ⟨filter_interleaved (fun place marker inside => (members place marker inside).2)
        labeled.unclosed 0, found, closed, rfl, fun place more => ?_⟩
      obtain ⟨marker, inside⟩ := List.exists_mem_of_ne_nil _ more
      exact (members place marker inside).1
  · have failed := placeClosings_fails fit fails
    refine ⟨⟨?_, fun all => ?_⟩, fun other => ⟨fun failed' => ?_, ?_⟩, ?_⟩
    · rintro ⟨actions, success⟩
      rw [failed] at success
      cases success
    · obtain ⟨found, closed⟩ := exists_closedBy all
      exact ⟨_, placeClosings_fits closed⟩
    · rw [failed] at failed'
      cases failed'
      exact ⟨index, fit, fails⟩
    · rintro ⟨index, fit, fails⟩
      exact placeClosings_fails fit fails
    · intro actions success
      rw [failed] at success
      cases success

/-- A branch to the action behind a block of one action: the block closes before the label. -/
theorem placeClosings_at_span_ends_branch :
    ∃ located bound binding,
      decodeFrom 4 0 #[] (.start 0 [0x99, 2, 0, 6, 0, 0x94, 2, 0, 1, 0, 6, 7]) ⟨0, #[]⟩ =
        .ok located ⟨0, #[]⟩ ∧
      bindLabels ⟨0, 12⟩ located 0 = .ok (bound, binding) ∧
      Labeled (placeLabels ⟨0, 12⟩ binding.labels bound) ∧
      placeClosings (placeLabels ⟨0, 12⟩ binding.labels bound) =
        .ok [.plain (.branch ⟨false, 6, some ⟨0⟩⟩), .plain (.block (.scope 1)),
          .plain (.basic .play), .marker .endWith, .marker (.label ⟨0⟩), .plain (.basic .stop)] ∧
      ∀ index, FitsAt (placeLabels ⟨0, 12⟩ binding.labels bound) index := by
  have decoded : decodeFrom 4 0 #[] (.start 0 [0x99, 2, 0, 6, 0, 0x94, 2, 0, 1, 0, 6, 7])
      ⟨0, #[]⟩ = .ok [⟨.plain (.branch ⟨false, 6, none⟩), 0, 5⟩,
        ⟨.plain (.block (.scope 1)), 5, 5⟩, ⟨.plain (.basic .play), 10, 1⟩,
        ⟨.plain (.basic .stop), 11, 1⟩] ⟨0, #[]⟩ := by
    with_unfolding_all rfl
  have bound : bindLabels ⟨0, 12⟩ [⟨.plain (.branch ⟨false, 6, none⟩), 0, 5⟩,
        ⟨.plain (.block (.scope 1)), 5, 5⟩, ⟨.plain (.basic .play), 10, 1⟩,
        ⟨.plain (.basic .stop), 11, 1⟩] 0 =
      .ok ([⟨.plain (.branch ⟨false, 6, some ⟨0⟩⟩), 0, 5⟩,
        ⟨.plain (.block (.scope 1)), 5, 5⟩, ⟨.plain (.basic .play), 10, 1⟩,
        ⟨.plain (.basic .stop), 11, 1⟩], ⟨Std.TreeMap.insert ∅ 11 ⟨0⟩, 1⟩) := by
    with_unfolding_all rfl
  have labeled := placeClosings_at_span_ends.1 decoded bound
  have placed : placeClosings (placeLabels ⟨0, 12⟩ (Std.TreeMap.insert ∅ 11 ⟨0⟩)
      [⟨.plain (.branch ⟨false, 6, some ⟨0⟩⟩), 0, 5⟩, ⟨.plain (.block (.scope 1)), 5, 5⟩,
        ⟨.plain (.basic .play), 10, 1⟩, ⟨.plain (.basic .stop), 11, 1⟩]) =
      .ok [.plain (.branch ⟨false, 6, some ⟨0⟩⟩), .plain (.block (.scope 1)),
        .plain (.basic .play), .marker .endWith, .marker (.label ⟨0⟩),
        .plain (.basic .stop)] := by
    with_unfolding_all rfl
  exact ⟨_, _, _, decoded, bound, labeled, placed,
    (placeClosings_at_span_ends.2 _ labeled).1.mp ⟨_, placed⟩⟩

end ActionCode
