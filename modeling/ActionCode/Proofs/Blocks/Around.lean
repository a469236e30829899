/-
**Which block a marker belongs to, and which blocks are around a place.**

Places are the indices of all actions of a sequence, markers among them.

* `Unended`: a block from the action that opens it up to one of its own markers. The blocks inside
  are closed.
* `Belongs`: the marker at a place is one of the block that opens at another. `Encloses`: a place
  comes before the end of the block that opens at another.
* `scanSpans`: the spans that are open, each with the place of its block. `Standing`: how they
  follow one another; **`standing_of_scan`**: so they stand where a sequence has been scanned.
* **`encloses_iff`**: in a sequence that leaves nothing open, the blocks around a place are those with
  an open span, so that `blocksAround` counts open spans.
-/

import ActionCode.Proofs.Blocks.Sentences
import Mathlib.Data.Set.Card

namespace ActionCode

/-! ### Blocks and their markers -/

/-- A block from the action that opens it up to one of its own markers, in a span of the given kind.
**Blocks inside are closed.** -/
inductive Unended : Opening → List Action → Prop
  | opened (block : Block) {inner : List Action} (derives : Derives inner) :
      Unended (.ofBlock block) (.plain (.block block) :: inner)
  | continued {stage next : TryStage} {marker : Marker} {part inner : List Action}
      (before : Unended (.exception stage) part) (isNext : stage.next? marker = some next)
      (derives : Derives inner) : Unended (.exception next) (part ++ .marker marker :: inner)

/-- The marker at a place is one of the block that opens at another; the block goes on with another
span, or ends there. -/
def Belongs (actions : List Action) (opener place : Nat) (next : Option Opening) : Prop :=
  ∃ front part opening marker rest, actions = front ++ (part ++ .marker marker :: rest) ∧
    front.length = opener ∧ opener + part.length = place ∧ Unended opening part ∧
    opening.advance? marker = some next

/-- A place comes after the beginning of the block that opens at another, and before its end. -/
def Encloses (actions : List Action) (opener place : Nat) : Prop :=
  opener < place ∧ ∃ stop, place < stop ∧ Belongs actions opener stop none

/-- How many blocks are around a place. -/
noncomputable def blocksAround (actions : List Action) (place : Nat) : Nat :=
  {opener | Encloses actions opener place}.ncard

/-- A block begins with the action that opens it. -/
theorem Unended.exists_block {opening : Opening} {part : List Action}
    (unended : Unended opening part) :
    ∃ block rest, part = .plain (.block block) :: rest := by
  induction unended with
  | opened block derives => exact ⟨block, _, rfl⟩
  | continued before isNext derives ih =>
    obtain ⟨block, rest, rfl⟩ := ih
    exact ⟨block, _, rfl⟩

/-! ### Open spans with the places of their blocks -/

/-- A span that is open, and the place where its block opens. -/
abbrev OpenSpan := Nat × Opening

/-- The open spans after the action at a place, innermost first. -/
def stepSpans (place : Nat) (spans : List OpenSpan) (action : Action) : Option (List OpenSpan) :=
  match action.block?, action.closing?, spans with
  | some block, _, _ => some ((place, .ofBlock block) :: spans)
  | none, none, _ => some spans
  | none, some _, [] => none
  | none, some marker, (opener, opening) :: outer =>
    (opening.advance? marker).map fun next => next.toList.map (Prod.mk opener) ++ outer

/-- The open spans after the actions from a place on. -/
def scanSpans (place : Nat) (spans : List OpenSpan) : List Action → Option (List OpenSpan)
  | [] => some spans
  | action :: rest => (stepSpans place spans action).bind (scanSpans (place + 1) · rest)

section Steps

variable {place : Nat} {spans after : List OpenSpan} {action : Action}

theorem stepSpans_flat (flat : action.Flat) : stepSpans place spans action = some spans := by
  simp only [stepSpans, flat.block, flat.closing]

theorem stepSpans_closing {marker : Marker} (closes : marker.closes = true)
    (opener : Nat) (opening : Opening) (outer : List OpenSpan) :
    stepSpans place ((opener, opening) :: outer) (.marker marker) =
      (opening.advance? marker).map fun next => next.toList.map (Prod.mk opener) ++ outer := by
  cases marker with
  | label id => cases closes
  | _ => rfl

theorem stepSpans_unopened {marker : Marker} (closes : marker.closes = true) :
    stepSpans place [] (.marker marker) = none := by
  cases marker with
  | label id => cases closes
  | _ => rfl

/-- What a closing marker makes of the open spans. -/
theorem stepSpans_closing_cases {marker : Marker} (closes : marker.closes = true)
    (stepped : stepSpans place spans (.marker marker) = some after) :
    ∃ opener opening outer next, spans = (opener, opening) :: outer ∧
      opening.advance? marker = some next ∧ after = next.toList.map (Prod.mk opener) ++ outer := by
  rcases spans with _ | ⟨⟨opener, opening⟩, outer⟩
  · rw [stepSpans_unopened closes] at stepped
    cases stepped
  · rw [stepSpans_closing closes] at stepped
    obtain ⟨next, advances, rfl⟩ := Option.map_eq_some_iff.mp stepped
    exact ⟨opener, opening, outer, next, rfl, advances, rfl⟩

/-- Without their places, open spans are followed as before. -/
theorem map_stepSpans (place : Nat) (spans : List OpenSpan) (action : Action) :
    (stepSpans place spans action).map (List.map Prod.snd) =
      stepOpenings (spans.map Prod.snd) action := by
  obtain ⟨block, rfl⟩ | ⟨marker, rfl, closes⟩ | flat := action.opening_closing_or_flat
  · rfl
  · rcases spans with _ | ⟨⟨opener, opening⟩, outer⟩
    · rw [stepSpans_unopened closes, List.map_nil, stepOpenings_unopened closes]
      rfl
    · rw [stepSpans_closing closes, List.map_cons, stepOpenings_closing closes, Option.map_map]
      congr 1
      funext next
      cases next <;> rfl
  · rw [stepSpans_flat flat, stepOpenings_flat flat]
    rfl

/-- Spans further out do not matter to a step. -/
theorem stepSpans_append (stepped : stepSpans place spans action = some after)
    (outer : List OpenSpan) : stepSpans place (spans ++ outer) action = some (after ++ outer) := by
  obtain ⟨block, rfl⟩ | ⟨marker, rfl, closes⟩ | flat := action.opening_closing_or_flat
  · obtain rfl := Option.some.inj stepped
    rfl
  · obtain ⟨opener, opening, inner, next, rfl, advances, rfl⟩ :=
      stepSpans_closing_cases closes stepped
    rw [List.cons_append, stepSpans_closing closes, advances, Option.map_some, List.append_assoc]
  · rw [stepSpans_flat flat] at stepped ⊢
    rw [Option.some.inj stepped]

/-- Every block stays open, unless its end comes. -/
theorem open_or_ended (stepped : stepSpans place spans action = some after) {opener : Nat}
    {opening : Opening} (inside : (opener, opening) ∈ spans) :
    (∃ other, (opener, other) ∈ after) ∨ ∃ marker outer, action = .marker marker ∧
      marker.closes = true ∧ spans = (opener, opening) :: outer ∧
      opening.advance? marker = some none := by
  obtain ⟨block, rfl⟩ | ⟨marker, rfl, closes⟩ | flat := action.opening_closing_or_flat
  · obtain rfl := Option.some.inj stepped
    exact .inl ⟨opening, List.mem_cons_of_mem _ inside⟩
  · obtain ⟨_, _, outer, next, rfl, advances, rfl⟩ := stepSpans_closing_cases closes stepped
    rcases List.mem_cons.mp inside with same | inside
    · obtain ⟨rfl, rfl⟩ := Prod.mk.inj same
      cases next with
      | none => exact .inr ⟨marker, outer, rfl, closes, rfl, advances⟩
      | some next => exact .inl ⟨next, by simp⟩
    · exact .inl ⟨opening, List.mem_append_right _ inside⟩
  · rw [stepSpans_flat flat] at stepped
    obtain rfl := Option.some.inj stepped
    exact .inl ⟨opening, inside⟩

/-- Blocks open at places before, the innermost last. -/
def Descending (place : Nat) (spans : List OpenSpan) : Prop :=
  (place :: spans.map Prod.fst).Pairwise (· > ·)

theorem Descending.lt (descending : Descending place spans) {span : OpenSpan}
    (inside : span ∈ spans) : span.1 < place :=
  List.rel_of_pairwise_cons descending (List.mem_map_of_mem inside)

theorem Descending.nodup (descending : Descending place spans) :
    (spans.map Prod.fst).Nodup :=
  (List.pairwise_cons.mp descending).2.imp fun greater => Nat.ne_of_gt greater

theorem Descending.later (descending : Descending place spans) {further : Nat}
    (le : place ≤ further) : Descending further spans := by
  rw [Descending, List.pairwise_cons] at descending ⊢
  exact ⟨fun opener inside => Nat.lt_of_lt_of_le (descending.1 opener inside) le, descending.2⟩

theorem Descending.step (descending : Descending place spans)
    (stepped : stepSpans place spans action = some after) : Descending (place + 1) after := by
  obtain ⟨block, rfl⟩ | ⟨marker, rfl, closes⟩ | flat := action.opening_closing_or_flat
  · obtain rfl := Option.some.inj stepped
    have later := descending.later (Nat.le_succ place)
    rw [Descending, List.map_cons, List.pairwise_cons]
    refine ⟨fun opener inside => ?_, descending⟩
    rcases List.mem_cons.mp inside with rfl | inside
    · exact Nat.lt_succ_self _
    · exact (List.pairwise_cons.mp later).1 opener inside
  · obtain ⟨opener, opening, outer, next, rfl, advances, rfl⟩ :=
      stepSpans_closing_cases closes stepped
    have later := descending.later (Nat.le_succ place)
    cases next with
    | none => exact List.Pairwise.sublist ((List.sublist_cons_self _ _).cons_cons _) later
    | some next => exact later
  · rw [stepSpans_flat flat] at stepped
    obtain rfl := Option.some.inj stepped
    exact descending.later (Nat.le_succ place)

end Steps

section Scans

variable {place : Nat} {spans after : List OpenSpan} {actions : List Action}

theorem scanSpans_append (place : Nat) (spans : List OpenSpan) (front back : List Action) :
    scanSpans place spans (front ++ back) =
      (scanSpans place spans front).bind (scanSpans (place + front.length) · back) := by
  induction front generalizing place spans with
  | nil => rfl
  | cons action front ih =>
    rw [List.cons_append, scanSpans, scanSpans, Option.bind_assoc]
    refine congrArg _ (funext fun next => ?_)
    rw [ih, List.length_cons, Nat.add_assoc, Nat.add_comm 1]

theorem map_scanSpans (place : Nat) (spans : List OpenSpan) (actions : List Action) :
    (scanSpans place spans actions).map (List.map Prod.snd) =
      scanOpenings (spans.map Prod.snd) actions := by
  induction actions generalizing place spans with
  | nil => rfl
  | cons action rest ih =>
    rw [scanSpans, scanOpenings_cons, ← map_stepSpans place, Option.map_bind, Option.bind_map]
    exact congrArg _ (funext fun next => ih _ next)

/-- Spans further out do not matter to a scan. -/
theorem scanSpans_outer (scanned : scanSpans place spans actions = some after)
    (outer : List OpenSpan) : scanSpans place (spans ++ outer) actions = some (after ++ outer) := by
  induction actions generalizing place spans with
  | nil => rw [← Option.some.inj scanned, scanSpans]
  | cons action rest ih =>
    obtain ⟨next, stepped, scanned⟩ := Option.bind_eq_some_iff.mp scanned
    rw [scanSpans, stepSpans_append stepped outer]
    exact ih scanned

theorem Descending.scan (descending : Descending place spans)
    (scanned : scanSpans place spans actions = some after) :
    Descending (place + actions.length) after := by
  induction actions generalizing place spans with
  | nil => exact Option.some.inj scanned ▸ descending
  | cons action rest ih =>
    obtain ⟨next, stepped, scanned⟩ := Option.bind_eq_some_iff.mp scanned
    have later := ih (descending.step stepped) scanned
    rwa [Nat.add_assoc, Nat.add_comm 1] at later

/-- A sentence leaves open what was open. -/
theorem scanSpans_of_derives (derives : Derives actions) (place : Nat) (spans : List OpenSpan) :
    scanSpans place spans actions = some spans := by
  have closed := map_scanSpans place [] actions
  rw [List.map_nil, derives_iff_scan.mp derives] at closed
  obtain ⟨after, scanned, none⟩ := Option.map_eq_some_iff.mp closed
  rw [List.map_eq_nil_iff.mp none] at scanned
  exact scanSpans_outer scanned spans

theorem derives_of_scanSpans (scanned : scanSpans 0 [] actions = some []) :
    Derives actions := by
  have closed := map_scanSpans 0 [] actions
  rw [scanned] at closed
  exact derives_iff_scan.mpr closed.symm

/-- The beginning of a sentence opens spans of its own. -/
theorem exists_scan_of_derives {front back : List Action} (derives : Derives (front ++ back))
    (place : Nat) (spans : List OpenSpan) :
    ∃ inner, scanSpans place spans front = some (inner ++ spans) := by
  have scanned := scanSpans_of_derives derives place []
  rw [scanSpans_append] at scanned
  obtain ⟨inner, scanned, _⟩ := Option.bind_eq_some_iff.mp scanned
  exact ⟨inner, scanSpans_outer scanned spans⟩

theorem derives_append {front back : List Action} (first : Derives front)
    (second : Derives back) : Derives (front ++ back) := by
  refine derives_of_scanSpans ?_
  rw [scanSpans_append, scanSpans_of_derives first]
  exact scanSpans_of_derives second _ _

end Scans

/-! ### Blocks that have not ended -/

namespace Unended

variable {opening : Opening} {part : List Action}

/-- A block that has not ended leaves its own span open. -/
theorem scan (unended : Unended opening part) (place : Nat) (spans : List OpenSpan) :
    scanSpans place spans part = some ((place, opening) :: spans) := by
  induction unended with
  | opened block derives => exact scanSpans_of_derives derives _ _
  | @continued stage next marker part inner before isNext derives ih =>
    have closes : marker.closes = true := by
      obtain ⟨_, rfl, _⟩ | ⟨_, rfl, _⟩ := TryStage.next?_cases isNext <;> rfl
    have other : marker ≠ .endTry := by
      rintro rfl
      cases stage <;> cases isNext
    rw [scanSpans_append, ih, Option.bind_some, scanSpans, stepSpans_closing closes,
      Opening.advance?_exception other, isNext]
    exact scanSpans_of_derives derives _ _

/-- The beginning of a block keeps it open. -/
theorem scan_front {front back : List Action} (unended : Unended opening (front ++ back))
    (begun : front ≠ []) (place : Nat) (spans : List OpenSpan) :
    ∃ inner own, scanSpans place spans front = some (inner ++ (place, own) :: spans) := by
  generalize isPart : front ++ back = part at unended
  induction unended generalizing front back with
  | opened block derives =>
    obtain ⟨rfl, _⟩ | ⟨rest, rfl, rfl⟩ := List.append_eq_cons_iff.mp isPart
    · exact absurd rfl begun
    · obtain ⟨inner, scanned⟩ := exists_scan_of_derives derives (place + 1)
        ((place, Opening.ofBlock block) :: spans)
      exact ⟨inner, _, scanned⟩
  | @continued stage next marker part inner before isNext derives ih =>
    rcases List.append_eq_append_iff.mp isPart with ⟨later, rfl, _⟩ | ⟨later, rfl, isRest⟩
    · exact ih begun rfl
    · rcases later with _ | ⟨action, later⟩
      · rw [List.append_nil]
        exact ⟨[], _, before.scan place spans⟩
      · obtain ⟨rfl, rfl⟩ := List.cons.inj isRest
        have throughMarker := (Unended.continued before isNext ⟨.done, rfl⟩).scan place spans
        obtain ⟨own, scanned⟩ := exists_scan_of_derives derives
          (place + (part ++ [Action.marker marker]).length) ((place, .exception next) :: spans)
        refine ⟨own, .exception next, ?_⟩
        rw [← List.singleton_append, ← List.append_assoc, scanSpans_append]
        exact (congrArg (Option.bind · _) throughMarker).trans scanned

/-- A block may be followed by more that is closed. -/
theorem append (unended : Unended opening part) {more : List Action} (derives : Derives more) :
    Unended opening (part ++ more) := by
  cases unended with
  | opened block inner => exact .opened block (derives_append inner derives)
  | continued before isNext inner =>
    rw [List.append_assoc]
    exact .continued before isNext (derives_append inner derives)

/-- A block up to its end leaves nothing open. -/
theorem derives_ended (unended : Unended opening part) {marker : Marker}
    (closes : marker.closes = true) (ends : opening.advance? marker = some none) :
    Derives (part ++ [.marker marker]) := by
  refine derives_of_scanSpans ?_
  rw [scanSpans_append, unended.scan, Option.bind_some, scanSpans, stepSpans_closing closes, ends]
  rfl

end Unended

/-! ### How open spans follow one another -/

/-- Open spans, innermost first, and the actions behind which they are open: for each, its block up
to here or up to the block inside. -/
inductive Standing : List OpenSpan → List Action → Prop
  | closed {actions : List Action} (derives : Derives actions) : Standing [] actions
  | inside {spans : List OpenSpan} {front part : List Action} {opening : Opening}
      (outer : Standing spans front) (unended : Unended opening part) :
      Standing ((front.length, opening) :: spans) (front ++ part)

namespace Standing

variable {spans after : List OpenSpan} {front : List Action}

/-- What is closed changes no open span. -/
theorem append (standing : Standing spans front) {more : List Action} (derives : Derives more) :
    Standing spans (front ++ more) := by
  cases standing with
  | closed before => exact .closed (derives_append before derives)
  | inside outer unended =>
    rw [List.append_assoc]
    exact .inside outer (unended.append derives)

/-- The spans stand as they are open after one more action. -/
theorem step (standing : Standing spans front) {action : Action}
    (stepped : stepSpans front.length spans action = some after) :
    Standing after (front ++ [action]) := by
  obtain ⟨block, rfl⟩ | ⟨marker, rfl, closes⟩ | flat := action.opening_closing_or_flat
  · obtain rfl := Option.some.inj stepped
    exact .inside standing (.opened block ⟨.done, rfl⟩)
  · obtain ⟨opener, opening, outer, next, rfl, advances, rfl⟩ :=
      stepSpans_closing_cases closes stepped
    cases standing with
    | inside outer unended =>
      rw [List.append_assoc]
      cases next with
      | none => exact outer.append (unended.derives_ended closes advances)
      | some next =>
        obtain ⟨_, ⟨⟩⟩ | ⟨stage, next, rfl, isNext, ⟨⟩⟩ := Opening.advance?_cases advances
        exact .inside outer (.continued unended isNext ⟨.done, rfl⟩)
  · rw [stepSpans_flat flat] at stepped
    obtain rfl := Option.some.inj stepped
    exact standing.append ⟨.flat action flat .done, by rw [Sentence.actions]; rfl⟩

/-- The spans stand as they are open after more actions. -/
theorem run (standing : Standing spans front) {rest : List Action}
    (scanned : scanSpans front.length spans rest = some after) : Standing after (front ++ rest) := by
  induction rest generalizing front spans with
  | nil =>
    rw [List.append_nil]
    exact Option.some.inj scanned ▸ standing
  | cons action rest ih =>
    obtain ⟨next, stepped, scanned⟩ := Option.bind_eq_some_iff.mp scanned
    rw [List.append_cons]
    refine ih (standing.step stepped) ?_
    rwa [List.length_append]

/-- A closing marker belongs to the innermost open block. -/
theorem belongs {opener : Nat} {opening : Opening} {outer : List OpenSpan}
    (standing : Standing ((opener, opening) :: outer) front) {marker : Marker}
    {next : Option Opening} (advances : opening.advance? marker = some next) (rest : List Action) :
    Belongs (front ++ .marker marker :: rest) opener front.length next := by
  cases standing with
  | @inside _ front part _ _ unended =>
    exact ⟨front, part, opening, marker, rest, List.append_assoc .., rfl,
      List.length_append.symm, unended, advances⟩

/-- Every open block ends, if nothing is left open. -/
theorem exists_stop (standing : Standing spans front) {rest : List Action}
    (closed : scanSpans front.length spans rest = some []) {opener : Nat} {opening : Opening}
    (inside : (opener, opening) ∈ spans) :
    ∃ stop, front.length ≤ stop ∧ Belongs (front ++ rest) opener stop none := by
  induction rest generalizing front spans opening with
  | nil =>
    obtain rfl := Option.some.inj closed
    cases inside
  | cons action rest ih =>
    obtain ⟨next, stepped, closed⟩ := Option.bind_eq_some_iff.mp closed
    obtain ⟨other, inside⟩ | ⟨marker, outer, rfl, closes, rfl, ends⟩ :=
      open_or_ended stepped inside
    · have length : (front ++ [action]).length = front.length + 1 := List.length_append
      obtain ⟨stop, le, belongs⟩ := ih (standing.step stepped) (length ▸ closed) inside
      rw [← List.append_cons] at belongs
      exact ⟨stop, by omega, belongs⟩
    · exact ⟨front.length, Nat.le_refl _, standing.belongs ends rest⟩

end Standing

/-! ### Blocks around places -/

section Around

variable {spans : List OpenSpan} {front rest : List Action}

theorem descending_of_scan (scanned : scanSpans 0 [] front = some spans) :
    Descending front.length spans := by
  have descending : Descending 0 [] := List.pairwise_singleton _ _
  have later := descending.scan scanned
  rwa [Nat.zero_add] at later

/-- What is scanned to the end stands where it is. -/
theorem standing_of_scan (scanned : scanSpans 0 [] front = some spans) : Standing spans front :=
  Standing.run (.closed ⟨.done, rfl⟩) scanned

/-- The beginning of a sequence that leaves nothing open, and the rest. -/
theorem exists_scan (balanced : Derives (front ++ rest)) : ∃ spans,
    scanSpans 0 [] front = some spans ∧ scanSpans front.length spans rest = some [] := by
  have scanned := scanSpans_of_derives balanced 0 []
  rw [scanSpans_append, Nat.zero_add] at scanned
  exact Option.bind_eq_some_iff.mp scanned

/-- A block that has begun and ends later is open. -/
theorem exists_opening_of_encloses {opener : Nat}
    (encloses : Encloses (front ++ rest) opener front.length)
    (scanned : scanSpans 0 [] front = some spans) : ∃ opening, (opener, opening) ∈ spans := by
  obtain ⟨begun, stop, unfinished, before, part, _, marker, later, whole, rfl, rfl, unended, _⟩ := encloses
  -- The block divides into what comes before the place, which is not nothing, and what comes after.
  obtain ⟨own, rfl, isRest⟩ : ∃ own, front = before ++ own ∧
      own ++ rest = part ++ .marker marker :: later := by
    rcases List.append_eq_append_iff.mp whole with ⟨own, rfl, _⟩ | ⟨own, rfl, isRest⟩
    · rw [List.length_append] at begun
      omega
    · exact ⟨own, rfl, isRest.symm⟩
  obtain ⟨back, rfl⟩ : ∃ back, part = own ++ back := by
    rcases List.append_eq_append_iff.mp isRest with ⟨back, rfl, _⟩ | ⟨back, rfl, _⟩
    · exact ⟨back, rfl⟩
    · rw [List.length_append, List.length_append] at unfinished
      omega
  rw [scanSpans_append, Nat.zero_add] at scanned
  obtain ⟨outer, _, scanned⟩ := Option.bind_eq_some_iff.mp scanned
  have filled : own ≠ [] := by
    rintro rfl
    rw [List.append_nil] at begun
    omega
  obtain ⟨inner, opening, isOpen⟩ := unended.scan_front filled before.length outer
  rw [isOpen] at scanned
  obtain rfl := Option.some.inj scanned
  exact ⟨opening, by simp⟩

/-- **The blocks around a place are those with an open span**, in a sequence that leaves nothing open,
if no span is closed there. -/
theorem encloses_iff {action : Action} (balanced : Derives (front ++ action :: rest))
    (unclosing : action.closing? = none) (scanned : scanSpans 0 [] front = some spans)
    {opener : Nat} :
    Encloses (front ++ action :: rest) opener front.length ↔
      ∃ opening, (opener, opening) ∈ spans := by
  refine ⟨fun encloses => exists_opening_of_encloses encloses scanned, ?_⟩
  rintro ⟨opening, inside⟩
  refine ⟨(descending_of_scan scanned).lt inside, ?_⟩
  obtain ⟨same, isSame, closed⟩ := exists_scan balanced
  obtain rfl : spans = same := Option.some.inj (scanned.symm.trans isSame)
  obtain ⟨next, stepped, closed⟩ := Option.bind_eq_some_iff.mp closed
  have later := (standing_of_scan scanned).step stepped
  obtain ⟨other, inside⟩ | ⟨marker, _, rfl, closes, _⟩ := open_or_ended stepped inside
  · have length : (front ++ [action]).length = front.length + 1 := List.length_append
    obtain ⟨stop, le, belongs⟩ := later.exists_stop (length ▸ closed) inside
    rw [← List.append_cons] at belongs
    exact ⟨stop, by omega, belongs⟩
  · rw [Action.closing?, closes] at unclosing
    cases unclosing

/-- **As many blocks are around a place as spans are open.** -/
theorem blocksAround_eq {action : Action} (balanced : Derives (front ++ action :: rest))
    (unclosing : action.closing? = none) (scanned : scanSpans 0 [] front = some spans) :
    blocksAround (front ++ action :: rest) front.length = spans.length := by
  have same : {opener | Encloses (front ++ action :: rest) opener front.length} =
      ((spans.map Prod.fst).toFinset : Set Nat) := by
    ext opener
    simp [encloses_iff balanced unclosing scanned]
  rw [blocksAround, same, Set.ncard_coe_finset,
    List.toFinset_card_of_nodup (descending_of_scan scanned).nodup, List.length_map]

/-- The block that a marker belongs to is the innermost one that is open. -/
theorem Belongs.innermost {action : Action} {opener : Nat} {next : Option Opening}
    (belongs : Belongs (front ++ action :: rest) opener front.length next)
    (scanned : scanSpans 0 [] front = some spans) :
    ∃ before block after opening outer, front = before ++ .plain (.block block) :: after ∧
      opener = before.length ∧ spans = (opener, opening) :: outer ∧
      scanSpans 0 [] before = some outer := by
  obtain ⟨before, part, opening, marker, later, whole, rfl, length, unended, _⟩ := belongs
  rw [← List.append_assoc] at whole
  obtain ⟨rfl, _⟩ := List.append_inj whole (by rw [List.length_append, length])
  rw [scanSpans_append, Nat.zero_add] at scanned
  obtain ⟨outer, isOuter, isOpen⟩ := Option.bind_eq_some_iff.mp scanned
  rw [unended.scan] at isOpen
  obtain ⟨block, after, rfl⟩ := unended.exists_block
  exact ⟨before, block, after, opening, outer, rfl, rfl, (Option.some.inj isOpen).symm, isOuter⟩

/-- Every closing marker belongs to a block, in a sequence that leaves nothing open. -/
theorem exists_belongs {marker : Marker} (closes : marker.closes = true)
    (balanced : Derives (front ++ .marker marker :: rest)) :
    ∃ opener next, Belongs (front ++ .marker marker :: rest) opener front.length next := by
  obtain ⟨spans, scanned, closed⟩ := exists_scan balanced
  obtain ⟨_, stepped, _⟩ := Option.bind_eq_some_iff.mp closed
  obtain ⟨opener, opening, outer, next, rfl, advances, _⟩ :=
    stepSpans_closing_cases closes stepped
  exact ⟨opener, next, (standing_of_scan scanned).belongs advances rest⟩

end Around

end ActionCode
