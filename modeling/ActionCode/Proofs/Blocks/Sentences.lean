/-
**The grammar of blocks.**

* `Sentence`: a sequence whose blocks are closed, as a tree. `Sentence.actions`: its actions.
* `Opening`, `stepOpenings`: the spans that are open, and what an action makes of them.
* **`derives_iff_scan`**: a sequence leaves nothing open exactly if it is that of a sentence.
* **`completable_iff`**: a sequence is the beginning of one exactly if every closing in it continues
  what is open.
-/

import ActionCode.Proofs.Blocks.Pieces

namespace ActionCode

/-! ### Sentences -/

/-- A sequence whose blocks are closed: actions that neither open nor close, scopes, waits and
exception blocks, **each with the sentences it holds**, one after another. -/
inductive Sentence where
  | done
  | flat (action : Action) (isFlat : action.Flat) (rest : Sentence)
  | scope (size : UInt16) (inner rest : Sentence)
  | wait (frame : Option UInt16) (skipCount : UInt8) (inner rest : Sentence)
  | exception (block : TryBlock) (attempt : Sentence) (handler cleanup : Option Sentence)
      (rest : Sentence)

mutual

/-- The actions of a sentence. -/
def Sentence.actions : Sentence → List Action
  | .done => []
  | .flat action _ rest => action :: rest.actions
  | .scope size inner rest =>
    .plain (.block (.scope size)) :: (inner.actions ++ .marker .endWith :: rest.actions)
  | .wait frame skipCount inner rest =>
    .plain (.block (.wait frame skipCount)) ::
      (inner.actions ++ .marker .endWait :: rest.actions)
  | .exception block attempt handler cleanup rest =>
    .plain (.block (.exception block)) :: (attempt.actions ++
      (Sentence.clause .catchStart handler ++ (Sentence.clause .finallyStart cleanup ++
        .marker .endTry :: rest.actions)))

/-- The actions of a handler or a cleanup behind its marker, if there is one. -/
def Sentence.clause (start : Marker) : Option Sentence → List Action
  | none => []
  | some inner => .marker start :: inner.actions

end

/-- The actions of a sequence are those of a sentence. -/
def Derives (actions : List Action) : Prop := ∃ sentence : Sentence, sentence.actions = actions

/-! ### Open spans -/

/-- A span that is open. -/
inductive Opening where
  | scope | wait
  | exception (stage : TryStage)
deriving DecidableEq

/-- The span that is open after a block. -/
def Opening.ofBlock : Block → Opening
  | .scope _ => .scope
  | .wait _ _ => .wait
  | .exception _ => .exception .attempt

/-- The marker that ends the block of a span. -/
def Opening.ending : Opening → Marker
  | .scope => .endWith
  | .wait => .endWait
  | .exception _ => .endTry

/-- The span that follows the innermost one behind a closing marker, or none if its block ends, if
the marker continues it. -/
def Opening.advance? (opening : Opening) (marker : Marker) : Option (Option Opening) :=
  match opening, marker with
  | .scope, .endWith => some none
  | .wait, .endWait => some none
  | .exception _, .endTry => some none
  | .exception stage, marker => (stage.next? marker).map fun next => some (.exception next)
  | _, _ => none

/-- A marker other than the end of an exception block begins its next span. -/
theorem Opening.advance?_exception {marker : Marker} (other : marker ≠ .endTry) (stage : TryStage) :
    (Opening.exception stage).advance? marker =
      (stage.next? marker).map fun next => some (.exception next) := by
  cases marker <;> first | rfl | exact absurd rfl other

/-- The open spans after one more action, innermost first. -/
def stepOpenings (openings : List Opening) (action : Action) : Option (List Opening) :=
  match action.block?, action.closing?, openings with
  | some block, _, _ => some (.ofBlock block :: openings)
  | none, none, _ => some openings
  | none, some _, [] => none
  | none, some marker, innermost :: outer => (innermost.advance? marker).map (·.toList ++ outer)

/-- The open spans after the actions of a sequence. -/
def scanOpenings (openings : List Opening) : List Action → Option (List Opening)
  | [] => some openings
  | action :: rest => (stepOpenings openings action).bind (scanOpenings · rest)

theorem stepOpenings_flat {action : Action} (flat : action.Flat) (openings : List Opening) :
    stepOpenings openings action = some openings := by
  simp only [stepOpenings, flat.block, flat.closing]

theorem stepOpenings_block (block : Block) (openings : List Opening) :
    stepOpenings openings (.plain (.block block)) = some (.ofBlock block :: openings) := rfl

theorem stepOpenings_closing {marker : Marker} (closes : marker.closes = true)
    (innermost : Opening) (outer : List Opening) :
    stepOpenings (innermost :: outer) (.marker marker) =
      (innermost.advance? marker).map (·.toList ++ outer) := by
  cases marker with
  | label id => cases closes
  | _ => rfl

theorem stepOpenings_unopened {marker : Marker} (closes : marker.closes = true) :
    stepOpenings [] (.marker marker) = none := by
  cases marker with
  | label id => cases closes
  | _ => rfl

theorem scanOpenings_cons (openings : List Opening) (action : Action) (rest : List Action) :
    scanOpenings openings (action :: rest) =
      (stepOpenings openings action).bind (scanOpenings · rest) := rfl

theorem scanOpenings_append (openings : List Opening) (front back : List Action) :
    scanOpenings openings (front ++ back) =
      (scanOpenings openings front).bind (scanOpenings · back) := by
  induction front generalizing openings with
  | nil => rfl
  | cons action front ih =>
    rw [List.cons_append, scanOpenings_cons, scanOpenings_cons, Option.bind_assoc]
    exact congrArg _ (funext fun next => ih next)

theorem scanOpenings_ending (opening : Opening) (outer : List Opening) (rest : List Action) :
    scanOpenings (opening :: outer) (.marker opening.ending :: rest) = scanOpenings outer rest := by
  cases opening with
  | exception stage => cases stage <;> rfl
  | _ => rfl

/-! ### Sentences leave nothing open -/

mutual

/-- A sentence leaves open what was open. -/
theorem Sentence.scan_append : ∀ (sentence : Sentence) (openings : List Opening)
    (rest : List Action),
    scanOpenings openings (sentence.actions ++ rest) = scanOpenings openings rest
  | .done, _, _ => rfl
  | .flat action isFlat later, openings, rest => by
    rw [actions, List.cons_append, scanOpenings_cons, stepOpenings_flat isFlat]
    exact later.scan_append openings rest
  | .scope size inner later, openings, rest => by
    rw [actions, List.cons_append, List.append_assoc, scanOpenings_cons, stepOpenings_block]
    refine (inner.scan_append _ _).trans ?_
    exact (scanOpenings_ending .scope openings _).trans (later.scan_append openings rest)
  | .wait frame skipCount inner later, openings, rest => by
    rw [actions, List.cons_append, List.append_assoc, scanOpenings_cons, stepOpenings_block]
    refine (inner.scan_append _ _).trans ?_
    exact (scanOpenings_ending .wait openings _).trans (later.scan_append openings rest)
  | .exception block attempt handler cleanup later, openings, rest => by
    rw [actions, List.cons_append, List.append_assoc, List.append_assoc, List.append_assoc,
      scanOpenings_cons, stepOpenings_block]
    obtain ⟨stage, handled, cleans⟩ : ∃ stage, scanOpenings (.exception .attempt :: openings)
        (clause .catchStart handler ++ (clause .finallyStart cleanup ++
          .marker .endTry :: (later.actions ++ rest))) =
        scanOpenings (.exception stage :: openings) (clause .finallyStart cleanup ++
          .marker .endTry :: (later.actions ++ rest)) ∧
        stage.next? .finallyStart = some .cleanup := by
      cases handler with
      | none => exact ⟨.attempt, rfl, rfl⟩
      | some inner => exact ⟨.handler, inner.scan_append _ _, rfl⟩
    refine (attempt.scan_append _ _).trans (handled.trans ?_)
    cases cleanup with
    | none =>
      exact (scanOpenings_ending (.exception stage) openings _).trans
        (later.scan_append openings rest)
    | some inner =>
      rw [clause, List.cons_append, scanOpenings_cons, stepOpenings_closing rfl,
        Opening.advance?_exception (by decide), cleans]
      refine (inner.scan_append _ _).trans ?_
      exact (scanOpenings_ending (.exception .cleanup) openings _).trans
        (later.scan_append openings rest)

end

/-! ### What leaves nothing open is a sentence -/

/-- Actions that end a span and its block: the markers of further spans, and those in between. -/
def Opening.Ends : Opening → List Action → Prop
  | .exception .attempt, ends => ∃ handler cleanup, ends =
      Sentence.clause .catchStart handler ++
        (Sentence.clause .finallyStart cleanup ++ [.marker .endTry])
  | .exception .handler, ends => ∃ cleanup, ends =
      Sentence.clause .finallyStart cleanup ++ [.marker .endTry]
  | opening, ends => ends = [.marker opening.ending]

/-- A sequence ends all open spans, innermost first, with sentences around. -/
def Remaining : List Opening → List Action → Prop
  | [], actions => Derives actions
  | innermost :: outer, actions => ∃ (sentence : Sentence) (ends rest : List Action),
    actions = sentence.actions ++ (ends ++ rest) ∧ innermost.Ends ends ∧ Remaining outer rest

/-- What goes before every sentence goes before a sequence that begins with one. -/
theorem Remaining.prepend {front : List Action}
    (extendable : ∀ sentence : Sentence, Derives (front ++ sentence.actions))
    {openings : List Opening} {actions : List Action} (remaining : Remaining openings actions) :
    Remaining openings (front ++ actions) := by
  cases openings with
  | nil =>
    obtain ⟨sentence, rfl⟩ := remaining
    exact extendable sentence
  | cons innermost outer =>
    obtain ⟨sentence, ends, rest, rfl, isEnd, later⟩ := remaining
    obtain ⟨longer, isLonger⟩ := extendable sentence
    exact ⟨longer, ends, rest, by rw [isLonger, List.append_assoc], isEnd, later⟩

/-- A block with what ends it goes before every sentence. -/
theorem derives_block {block : Block} {inner : Sentence} {ends : List Action}
    (isEnd : (Opening.ofBlock block).Ends ends) (later : Sentence) :
    Derives (.plain (.block block) :: (inner.actions ++ ends) ++ later.actions) := by
  cases block with
  | scope size =>
    obtain rfl : ends = _ := isEnd
    exact ⟨.scope size inner later, by simp [Sentence.actions, Opening.ending, Opening.ofBlock]⟩
  | wait frame skipCount =>
    obtain rfl : ends = _ := isEnd
    exact ⟨.wait frame skipCount inner later,
      by simp [Sentence.actions, Opening.ending, Opening.ofBlock]⟩
  | exception handlers =>
    obtain ⟨handler, cleanup, rfl⟩ := isEnd
    exact ⟨.exception handlers inner handler cleanup later, by simp [Sentence.actions]⟩

/-- A closing marker ends a block, or begins the next span of an exception block. -/
theorem Opening.advance?_cases {opening : Opening} {marker : Marker} {own : Option Opening}
    (advances : opening.advance? marker = some own) :
    (marker = opening.ending ∧ own = none) ∨ ∃ stage next, opening = .exception stage ∧
      stage.next? marker = some next ∧ own = some (.exception next) := by
  cases opening with
  | exception stage =>
    by_cases ended : marker = .endTry
    · subst ended
      exact .inl ⟨rfl, (Option.some.inj advances).symm⟩
    · rw [advance?_exception ended] at advances
      obtain ⟨next, isNext, rfl⟩ := Option.map_eq_some_iff.mp advances
      exact .inr ⟨stage, next, rfl, isNext, rfl⟩
  | scope => cases marker <;> cases advances; exact .inl ⟨rfl, rfl⟩
  | wait => cases marker <;> cases advances; exact .inl ⟨rfl, rfl⟩

theorem TryStage.next?_cases {stage next : TryStage} {marker : Marker}
    (isNext : stage.next? marker = some next) :
    (stage = .attempt ∧ marker = .catchStart ∧ next = .handler) ∨
      (stage ≠ .cleanup ∧ marker = .finallyStart ∧ next = .cleanup) := by
  cases stage <;> cases marker <;> cases isNext
  · exact .inl ⟨rfl, rfl, rfl⟩
  · exact .inr ⟨nofun, rfl, rfl⟩
  · exact .inr ⟨nofun, rfl, rfl⟩

theorem Opening.ends_ending (opening : Opening) : opening.Ends [.marker opening.ending] := by
  cases opening with
  | exception stage =>
    cases stage with
    | attempt => exact ⟨none, none, rfl⟩
    | handler => exact ⟨none, rfl⟩
    | cleanup => rfl
  | _ => rfl

/-- A marker that begins another span begins what ends the one before. -/
theorem Opening.Ends.of_next {stage next : TryStage} {marker : Marker}
    (isNext : stage.next? marker = some next) (inner : Sentence) {ends : List Action}
    (isEnd : (Opening.exception next).Ends ends) :
    (Opening.exception stage).Ends (.marker marker :: (inner.actions ++ ends)) := by
  obtain ⟨rfl, rfl, rfl⟩ | ⟨early, rfl, rfl⟩ := TryStage.next?_cases isNext
  · obtain ⟨cleanup, rfl⟩ := isEnd
    exact ⟨some inner, cleanup, by simp [Sentence.clause]⟩
  · obtain rfl : ends = _ := isEnd
    cases stage with
    | attempt => exact ⟨none, some inner, by simp [Sentence.clause, ending]⟩
    | handler => exact ⟨some inner, by simp [Sentence.clause, ending]⟩
    | cleanup => exact absurd rfl early

/-- **A sequence that leaves nothing open is that of a sentence.** -/
theorem remaining_of_scan {openings : List Opening} {actions : List Action}
    (closed : scanOpenings openings actions = some []) : Remaining openings actions := by
  induction actions generalizing openings with
  | nil =>
    obtain rfl := Option.some.inj closed
    exact ⟨.done, rfl⟩
  | cons action rest ih =>
    rw [scanOpenings_cons, Option.bind_eq_some_iff] at closed
    obtain ⟨next, stepped, closed⟩ := closed
    have later := ih closed
    obtain ⟨block, rfl⟩ | ⟨marker, rfl, closes⟩ | flat := action.opening_closing_or_flat
    · rw [stepOpenings_block] at stepped
      obtain rfl := Option.some.inj stepped
      obtain ⟨inner, ends, rest, rfl, isEnd, later⟩ := later
      have whole := later.prepend (@derives_block _ inner _ isEnd)
      rwa [List.cons_append, List.append_assoc] at whole
    · cases openings with
      | nil =>
        rw [stepOpenings_unopened closes] at stepped
        cases stepped
      | cons innermost outer =>
        rw [stepOpenings_closing closes] at stepped
        obtain ⟨own, advances, rfl⟩ := Option.map_eq_some_iff.mp stepped
        obtain ⟨rfl, rfl⟩ | ⟨stage, next, rfl, isNext, rfl⟩ := Opening.advance?_cases advances
        · exact ⟨.done, [.marker innermost.ending], rest, rfl, innermost.ends_ending, later⟩
        · obtain ⟨inner, ends, rest, rfl, isEnd, later⟩ := later
          exact ⟨.done, .marker marker :: (inner.actions ++ ends), rest,
            by simp [Sentence.actions], .of_next isNext inner isEnd, later⟩
    · rw [stepOpenings_flat flat] at stepped
      obtain rfl := Option.some.inj stepped
      exact @Remaining.prepend [action]
        (fun sentence => ⟨.flat action flat sentence, by rw [Sentence.actions]; rfl⟩) _ _ later

/-- **A sequence leaves nothing open exactly if it is that of a sentence.** -/
theorem derives_iff_scan {actions : List Action} :
    Derives actions ↔ scanOpenings [] actions = some [] := by
  constructor
  · rintro ⟨sentence, rfl⟩
    have scanned := sentence.scan_append [] []
    rwa [List.append_nil] at scanned
  · exact remaining_of_scan

/-- **A sequence can be completed exactly if every closing in it continues what is open.** -/
theorem completable_iff {front : List Action} :
    (∃ rest, Derives (front ++ rest)) ↔ ∃ openings, scanOpenings [] front = some openings := by
  constructor
  · rintro ⟨rest, derives⟩
    rw [derives_iff_scan, scanOpenings_append, Option.bind_eq_some_iff] at derives
    obtain ⟨openings, scanned, _⟩ := derives
    exact ⟨openings, scanned⟩
  · rintro ⟨openings, scanned⟩
    have closed : ∀ openings : List Opening,
        scanOpenings openings (openings.map fun opening => .marker opening.ending) = some [] := by
      intro openings
      induction openings with
      | nil => rfl
      | cons innermost outer ih => exact (scanOpenings_ending innermost outer _).trans ih
    refine ⟨openings.map fun opening => .marker opening.ending, ?_⟩
    rw [derives_iff_scan, scanOpenings_append, scanned]
    exact closed openings

end ActionCode
