/-
**The columns of a listing show its structure.**

* `Line.column`: how far a line is indented. `aroundCode`: how many definitions and blocks are around
  the code that a path leads to.
* **`levelAfter_of_scan`**: behind actions that open their spans in turn, the level is that of the
  sequence and one more for each open span. `baseAlong_eq_aroundCode`: if blocks are balanced at every
  level, code begins at the level of what is around it.
* `le_baseAlong`: code of any kind never leads out of what it is in.
* **`listing_shows_structure`**: each action has one line, in the column of what is around it if
  blocks are balanced, and behind the column of the definition it is in in any case.
-/

import ActionCode.Proofs.Blocks.Around
import ActionCode.Proofs.Lines.Addresses

namespace ActionCode

/-! ### Levels and open spans -/

theorem lineLevels_block (base level : Nat) (block : Block) :
    lineLevels base level (.plain (.block block)) = (level, level + 1) := rfl

/-- An action that is no marker is written at the level where it is. -/
theorem lineLevels_unmarked {action : Action} (unmarked : action.isMarker = false)
    (base level : Nat) : (lineLevels base level action).1 = level := by
  cases action with
  | plain instruction => cases instruction <;> rfl
  | define signature body => rfl
  | marker marker => cases unmarked

/-- A closing marker is written one level further out. -/
theorem lineLevels_closing {marker : Marker} (closes : marker.closes = true) (base level : Nat) :
    (lineLevels base level (.marker marker)).1 = max (level - 1) base := by
  cases marker with
  | label id => cases closes
  | _ => rfl

theorem lineLevels_flat {action : Action} (flat : action.Flat) (base level : Nat) :
    (lineLevels base level action).2 = level := by
  obtain ⟨unopening, unclosing⟩ := flat
  cases action with
  | plain instruction =>
    cases instruction with
    | block block => cases unopening
    | _ => rfl
  | define signature body => rfl
  | marker marker =>
    cases marker with
    | label id => rfl
    | _ => cases unclosing

section Spans

variable {place : Nat} {spans after : List OpenSpan}

/-- An action adds to the level what it adds to the open spans. -/
theorem level_of_stepSpans {action : Action} (stepped : stepSpans place spans action = some after)
    (base : Nat) : (lineLevels base (base + spans.length) action).2 = base + after.length := by
  obtain ⟨block, rfl⟩ | ⟨marker, rfl, closes⟩ | flat := action.opening_closing_or_flat
  · obtain rfl := Option.some.inj stepped
    rfl
  · obtain ⟨opener, opening, outer, next, rfl, advances, rfl⟩ :=
      stepSpans_closing_cases closes stepped
    obtain ⟨rfl, rfl⟩ | ⟨stage, next, rfl, isNext, rfl⟩ := Opening.advance?_cases advances
    · have ended : (lineLevels base (base + (outer.length + 1)) (.marker opening.ending)).2 =
          max (base + (outer.length + 1) - 1) base := by
        cases opening <;> rfl
      simp [ended]
    · obtain ⟨_, rfl, _⟩ | ⟨_, rfl, _⟩ := TryStage.next?_cases isNext <;> rfl
  · rw [stepSpans_flat flat] at stepped
    obtain rfl := Option.some.inj stepped
    exact lineLevels_flat flat _ _

/-- **The level behind actions** is that of the sequence and one more for each open span. -/
theorem levelAfter_of_scan {front : List Action} (scanned : scanSpans place spans front = some after)
    (base : Nat) : levelAfter base (base + spans.length) front = base + after.length := by
  induction front generalizing place spans with
  | nil =>
    obtain rfl := Option.some.inj scanned
    rfl
  | cons action rest ih =>
    obtain ⟨next, stepped, isAfter⟩ := Option.bind_eq_some_iff.mp scanned
    show levelAfter base (lineLevels base (base + spans.length) action).2 rest = _
    rw [level_of_stepSpans stepped base]
    exact ih isAfter

end Spans

/-! ### Levels never lead out -/

theorem base_le_lineLevels {base level : Nat} (le : base ≤ level) (action : Action) :
    base ≤ (lineLevels base level action).1 ∧ base ≤ (lineLevels base level action).2 := by
  obtain ⟨block, rfl⟩ | ⟨marker, rfl, closes⟩ | flat := action.opening_closing_or_flat
  · exact ⟨le, Nat.le_succ_of_le le⟩
  · rw [lineLevels_closing closes]
    refine ⟨Nat.le_max_right _ _, ?_⟩
    cases marker with
    | label id => cases closes
    | catchStart => exact le
    | finallyStart => exact le
    | _ => exact Nat.le_max_right _ _
  · rw [lineLevels_flat flat]
    by_cases marked : action.isMarker = true
    · cases action with
      | marker marker =>
        cases marker with
        | label id => exact ⟨Nat.le_refl _, le⟩
        | _ => exact ⟨Nat.le_max_right _ _, le⟩
      | _ => cases marked
    · rw [lineLevels_unmarked (by simpa using marked)]
      exact ⟨le, le⟩

theorem base_le_levelAfter {base level : Nat} (le : base ≤ level) (front : List Action) :
    base ≤ levelAfter base level front := by
  induction front generalizing level with
  | nil => exact le
  | cons action rest ih => exact ih (base_le_lineLevels le action).2

/-- Code along a path is never further out. -/
theorem le_baseAlong (base : Nat) (path : List Nat) (actions : List Action) :
    base ≤ baseAlong base path actions := by
  induction path generalizing base actions with
  | nil => exact Nat.le_refl _
  | cons place path ih =>
    have within := base_le_levelAfter (Nat.le_refl base) (actions.take place)
    exact (Nat.le_succ_of_le within).trans (ih _ _)

/-- A line of a sequence is never further out than the sequence. -/
theorem base_le_lineBehind (base : Nat) (front : List Action) (action : Action) :
    base ≤ (lineBehind base front action).level :=
  (base_le_lineLevels (base_le_levelAfter (Nat.le_refl base) front) action).1

/-! ### What is around -/

/-- The column of a line: how many spaces it begins with. -/
def Line.column (line : Line) : Nat := line.level * indentWidth

/-- How many definitions and blocks are around the code that a path leads to, at all levels. -/
noncomputable def aroundCode : List Nat → List Action → Nat
  | [], _ => 0
  | place :: path, actions =>
    blocksAround actions place + 1 + aroundCode path ((bodyAt? actions place).getD [])

/-- The column of a line shows where the action at a place of the code of a path is: for a label, the
column of the code; for a marker of a block, that of the action that opens the block; for all others,
that of the definitions and blocks around. -/
def InStructure (actions : List Action) (path : List Nat) (code : List Action) (place : Nat)
    (line : Line) : Action → Prop
  | .marker (.label _) => line.column = aroundCode path actions * indentWidth
  | .marker _ =>
    (∃ opener next, Belongs code opener place next) ∧
      ∀ opener next opening, Belongs code opener place next →
        Shows actions ⟨path, opener⟩ opening → line.column = opening.column
  | _ => line.column = (aroundCode path actions + blocksAround code place) * indentWidth

section Balanced

variable {actions code front rest : List Action} {action : Action} {path : List Nat}

/-- Behind the beginning of a balanced sequence the level counts the blocks around. -/
theorem levelAfter_eq_blocksAround (balanced : Derives (front ++ action :: rest))
    (unclosing : action.closing? = none) (base : Nat) :
    levelAfter base base front = base + blocksAround (front ++ action :: rest) front.length := by
  obtain ⟨spans, scanned, _⟩ := exists_scan balanced
  rw [blocksAround_eq balanced unclosing scanned]
  exact levelAfter_of_scan scanned base

/-- **Code begins at the level of what is around it**, if blocks are balanced at every level. -/
theorem baseAlong_eq_aroundCode (balanced : EveryLevel Derives actions)
    (along : codeAlong? path actions = some code) (base : Nat) :
    baseAlong base path actions = base + aroundCode path actions := by
  induction path generalizing actions base with
  | nil => rfl
  | cons place path ih =>
    obtain ⟨body, isBody, inner⟩ := Option.bind_eq_some_iff.mp along
    obtain ⟨front, signature, rest, rfl, rfl⟩ := exists_of_bodyAt? isBody
    have inside := allCodeHolds_iff.mp balanced.2 signature body
    have within := levelAfter_eq_blocksAround balanced.1 rfl base
    rw [baseAlong, aroundCode, bodyAt?_append, List.take_left, within]
    refine (ih (inside (by simp)) inner _).trans ?_
    show _ = base + (_ + 1 + aroundCode path body)
    omega

/-- An action that is no marker is in the column of what is around it. -/
theorem column_unmarked (balanced : EveryLevel Derives actions)
    (along : codeAlong? path actions = some (front ++ action :: rest))
    (unmarked : action.isMarker = false) (unclosing : action.closing? = none) :
    (lineBehind (baseAlong 0 path actions) front action).column =
      (aroundCode path actions + blocksAround (front ++ action :: rest) front.length) *
        indentWidth := by
  have within := levelAfter_eq_blocksAround (balanced.along along).1 unclosing
    (baseAlong 0 path actions)
  rw [Line.column, lineBehind, lineLevels_unmarked unmarked, within,
    baseAlong_eq_aroundCode balanced along, Nat.zero_add]

/-- A label is in the column of its code. -/
theorem column_label (balanced : EveryLevel Derives actions)
    (along : codeAlong? path actions = some code) (front : List Action) (label : Label) :
    (lineBehind (baseAlong 0 path actions) front (.marker (.label label))).column =
      aroundCode path actions * indentWidth := by
  rw [baseAlong_eq_aroundCode balanced along, Nat.zero_add]
  rfl

/-- A closing marker is at the level of the action that opens its block. -/
theorem level_closing {marker : Marker} (closes : marker.closes = true)
    (balanced : Derives (front ++ .marker marker :: rest)) {opener : Nat} {next : Option Opening}
    (belongs : Belongs (front ++ .marker marker :: rest) opener front.length next) (base : Nat) :
    ∃ before block after, front = before ++ .plain (.block block) :: after ∧
      opener = before.length ∧ (lineBehind base front (.marker marker)).level =
        (lineBehind base before (.plain (.block block))).level := by
  obtain ⟨spans, scanned, _⟩ := exists_scan balanced
  obtain ⟨before, block, after, opening, outer, rfl, rfl, rfl, isOuter⟩ :=
    belongs.innermost scanned
  refine ⟨before, block, after, rfl, rfl, ?_⟩
  have level := levelAfter_of_scan scanned base
  have levelBefore := levelAfter_of_scan isOuter base
  rw [List.length_nil, Nat.add_zero] at level levelBefore
  rw [lineBehind, lineBehind, lineLevels_closing closes, lineLevels_block, level, levelBefore]
  simp

/-- A closing marker is in the column of the action that opens its block. -/
theorem column_closing {marker : Marker} (closes : marker.closes = true)
    (balanced : EveryLevel Derives actions)
    (along : codeAlong? path actions = some (front ++ .marker marker :: rest)) {opener : Nat}
    {next : Option Opening}
    (belongs : Belongs (front ++ .marker marker :: rest) opener front.length next) {opening : Line}
    (shown : Shows actions ⟨path, opener⟩ opening) :
    (lineBehind (baseAlong 0 path actions) front (.marker marker)).column = opening.column := by
  obtain ⟨before, block, after, rfl, rfl, level⟩ :=
    level_closing closes (balanced.along along).1 belongs (baseAlong 0 path actions)
  rw [List.append_assoc] at along
  rw [(shows_iff_of_along along).mp shown, Line.column, Line.column, level]

/-- **Lines show what their actions are in**, if blocks are balanced at every level. -/
theorem inStructure (balanced : EveryLevel Derives actions)
    (along : codeAlong? path actions = some (front ++ action :: rest)) :
    InStructure actions path (front ++ action :: rest) front.length
      (lineBehind (baseAlong 0 path actions) front action) action := by
  cases action with
  | plain instruction => exact column_unmarked balanced along rfl rfl
  | define signature body => exact column_unmarked balanced along rfl rfl
  | marker marker =>
    cases marker with
    | label label => exact column_label balanced along front label
    | _ =>
      refine ⟨exists_belongs rfl (balanced.along along).1, ?_⟩
      intro opener next opening belongs shown
      exact column_closing rfl balanced along belongs shown

end Balanced

/-! ### The columns of a listing -/

/-- **Code is behind the column of its definition**, whether blocks are balanced or not. -/
theorem column_inside {actions front body rest : List Action} {signature : Signature}
    {path deeper : List Nat} {place : Nat} {outer inner : Line}
    (along : codeAlong? path actions = some (front ++ .define signature body :: rest))
    (shownOuter : Shows actions ⟨path, front.length⟩ outer)
    (shownInner : Shows actions ⟨path ++ front.length :: deeper, place⟩ inner) :
    outer.column + indentWidth ≤ inner.column := by
  obtain rfl := (shows_iff_of_along along).mp shownOuter
  obtain ⟨before, action, after, alongInner, rfl, rfl⟩ := shows_iff.mp shownInner
  have isBase : baseAlong 0 (path ++ front.length :: deeper) actions =
      baseAlong ((lineBehind (baseAlong 0 path actions) front (.define signature body)).level + 1)
        deeper body := by
    rw [baseAlong_append along, baseAlong, bodyAt?_append, List.take_left]
    rfl
  have deeperLevel := le_baseAlong
    ((lineBehind (baseAlong 0 path actions) front (.define signature body)).level + 1) deeper body
  have within := base_le_lineBehind (baseAlong 0 (path ++ front.length :: deeper) actions) before
    action
  rw [← isBase] at deeperLevel
  rw [Line.column, Line.column, ← Nat.succ_mul]
  exact Nat.mul_le_mul_right _ (deeperLevel.trans within)

/-- **The columns of a listing show its structure.** The listing is made of lines that begin with
the spaces of their columns, as many as there are actions at all levels. Each action has exactly one,
which has its text. If blocks are balanced at every level, its column is that of the definitions and
blocks around; a label is in that of its code, and a marker of a block in that of the action that
opens the block. In any case the lines of code are behind the column of its definition. -/
theorem listing_shows_structure (actions : List Action) :
    listing actions = String.join ((linesOf actions).map fun line =>
        String.ofList (List.replicate line.column ' ') ++ line.text ++ "\n") ∧
      (addresses actions).length = (linesOf actions).length ∧
      (∀ path front action rest, codeAlong? path actions = some (front ++ action :: rest) →
        ∃ line, (∀ other, Shows actions ⟨path, front.length⟩ other ↔ other = line) ∧
          line.text = action.shown ∧
          (EveryLevel Derives actions →
            InStructure actions path (front ++ action :: rest) front.length line action)) ∧
      ∀ path front signature body rest deeper place outer inner,
        codeAlong? path actions = some (front ++ .define signature body :: rest) →
        Shows actions ⟨path, front.length⟩ outer →
        Shows actions ⟨path ++ front.length :: deeper, place⟩ inner →
        outer.column + indentWidth ≤ inner.column := by
  refine ⟨?_, length_addressesFrom 0 0 0 actions, ?_, ?_⟩
  · rw [listing, String.join, List.foldl_map]
    rfl
  · intro path front action rest along
    exact ⟨_, fun other => shows_iff_of_along along, rfl, fun balanced => inStructure balanced along⟩
  · intro path front signature body rest deeper place outer inner along shownOuter shownInner
    exact column_inside along shownOuter shownInner

/-- A scope. -/
def scopeAlone : List Action :=
  [.plain (.block (.scope 1)), .plain (.basic .play), .marker .endWith]

/-- A scope in the code of a definition, behind a label. -/
def scopeInCode : List Action := [.marker (.label ⟨0⟩), .define (.simple "f" ["a"]) scopeAlone]

/-- The action in the scope is behind the column of the definition, and in that of what is around. -/
theorem listing_shows_structure_scope :
    EveryLevel Derives scopeInCode ∧ ∃ outer inner,
      Shows scopeInCode ⟨[], 1⟩ outer ∧ Shows scopeInCode ⟨[1], 1⟩ inner ∧
      InStructure scopeInCode [1] scopeAlone 1 inner (.plain (.basic .play)) ∧
      outer.column + indentWidth ≤ inner.column := by
  have closed : Derives scopeAlone := derives_iff_scan.mpr rfl
  have balanced : EveryLevel Derives scopeInCode :=
    ⟨derives_iff_scan.mpr rfl, trivial, ⟨closed, trivial, trivial, trivial, trivial⟩, trivial⟩
  obtain ⟨_, _, lines, behind⟩ := listing_shows_structure scopeInCode
  obtain ⟨outer, isOuter, _⟩ := lines [] [.marker (.label ⟨0⟩)] _ [] rfl
  obtain ⟨inner, isInner, _, shown⟩ :=
    lines [1] [.plain (.block (.scope 1))] _ [.marker .endWith] rfl
  have shownOuter : Shows scopeInCode ⟨[], 1⟩ outer := (isOuter outer).mpr rfl
  have shownInner : Shows scopeInCode ⟨[1], 1⟩ inner := (isInner inner).mpr rfl
  exact ⟨balanced, outer, inner, shownOuter, shownInner, shown balanced,
    behind [] [.marker (.label ⟨0⟩)] _ scopeAlone [] [] 1 outer inner rfl shownOuter shownInner⟩

end ActionCode
