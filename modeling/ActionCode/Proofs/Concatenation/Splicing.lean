/-
**Sequences spliced where labels meet.**

* `endLabel`, `startLabel`, `meeting`: the labels that sequences end and start with, and those that
  meet if one sequence comes after another.
* `spliced`: one sequence after another, under other names. **Of two labels that meet, one is
  left.**
* `closingPlaces`: where spans are closed, counted in real actions.
* **`realActions_spliced`**, `closingPlaces_spliced`: real actions and closings come one after another.
* **`finished_front`**, `finished_back`: a finished sequence without the label at its end, or start.
-/

import ActionCode.Proofs.Concatenation.Listing
import ActionCode.Proofs.RoundTrip.Programs

namespace ActionCode

variable {names names' : Label → Label}

/-! ### The seam -/

/-- The label that a sequence ends with. -/
def endLabel (actions : List Action) : Option Label := actions.getLast?.bind Action.label?

/-- The label that a sequence starts with. -/
def startLabel (actions : List Action) : Option Label := actions.head?.bind Action.label?

/-- The labels that meet where one sequence ends and another one starts. -/
def meeting (first second : List Action) : Option (Label × Label) :=
  (endLabel first).bind fun label => (startLabel second).map (label, ·)

/-- One sequence after another, each under other names for its labels. Of two labels that meet, the
second is left out. -/
def spliced (names names' : Label → Label) (first second : List Action) : List Action :=
  relabelAll names first ++
    relabelAll names' (if (meeting first second).isSome then second.tail else second)

/-- The marker of a label, if there is one. -/
def labelling (label : Option Label) : List Action :=
  label.toList.map fun label => .marker (.label label)

theorem relabelAll_append (names : Label → Label) (front back : List Action) :
    relabelAll names (front ++ back) = relabelAll names front ++ relabelAll names back := by
  rw [relabelAll_eq_map, relabelAll_eq_map, relabelAll_eq_map, List.map_append]

theorem relabelAll_labelling (names : Label → Label) (label : Option Label) :
    relabelAll names (labelling label) = labelling (label.map names) := by
  cases label <;> rfl

theorem endLabel_labelling {front : List Action} (unended : endLabel front = none)
    (label : Option Label) : endLabel (front ++ labelling label) = label := by
  cases label with
  | none => rw [labelling, Option.toList_none, List.map_nil, List.append_nil, unended]
  | some label =>
    show (front ++ [Action.marker (.label label)]).getLast?.bind Action.label? = some label
    rw [List.getLast?_concat]
    rfl

theorem startLabel_labelling {back : List Action} (unstarted : startLabel back = none)
    (label : Option Label) : startLabel (labelling label ++ back) = label := by
  cases label with
  | none => exact unstarted
  | some label => rfl

theorem meeting_labelling {front back : List Action} (unended : endLabel front = none)
    (unstarted : startLabel back = none) (label label' : Option Label) :
    meeting (front ++ labelling label) (labelling label' ++ back) =
      label.bind fun label => label'.map (label, ·) := by
  rw [meeting, endLabel_labelling unended, startLabel_labelling unstarted]

/-- **Sequences are spliced at one label**, if it goes by its names in both. -/
theorem spliced_labelling {front back : List Action} (unended : endLabel front = none)
    (unstarted : startLabel back = none) {label label' between : Option Label}
    (same : label ≠ none → between = label.map names)
    (same' : label' ≠ none → between = label'.map names')
    (neither : label = none → label' = none → between = none) :
    spliced names names' (front ++ labelling label) (labelling label' ++ back) =
      relabelAll names front ++ labelling between ++ relabelAll names' back := by
  rw [spliced, meeting_labelling unended unstarted, relabelAll_append, relabelAll_labelling]
  cases label with
  | none =>
    show _ ++ [] ++ relabelAll names' (labelling label' ++ back) = _
    rw [List.append_nil, relabelAll_append, relabelAll_labelling, List.append_assoc]
    cases label' with
    | none => rw [neither rfl rfl]; rfl
    | some label' => rw [same' (Option.some_ne_none _)]
  | some label =>
    rw [same (Option.some_ne_none _)]
    cases label' <;> rfl

/-! ### Real actions and closings -/

theorem isMarker_of_label {action : Action} {label : Label} (isLabel : action.label? = some label) :
    action = .marker (.label label) := (Action.label?_eq_some_iff _).mp isLabel

/-- The second sequence without a label that meets another one. -/
theorem tail_of_meeting {first second : List Action} (meets : (meeting first second).isSome) :
    ∃ label, second = .marker (.label label) :: second.tail := by
  obtain ⟨both, isBoth⟩ := Option.isSome_iff_exists.mp meets
  obtain ⟨label, _, isStart⟩ := Option.bind_eq_some_iff.mp isBoth
  obtain ⟨label', isStart, _⟩ := Option.map_eq_some_iff.mp isStart
  cases second with
  | nil => cases isStart
  | cons action rest => exact ⟨label', by rw [isMarker_of_label isStart, List.tail_cons]⟩

theorem realActions_relabelAll (names : Label → Label) (actions : List Action) :
    realActions (relabelAll names actions) = relabelAll names (realActions actions) := by
  rw [relabelAll_eq_map, relabelAll_eq_map, realActions, realActions, List.filter_map]
  exact congrArg (List.map _) (List.filter_congr fun action _ =>
    congrArg not action.isMarker_relabelled)

/-- **The real actions of spliced sequences come one after another.** -/
theorem realActions_spliced (names names' : Label → Label) (first second : List Action) :
    realActions (spliced names names' first second) =
      relabelAll names (realActions first) ++ relabelAll names' (realActions second) := by
  have rest : realActions (if (meeting first second).isSome then second.tail else second) =
      realActions second := by
    split
    · rename_i meets
      obtain ⟨label, same⟩ := tail_of_meeting meets
      rw [same]
      rfl
    · rfl
  rw [spliced, ← rest, ← realActions_relabelAll, ← realActions_relabelAll]
  exact List.filter_append ..

/-- The markers that close spans, each with how many real actions stand before it, if some do so
already. -/
def closingPlaces (count : Nat) : List Action → List (Nat × Marker)
  | [] => []
  | action :: rest => (action.closing?.map (count, ·)).toList ++
    closingPlaces (if action.isMarker then count else count + 1) rest

theorem closingPlaces_append (count : Nat) (front back : List Action) :
    closingPlaces count (front ++ back) =
      closingPlaces count front ++ closingPlaces (count + (realActions front).length) back := by
  induction front generalizing count with
  | nil => rfl
  | cons action rest ih =>
    rw [List.cons_append, closingPlaces, closingPlaces, ih, List.append_assoc]
    refine congrArg (fun later => _ ++ (_ ++ closingPlaces later back)) ?_
    rw [realActions, realActions, List.filter_cons]
    cases action.isMarker with
    | true => rfl
    | false => exact Nat.add_right_comm ..

theorem closingPlaces_relabelAll (names : Label → Label) (count : Nat) (actions : List Action) :
    closingPlaces count (relabelAll names actions) = closingPlaces count actions := by
  induction actions generalizing count with
  | nil => rw [relabelAll]
  | cons action rest ih =>
    rw [relabelAll, closingPlaces, closingPlaces, ih, action.closing?_relabelled,
      action.isMarker_relabelled]

/-- **Spans of spliced sequences are closed where they were**: in the first sequence, and in the second
one behind the actions of the first. -/
theorem closingPlaces_spliced (names names' : Label → Label) (first second : List Action) :
    closingPlaces 0 (spliced names names' first second) =
      closingPlaces 0 first ++ closingPlaces (realActions first).length second := by
  have rest : ∀ count, closingPlaces count
      (if (meeting first second).isSome then second.tail else second) =
        closingPlaces count second := by
    intro count
    split
    · rename_i meets
      obtain ⟨label, same⟩ := tail_of_meeting meets
      rw [same]
      rfl
    · rfl
  have length : (relabelAll names (realActions first)).length = (realActions first).length := by
    rw [relabelAll_eq_map, List.length_map]
  rw [spliced, closingPlaces_append, closingPlaces_relabelAll, closingPlaces_relabelAll, rest,
    realActions_relabelAll, length, Nat.zero_add]

/-! ### Finished sequences -/

/-- Single pushes end with the same label. -/
theorem endLabel_splitPushes (actions : List Action) :
    endLabel (splitPushes actions) = endLabel actions := by
  rcases List.eq_nil_or_concat actions with rfl | ⟨front, action, rfl⟩
  · rfl
  · rw [List.concat_eq_append, splitPushes_append, splitPushes_singleton, endLabel, endLabel,
      List.getLast?_concat]
    by_cases none : action.pushed = []
    · rw [Action.splitPush_of_unpushed none, List.getLast?_concat]
    · obtain ⟨values, last, pushed⟩ := (List.eq_nil_or_concat action.pushed).resolve_left none
      rw [Action.splitPush_of_pushed none, pushed, List.concat_eq_append, List.map_append,
        List.map_singleton, ← List.append_assoc, List.getLast?_concat]
      exact (Action.unseen_of_pushed none).1.symm

/-- Single pushes start with the same label. -/
theorem startLabel_splitPushes (actions : List Action) :
    startLabel (splitPushes actions) = startLabel actions := by
  cases actions with
  | nil => rfl
  | cons action rest =>
    rw [splitPushes_cons, startLabel, startLabel, List.head?_cons]
    by_cases none : action.pushed = []
    · rw [Action.splitPush_of_unpushed none]
      rfl
    · obtain ⟨first, values, pushed⟩ := List.exists_cons_of_ne_nil none
      rw [Action.splitPush_of_pushed none, pushed]
      exact (Action.unseen_of_pushed none).1.symm

theorem splitPushes_labelPieces (labels : Nat → Option Label) (place : Nat) :
    splitPushes ((labelPieces labels place).map Piece.action) = labelling (labels place) := by
  rw [labelPieces]
  cases labels place <;> rfl

theorem Piece.Bare.label? {piece : Piece} (bare : piece.Bare) : piece.action.label? = none := by
  obtain ⟨marker, closes, rfl⟩ | real := bare
  · cases marker with
    | label label => cases closes
    | _ => rfl
  · exact real.label?

/-- Without the label at the end, no sequence ends with a label. -/
theorem endLabel_openLabels {pieces : List Piece} (bare : AllBare pieces)
    (labels : Nat → Option Label) (position : Nat) :
    endLabel ((openLabels labels position pieces).map Piece.action) = none := by
  have before : ∀ (front : List Piece) (piece : Piece) (rest : List Piece),
      piece.action.label? = none → endLabel (rest.map Piece.action) = none →
        endLabel ((front ++ piece :: rest).map Piece.action) = none := by
    intro front piece rest own later
    rw [endLabel, List.map_append, List.getLast?_append, List.map_cons, List.getLast?_cons]
    rw [endLabel] at later
    cases last : (rest.map Piece.action).getLast? with
    | none => exact own
    | some action =>
      rw [last] at later
      exact later
  induction pieces generalizing position with
  | nil => rfl
  | cons piece rest ih =>
    rw [openLabels]
    split
    · exact before [] piece _ bare.head.label? (ih bare.tail _)
    · exact before _ piece _ bare.head.label? (ih bare.tail _)

section

variable {pieces : List Piece}

/-- **A finished sequence ends with the label of the byte behind it.** -/
theorem finished_front (real : AllReal pieces) (fit : AllFit pieces) (nextLabel : Nat) :
    ∃ front, front = splitPushes ((openLabels (labelsOf nextLabel pieces) 0
        (placed (bindFrom (labelsOf nextLabel pieces) 0 pieces))).map Piece.action) ∧
      endLabel front = none ∧
      finished nextLabel pieces = front ++ labelling (labelsOf nextLabel pieces (widthOf pieces)) := by
  have real' := real.bindFrom (labelsOf nextLabel pieces) 0
  refine ⟨_, rfl, ?_, ?_⟩
  · rw [endLabel_splitPushes]
    exact endLabel_openLabels (bare_placed real') _ 0
  · rw [finished, listed_eq real fit, insertLabels_stop (bare_placed real').solid, List.map_append,
      splitPushes_append, splitPushes_labelPieces, widthOf_placed real', widthOf_bindFrom,
      Nat.zero_add]

/-- **A finished sequence starts with the label of its first byte.** -/
theorem finished_back (real : AllReal pieces) (fit : AllFit pieces) (nextLabel : Nat) :
    ∃ back, back = splitPushes ((laterLabels (labelsOf nextLabel pieces) 0
        (placed (bindFrom (labelsOf nextLabel pieces) 0 pieces))).map Piece.action) ∧
      startLabel back = none ∧
      finished nextLabel pieces = labelling (labelsOf nextLabel pieces 0) ++ back := by
  have real' := real.bindFrom (labelsOf nextLabel pieces) 0
  refine ⟨_, rfl, ?_, ?_⟩
  · rw [startLabel_splitPushes]
    cases pieces with
    | nil => rfl
    | cons piece rest => exact real'.head.label?
  · rw [finished, listed_eq real fit, insertLabels_placed real', List.map_append,
      splitPushes_append, splitPushes_labelPieces]

end

end ActionCode
