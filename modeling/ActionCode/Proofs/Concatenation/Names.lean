/-
**The labels that a sequence names.**

* `labelsNamed`: the labels that a sequence places or goes to, those of the code in it included.
* `relabelAll_congr`: only these matter when labels are given other names.
* **`labelsNamed_finished`**: a finished sequence names the labels of its own branches, and those that
  the code in it named before.
* **`Decodes.named`**: the code in decoded rows names labels that have been numbered by then.
-/

import ActionCode.Proofs.Nested.Standalone

namespace ActionCode

/-! ### Names of labels -/

mutual

/-- The labels that an action places or goes to, those of its code included. -/
def Action.labelsNamed : Action → List Label
  | .plain instruction => ((Action.plain instruction).branch?.bind Branch.label).toList
  | .define _ body => ActionCode.labelsNamed body
  | .marker found => (Action.marker found).label?.toList

/-- The labels that a sequence places or goes to, those of the code in it included. -/
def labelsNamed : List Action → List Label
  | [] => []
  | action :: rest => action.labelsNamed ++ labelsNamed rest

end

/-- The labels that the code of an action names. -/
def Action.labelsInside (action : Action) : List Label :=
  match action.body? with
  | some body => ActionCode.labelsNamed body
  | none => []

theorem labelsNamed_eq_flatMap (actions : List Action) :
    labelsNamed actions = actions.flatMap Action.labelsNamed := by
  induction actions with
  | nil => rw [labelsNamed, List.flatMap_nil]
  | cons action rest ih => rw [labelsNamed, ih, List.flatMap_cons]

mutual

theorem Action.relabelled_congr {names other : Label → Label} :
    ∀ {action : Action}, (∀ label ∈ action.labelsNamed, names label = other label) →
      action.relabelled names = action.relabelled other
  | .plain instruction, same => by
    cases instruction with
    | branch branch =>
      obtain ⟨conditional, offset, _ | label⟩ := branch
      · rfl
      · have here := same label (by rw [Action.labelsNamed]; exact List.mem_singleton.mpr rfl)
        rw [Action.relabelled, Action.relabelled]
        show Action.plain (.branch ⟨conditional, offset, some (names label)⟩) =
          .plain (.branch ⟨conditional, offset, some (other label)⟩)
        rw [here]
    | _ => rfl
  | .define signature body, same => by
    rw [Action.labelsNamed] at same
    rw [Action.relabelled, Action.relabelled, relabelAll_congr same]
  | .marker found, same => by
    cases found with
    | label label =>
      have here := same label (by rw [Action.labelsNamed]; exact List.mem_singleton.mpr rfl)
      rw [Action.relabelled, Action.relabelled]
      show Action.marker (.label (names label)) = .marker (.label (other label))
      rw [here]
    | _ => rfl

/-- **Only the labels that a sequence names matter.** -/
theorem relabelAll_congr {names other : Label → Label} :
    ∀ {actions : List Action}, (∀ label ∈ labelsNamed actions, names label = other label) →
      relabelAll names actions = relabelAll other actions
  | [], _ => by rw [relabelAll, relabelAll]
  | action :: rest, same => by
    rw [labelsNamed] at same
    rw [relabelAll, relabelAll,
      Action.relabelled_congr fun label inside => same label (List.mem_append_left _ inside),
      relabelAll_congr fun label inside => same label (List.mem_append_right _ inside)]

end

mutual

theorem Action.relabelled_id : ∀ action : Action, action.relabelled id = action
  | .plain instruction => by
    cases instruction with
    | branch branch => obtain ⟨conditional, offset, _ | label⟩ := branch <;> rfl
    | _ => rfl
  | .define signature body => by rw [Action.relabelled, relabelAll_id body]
  | .marker found => by cases found <;> rfl

theorem relabelAll_id : ∀ actions : List Action, relabelAll id actions = actions
  | [] => by rw [relabelAll]
  | action :: rest => by rw [relabelAll, Action.relabelled_id action, relabelAll_id rest]

end

/-! ### Finished sequences -/

theorem Action.labelsNamed_of_pushed {action : Action} (some : action.pushed ≠ []) :
    action.labelsNamed = [] := by
  cases action with
  | plain instruction =>
    rw [labelsNamed, (Action.unseen_of_pushed some).2.1]
    rfl
  | _ => exact absurd rfl some

/-- Single pushes name no labels. -/
theorem labelsNamed_splitPushes (actions : List Action) :
    labelsNamed (splitPushes actions) = labelsNamed actions := by
  induction actions with
  | nil => rfl
  | cons action rest ih =>
    have own : labelsNamed action.splitPush = action.labelsNamed := by
      by_cases none : action.pushed = []
      · rw [Action.splitPush_of_unpushed none, labelsNamed, labelsNamed, List.append_nil]
      · rw [Action.splitPush_of_pushed none, Action.labelsNamed_of_pushed none,
          labelsNamed_eq_flatMap, List.flatMap_eq_nil_iff]
        intro part inside
        obtain ⟨value, _, rfl⟩ := List.mem_map.mp inside
        rw [Action.labelsNamed]
        rfl
    rw [splitPushes_cons, labelsNamed_eq_flatMap, List.flatMap_append, ← labelsNamed_eq_flatMap,
      ← labelsNamed_eq_flatMap, own, ih, labelsNamed]

/-- A bound action names the label it goes to, or what its code names. -/
theorem Action.labelsNamed_bindTo {labels : Nat → Option Label} {position : Nat} {action : Action}
    (real : action.isMarker = false) {label : Label}
    (inside : label ∈ (action.bindTo labels position).labelsNamed) :
    label ∈ action.labelsInside ∨ ∃ place, labels place = some label := by
  cases action with
  | plain instruction =>
    unfold bindTo at inside
    cases isBranch : (Action.plain instruction).branch? with
    | none =>
      rw [isBranch] at inside
      dsimp only at inside
      rw [labelsNamed, isBranch] at inside
      cases inside
    | some branch =>
      rw [isBranch] at inside
      dsimp only at inside
      rw [labelsNamed] at inside
      exact .inr ⟨_, Option.mem_toList.mp inside⟩
  | define signature body =>
    refine .inl ?_
    change label ∈ (Action.define signature body).labelsNamed at inside
    rw [labelsNamed] at inside
    exact inside
  | marker found => cases real

theorem mem_insertLabels {labels : Nat → Option Label} {position : Nat} {pieces : List Piece}
    {piece : Piece} (inside : piece ∈ insertLabels labels position pieces) :
    piece ∈ pieces ∨ ∃ place label, labels place = some label ∧ piece = .ofMarker (.label label) := by
  have label : ∀ position, piece ∈ labelPieces labels position →
      ∃ place label, labels place = some label ∧ piece = .ofMarker (.label label) := by
    intro position inside
    obtain ⟨_, none⟩ | ⟨label, found, one⟩ := labelPieces_cases labels position
    · rw [none] at inside
      cases inside
    · rw [one] at inside
      exact ⟨position, label, found, List.mem_singleton.mp inside⟩
  induction pieces generalizing position with
  | nil => exact .inr (label position inside)
  | cons first rest ih =>
    rw [insertLabels] at inside
    have later : ∀ position, piece ∈ first :: insertLabels labels position rest →
        piece ∈ first :: rest ∨
          ∃ place label, labels place = some label ∧ piece = .ofMarker (.label label) := by
      intro position inside
      rcases List.mem_cons.mp inside with rfl | inside
      · exact .inl List.mem_cons_self
      · exact (ih inside).imp_left (List.mem_cons_of_mem _)
    split at inside
    · exact later _ inside
    · rcases List.mem_append.mp inside with inside | inside
      · exact .inr (label position inside)
      · exact later _ inside

theorem mem_bindFrom {labels : Nat → Option Label} {position : Nat} {pieces : List Piece}
    {bound : Piece} (inside : bound ∈ bindFrom labels position pieces) :
    ∃ piece ∈ pieces, ∃ place, bound.action = piece.action.bindTo labels place := by
  induction pieces generalizing position with
  | nil => cases inside
  | cons piece rest ih =>
    rcases List.mem_cons.mp inside with rfl | inside
    · exact ⟨piece, List.mem_cons_self, position, rfl⟩
    · obtain ⟨other, member, bound⟩ := ih inside
      exact ⟨other, List.mem_cons_of_mem _ member, bound⟩

/-- **A finished sequence names the labels of its own branches**, and what its code names. -/
theorem labelsNamed_finished {pieces : List Piece} (real : AllReal pieces) (fit : AllFit pieces)
    {nextLabel : Nat} {label : Label} (inside : label ∈ labelsNamed (finished nextLabel pieces)) :
    (∃ piece ∈ pieces, label ∈ piece.action.labelsInside) ∨
      ∃ place, labelsOf nextLabel pieces place = some label := by
  rw [finished, labelsNamed_splitPushes, labelsNamed_eq_flatMap, List.flatMap_map,
    List.mem_flatMap, listed_eq real fit] at inside
  obtain ⟨piece, member, named⟩ := inside
  have real' := real.bindFrom (labelsOf nextLabel pieces) 0
  rcases mem_insertLabels member with member | ⟨place, found, isLabel, rfl⟩
  · obtain ⟨marker, closes, rfl⟩ | isReal := bare_placed real' piece member
    · change label ∈ (Action.marker marker).labelsNamed at named
      cases marker with
      | label other => cases closes
      | _ =>
        rw [Action.labelsNamed] at named
        cases named
    · have member' : piece ∈ reals (placed (bindFrom (labelsOf nextLabel pieces) 0 pieces)) :=
        List.mem_filter.mpr ⟨member, by rw [isReal.real]; rfl⟩
      rw [reals_placed real'] at member'
      obtain ⟨own, isOwn, place, bound⟩ := mem_bindFrom member'
      rw [bound] at named
      exact (Action.labelsNamed_bindTo (real own isOwn).real named).imp_left
        fun inside => ⟨own, isOwn, inside⟩
  · change label ∈ (Action.marker (.label found)).labelsNamed at named
    rw [Action.labelsNamed] at named
    have same : label = found := List.mem_singleton.mp named
    exact .inr ⟨place, same ▸ isLabel⟩

/-! ### Decoded rows -/

/-- The labels of bytes are numbered from one on. -/
theorem labelOf_bounds {nextLabel target : Nat} {uses : List Nat} {label : Label}
    (isLabel : labelOf nextLabel uses target = some label) :
    nextLabel ≤ label.id ∧ label.id < nextLabel + uses.length := by
  have inside := labelOf_eq_some_iff.mp ⟨label, isLabel⟩
  rw [labelOf, if_pos inside] at isLabel
  cases isLabel
  exact ⟨Nat.le_add_right _ _, Nat.add_lt_add_left (List.idxOf_lt_length_iff.mpr inside) _⟩

/-- **The code in decoded rows names labels that have been numbered by then.** -/
theorem Decodes.named {maxDepth depth : Nat} {cursor : Cursor} {progress after : Progress}
    {rows : List Located} (decodes : Decodes maxDepth depth cursor progress rows after) :
    progress.nextLabel ≤ after.nextLabel ∧
      ∀ row ∈ rows, ∀ label ∈ row.action.labelsInside, label.id < after.nextLabel := by
  induction decodes with
  | ended empty _ => exact ⟨Nat.le_refl _, fun row inside => absurd inside List.not_mem_nil⟩
  | instruction nonempty found _ ih =>
    obtain ⟨le, named⟩ := ih
    exact ⟨le, List.forall_mem_cons.mpr ⟨fun label inside => absurd inside List.not_mem_nil, named⟩⟩
  | definition nonempty found inside finishes _ ih₁ ih₂ =>
    obtain ⟨le', named'⟩ := ih₁
    obtain ⟨le, named⟩ := ih₂
    obtain ⟨_, _, _, _, isCode⟩ := declaration_of_nextStep found
    obtain ⟨real, finishable, rfl, next⟩ := inside.finished (by rw [isCode]; rfl) finishes
    refine ⟨by omega, List.forall_mem_cons.mpr ⟨fun label member => ?_, named⟩⟩
    rcases labelsNamed_finished real finishable.fit member with ⟨piece, member, isInside⟩ |
      ⟨place, isLabel⟩
    · obtain ⟨row, isRow, rfl⟩ := List.mem_map.mp member
      have early := named' row isRow label isInside
      omega
    · have late := (labelOf_bounds isLabel).2
      omega

end ActionCode
