/-
**Other names for labels, at every level.**

* `relabelAll`: a sequence with other names for its labels, those of the code in it included.
  `Label.raised`: a label with a greater number.
* **`examine_relabelled`**: a sequence is given the same counts **if different labels keep different
  names**: control goes to the same places.
-/

import ActionCode.Proofs.Counts.Alone
import ActionCode.Proofs.Derived.Editing
import ActionCode.Proofs.Flow.Lockstep

namespace ActionCode

variable {β : Type}

/-! ### Names at every level -/

mutual

/-- An action with other names for labels, those in its code included. -/
def Action.relabelled (names : Label → Label) : Action → Action
  | .plain instruction => (Action.plain instruction).renamed names
  | .define signature body => .define signature (relabelAll names body)
  | .marker found => (Action.marker found).renamed names

/-- A sequence with other names for labels, those in its code included. -/
def relabelAll (names : Label → Label) : List Action → List Action
  | [] => []
  | action :: rest => action.relabelled names :: relabelAll names rest

end

/-- A label with a greater number. -/
def Label.raised (count : Nat) (label : Label) : Label := ⟨count + label.id⟩

variable {names : Label → Label}

theorem relabelAll_eq_map (names : Label → Label) (actions : List Action) :
    relabelAll names actions = actions.map (Action.relabelled names) := by
  induction actions with
  | nil => rfl
  | cons action rest ih => rw [relabelAll, ih, List.map_cons]

/-- What is seen of an action but for its code is what is seen of it with other names. -/
theorem Action.relabelled_shell (view : Action → β) (blind : ∀ (signature : Signature)
      (body other : List Action), view (.define signature body) = view (.define signature other))
    (action : Action) : view (action.relabelled names) = view (action.renamed names) := by
  cases action with
  | define signature body =>
    rw [relabelled]
    exact blind signature _ _
  | _ => rw [relabelled]

theorem Action.branch?_relabelled (action : Action) :
    (action.relabelled names).branch? = action.branch?.map (Branch.renamed names) := by
  rw [relabelled_shell branch? fun _ _ _ => rfl, branch?_renamed]

theorem Action.label?_relabelled (action : Action) :
    (action.relabelled names).label? = action.label?.map names := by
  rw [relabelled_shell label? fun _ _ _ => rfl, label?_renamed]

theorem Action.block?_relabelled (action : Action) :
    (action.relabelled names).block? = action.block? := by
  rw [relabelled_shell block? fun _ _ _ => rfl]
  unfold renamed
  split <;> rfl

theorem Action.isMarker_relabelled (action : Action) :
    (action.relabelled names).isMarker = action.isMarker := by
  rw [relabelled_shell isMarker fun _ _ _ => rfl]
  unfold renamed
  split <;> rfl

theorem spares_relabelled (names : Label → Label) : Spares (Action.relabelled names) where
  pushed action := by
    rw [Action.relabelled_shell Action.pushed fun _ _ _ => rfl, (spares_renamed names).pushed]
  same action some := by
    cases action with
    | define signature body => exact absurd rfl some
    | plain instruction =>
      rw [Action.relabelled]
      exact (spares_renamed names).same _ some
    | marker found => exact absurd rfl some

theorem Action.relabelled_closing {marker : Marker} (closes : marker.closes = true) :
    (Action.marker marker).relabelled names = .marker marker := by
  cases marker with
  | label id => cases closes
  | _ => rw [relabelled]; rfl

theorem Label.raised_injective (count : Nat) : Function.Injective (Label.raised count) := by
  rintro ⟨first⟩ ⟨second⟩ same
  exact congrArg Label.mk (Nat.add_left_cancel (Label.mk.inj same))

/-! ### Control flow -/

section

variable (injective : Function.Injective names)

include injective

theorem getElem?_labelIndices_relabelled {actions : List Action} (label : Label) :
    (labelIndices (actions.map (Action.relabelled names)))[(names label).id]? =
      (labelIndices actions)[label.id]? := by
  have placed : ∀ index, placed? (actions.map (Action.relabelled names)) index =
      (placed? actions index).map names := by
    intro index
    rw [placed?, placed?, List.getElem?_map, Option.map_bind, Option.bind_map]
    exact congrArg (Option.bind _) (funext Action.label?_relabelled)
  have same : ∀ index, placed? (actions.map (Action.relabelled names)) index = some (names label) ↔
      placed? actions index = some label := by
    intro index
    rw [placed, ← Option.map_some]
    exact (Option.map_injective injective).eq_iff
  apply Option.ext
  intro index
  rw [labelIndices_eq_some_iff, labelIndices_eq_some_iff, PlacedAt, PlacedAt]
  simp only [same, ne_eq]

theorem successors_relabelled {actions : List Action} (index : Nat) (action : Action) :
    successors (labelIndices (actions.map (Action.relabelled names))) index
        (action.relabelled names) =
      successors (labelIndices actions) index action := by
  have target : ((action.relabelled names).branch?.bind Branch.label) =
      (action.branch?.bind Branch.label).map names := by
    rw [Action.branch?_relabelled]
    cases action.branch? <;> rfl
  have falls : (action.relabelled names).fallsThrough = action.fallsThrough := by
    rw [Action.relabelled_shell Action.fallsThrough fun _ _ _ => rfl]
    unfold Action.renamed
    split <;> rfl
  rw [successors_eq, successors_eq, falls, target, Option.bind_map]
  refine congrArg (fun target => _ ++ Option.toList target) (congrArg (Option.bind _) ?_)
  exact funext (getElem?_labelIndices_relabelled injective)

omit injective in
/-- Following the stack does not see the names of labels. -/
theorem simulate_relabelled (slots : Slots) (action : Action) :
    (simulate slots (action.relabelled names)).state = (simulate slots action).state ∧
      (simulate slots (action.relabelled names)).action =
        (simulate slots action).action.relabelled names := by
  cases action with
  | plain instruction =>
    cases instruction with
    | counted op count =>
      rw [show (Action.plain (.counted op count)).relabelled names = .plain (.counted op count) from rfl]
      unfold simulate
      dsimp only
      cases popCounted op slots <;> exact ⟨rfl, by rw [Action.relabelled]; rfl⟩
    | _ => exact ⟨rfl, rfl⟩
  | define signature body => exact ⟨rfl, rfl⟩
  | marker found => cases found <;> exact ⟨rfl, rfl⟩

/-- A sequence and the same under other names are followed in step. -/
theorem inStep_relabelled (actions : List Action) :
    InStep simulate simulate (labelIndices actions)
      (labelIndices (actions.map (Action.relabelled names))) Eq
      (fun action other => other = action.relabelled names)
      (fun observed other => other.state = observed.state ∧
        other.action = observed.action.relabelled names) where
  examined := by
    rintro slots _ action _ rfl rfl
    exact simulate_relabelled slots action
  state made := made.1.symm
  flow := by
    rintro observed other ⟨_, relabelled⟩ index
    rw [relabelled, successors_relabelled injective]

/-! ### Examined code -/

/-- One level of a sequence, if the code in it is given the same counts. -/
theorem examine_relabelled_of_inside {seedSlots : Nat} {actions : List Action}
    (inside : (relabelAll names actions).map (Action.examinedInside seedSlots) =
      (actions.map (Action.examinedInside seedSlots)).map (Action.relabelled names)) :
    (examine (relabelAll names actions) seedSlots).actions =
      relabelAll names (examine actions seedSlots).actions := by
  have pairs : List.Forall₂ (fun action other => other = action.relabelled names)
      (actions.map (Action.examinedInside seedSlots))
      ((actions.map (Action.examinedInside seedSlots)).map (Action.relabelled names)) :=
    List.forall₂_map_right_iff.mpr (List.forall₂_same.mpr fun _ _ => rfl)
  have left : List.Forall₂ (fun action other => other = Action.relabelled names action) _ _ :=
    (inStep_relabelled injective _).traversed (Eq.refl (Slots.unknowns seedSlots)) pairs And.right
  have same := List.forall₂_map_left_iff.mpr (left.imp fun _ _ => Eq.symm)
  rw [List.forall₂_eq_eq_eq] at same
  rw [actions_examine, inside, actions_examine, relabelAll_eq_map, same]

end

mutual

theorem examinedInside_relabelled (injective : Function.Injective names) (seedSlots : Nat) :
    ∀ action : Action,
    (action.relabelled names).examinedInside seedSlots =
      (action.examinedInside seedSlots).relabelled names
  | .plain instruction => by
    have plain : ∀ instruction : Instruction,
        (Action.plain instruction).examinedInside seedSlots = .plain instruction := by
      intro instruction
      rw [Action.examinedInside, examineCode_plain]
    rw [plain]
    cases instruction <;> exact plain _
  | .define signature body => by
    have define : ∀ body : List Action, (Action.define signature body).examinedInside seedSlots =
        .define signature (examine body seedSlots).actions := by
      intro body
      rw [Action.examinedInside, examineCode_define]
    rw [Action.relabelled, define, define, Action.relabelled,
      examine_relabelled_of_inside injective
        (map_examinedInside_relabelled injective seedSlots body)]
  | .marker found => by
    have marker : ∀ found : Marker,
        (Action.marker found).examinedInside seedSlots = .marker found := by
      intro found
      rw [Action.examinedInside, examineCode_marker]
    rw [marker]
    cases found <;> exact marker _

theorem map_examinedInside_relabelled (injective : Function.Injective names) (seedSlots : Nat) :
    ∀ actions : List Action,
    (relabelAll names actions).map (Action.examinedInside seedSlots) =
      (actions.map (Action.examinedInside seedSlots)).map (Action.relabelled names)
  | [] => rfl
  | action :: rest => by
    rw [relabelAll, List.map_cons, List.map_cons, List.map_cons,
      examinedInside_relabelled injective seedSlots action,
      map_examinedInside_relabelled injective seedSlots rest]

end

/-- **Code is given the same counts under other names**, if different labels keep different ones. -/
theorem examine_relabelled (injective : Function.Injective names) (seedSlots : Nat)
    (actions : List Action) :
    (examine (relabelAll names actions) seedSlots).actions =
      relabelAll names (examine actions seedSlots).actions :=
  examine_relabelled_of_inside injective (map_examinedInside_relabelled injective seedSlots actions)

end ActionCode
