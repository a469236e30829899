/-
**Code is examined on its own.**

* `actions_examine`: a sequence is examined by one traversal of its actions, in which the code of
  definitions has been examined before.
* **`examine_eq_traverse`**: nothing changes if a traversal examines code where it visits its
  definition, and enters the reports from there.
* **`codeAt?_examine`**: what a path leads to is left as examining it alone leaves it, **whatever
  surrounds it**.
-/

import ActionCode.Stack.Examination
import ActionCode.Proofs.Counts.Traversing
import ActionCode.Proofs.Levels.Paths

namespace ActionCode

/-! ### Actions with examined code -/

theorem toList_examineCodeOf (seedSlots : Nat) (done : Array (Action × List Clearing))
    (actions : List Action) :
    (examineCodeOf seedSlots done actions).toList =
      done.toList ++ actions.map (examineCode seedSlots) := by
  induction actions generalizing done with
  | nil => rw [examineCodeOf, List.map_nil, List.append_nil]
  | cons action rest ih =>
    rw [examineCodeOf, ih, Array.toList_push, List.append_assoc]
    rfl

/-- **The code of a definition is examined on its own.** -/
theorem examineCode_define (seedSlots : Nat) (signature : Signature) (body : List Action) :
    examineCode seedSlots (.define signature body) =
      (.define signature (examine body seedSlots).actions, (examine body seedSlots).clearings) := by
  rw [examineCode, examine]

theorem examineCode_plain (seedSlots : Nat) (instruction : Instruction) :
    examineCode seedSlots (.plain instruction) = (.plain instruction, []) := by
  rw [examineCode]

theorem examineCode_marker (seedSlots : Nat) (found : Marker) :
    examineCode seedSlots (.marker found) = (.marker found, []) := by
  rw [examineCode]

theorem examine_eq (actions : List Action) (seedSlots : Nat) :
    examine actions seedSlots =
      examineAround seedSlots (actions.map (examineCode seedSlots)).toArray := by
  have rows := toList_examineCodeOf seedSlots #[] actions
  rw [List.nil_append] at rows
  rw [examine, ← rows]

/-- An action whose code has been examined. -/
def Action.examinedInside (seedSlots : Nat) (action : Action) : Action :=
  (examineCode seedSlots action).1

/-- **One traversal examines a sequence** whose code has been examined. -/
theorem actions_examine (actions : List Action) (seedSlots : Nat) :
    (examine actions seedSlots).actions =
      (traverse simulate (Slots.unknowns seedSlots)
        (actions.map (Action.examinedInside seedSlots))).actions := by
  rw [examine_eq, examineAround, List.map_map]
  rfl

/-! ### Code at its visit -/

/-- Follow an action. **The code of a definition is examined at the visit**, and its reports come
before those of the definition. -/
def simulateInside (inner : List Action → Examined) : Examine Slots Clearing := fun slots action =>
  match action with
  | .define signature body =>
    let observed := simulate slots (.define signature (inner body).actions)
    { observed with notes := (inner body).clearings ++ observed.notes }
  | _ => simulate slots action

/-- It makes no difference whether code is examined at the visit or before. -/
theorem simulateInside_eq (seedSlots : Nat) (slots : Slots) (action : Action) :
    simulateInside (fun body => examine body seedSlots) slots action =
      { simulate slots (action.examinedInside seedSlots) with
        notes := (examineCode seedSlots action).2 ++
          (simulate slots (action.examinedInside seedSlots)).notes } := by
  rw [Action.examinedInside]
  cases action with
  | plain instruction => rw [examineCode_plain]; rfl
  | define signature body => rw [examineCode_define]; rfl
  | marker found => rw [examineCode_marker]; rfl

theorem label?_examinedInside (seedSlots : Nat) (action : Action) :
    (action.examinedInside seedSlots).label? = action.label? := by
  rw [Action.examinedInside]
  cases action with
  | plain instruction => rw [examineCode_plain]
  | define signature body => rw [examineCode_define]; rfl
  | marker found => rw [examineCode_marker]

/-- An action whose code has been examined, and the action. -/
def Action.InsideOf (seedSlots : Nat) (code action : Action) : Prop :=
  code = action.examinedInside seedSlots

/-- A sequence whose code has been examined is followed in step with the sequence. -/
theorem inStep_inside {seedSlots : Nat} {codes actions : List Action}
    (inside : List.Forall₂ (Action.InsideOf seedSlots) codes actions) :
    InStep simulate (simulateInside fun body => examine body seedSlots) (labelIndices codes)
      (labelIndices actions) Eq (Action.InsideOf seedSlots)
      fun observed other => observed.state = other.state ∧ observed.action = other.action where
  examined := by
    rintro slots _ _ action rfl rfl
    rw [simulateInside_eq]
    exact ⟨rfl, rfl⟩
  state := And.left
  flow := by
    rintro observed other ⟨-, same⟩ index
    refine successors_congr (getElem?_labelIndices_congr (fun {code action} isCode => ?_) inside)
      (congrArg Action.branch? same) (congrArg Action.stops same) index
    rw [isCode, label?_examinedInside]

/-- **A sequence is examined by one traversal, which examines code where it visits its definition.** -/
theorem examine_eq_traverse (actions : List Action) (seedSlots : Nat) :
    let traversal := traverse (simulateInside fun body => examine body seedSlots)
      (Slots.unknowns seedSlots) actions
    examine actions seedSlots =
      ⟨traversal.actions, traversal.visits.flatMap fun visit => visit.observed.notes⟩ := by
  intro traversal
  have inside : List.Forall₂ (Action.InsideOf seedSlots)
      (actions.map (Action.examinedInside seedSlots)) actions :=
    List.forall₂_map_left_iff.mpr (List.forall₂_same.mpr fun _ _ => rfl)
  have left : List.Forall₂ Eq _ traversal.actions :=
    (inStep_inside inside).traversed (Eq.refl (Slots.unknowns seedSlots)) inside And.right
  have visits := (inStep_inside inside).visits (Eq.refl (Slots.unknowns seedSlots)) inside
  rw [List.forall₂_eq_eq_eq] at left
  rw [examine_eq, examineAround, List.map_map]
  refine congrArg₂ Examined.mk left
    (List.forall₂_eq_eq_eq ▸ List.rel_flatMap (forall₂_mem visits) ?_)
  rintro visit other ⟨member, member', index, before, -⟩
  obtain ⟨⟨code, isCode, observed⟩, -⟩ := made_of_mem_traverse member
  obtain ⟨⟨action, isAction, observed'⟩, -⟩ := made_of_mem_traverse member'
  rw [index, List.getElem?_map, isAction] at isCode
  cases isCode
  rw [List.forall₂_eq_eq_eq]
  dsimp only
  rw [observed', simulateInside_eq, observed, before, index, List.getElem?_toArray,
    List.getElem?_map, isAction]
  rfl

/-! ### Paths -/

/-- The code of the definitions of an examined sequence. -/
theorem bodiesOf_examine (actions : List Action) (seedSlots : Nat) :
    bodiesOf (examine actions seedSlots).actions =
      (bodiesOf actions).map fun body => (examine body seedSlots).actions := by
  have makes : ∀ slots action,
      (simulateInside (fun body => examine body seedSlots) slots action).action.body? =
        action.body?.map fun body => (examine body seedSlots).actions := by
    intro slots action
    cases action with
    | plain instruction => exact view_simulate (fun _ _ => rfl) slots (.plain instruction)
    | define signature body => rfl
    | marker found => rfl
  calc bodiesOf (examine actions seedSlots).actions
      = ((examine actions seedSlots).actions.map Action.body?).filterMap id := by
        rw [List.filterMap_map, bodiesOf, Function.id_comp]
    _ = (actions.map fun action =>
          action.body?.map fun body => (examine body seedSlots).actions).filterMap id := by
        rw [examine_eq_traverse, map_traverse makes]
    _ = (bodiesOf actions).map fun body => (examine body seedSlots).actions := by
        rw [List.filterMap_map, bodiesOf, List.map_filterMap, Function.id_comp]

/-- **What a path leads to is examined as it is alone**, whatever surrounds it. -/
theorem codeAt?_examine (path : List Nat) (actions : List Action) (seedSlots : Nat) :
    codeAt? path (examine actions seedSlots).actions =
      (codeAt? path actions).map fun code => (examine code seedSlots).actions :=
  codeAt?_of_bodies (fun actions => bodiesOf_examine actions seedSlots) path actions

end ActionCode
