/-
**Passes over every level.**

* `AtAllLevels`: a pass has been applied to all code inside a sequence, and to the sequence;
  **`tryLevels_ok_iff`**.
* `recastAll`: another instruction in place of each, at every level.
* `EveryLevel`: something holds of a sequence and of all code inside.
* **`tryLevels_adjusts`**: a pass that only adjusts instructions succeeds with the sequences that it
  leaves as they are. `tryLevels_settles`: these may be told by what holds of them.
-/

import ActionCode.Levels
import Mathlib.Algebra.Ring.Nat
import Mathlib.Logic.Basic

namespace ActionCode

/-! ### Nesting -/

theorem nestingFrom_le_iff {deepest room : Nat} {actions : List Action} :
    nestingFrom deepest actions ≤ room ↔
      deepest ≤ room ∧ ∀ action ∈ actions, action.nesting ≤ room := by
  induction actions generalizing deepest with
  | nil => simp [nestingFrom]
  | cons action rest ih =>
    rw [nestingFrom, ih, Nat.max_le]
    simp [and_assoc]

/-- A sequence nests so deep at most if each of its actions does. -/
theorem nesting_le_iff {room : Nat} {actions : List Action} :
    nesting actions ≤ room ↔ ∀ action ∈ actions, action.nesting ≤ room := by
  rw [nesting, nestingFrom_le_iff]
  exact and_iff_right (Nat.zero_le room)

/-! ### Results of passes -/

mutual

/-- A pass has been applied to all code inside an action. -/
def Action.Inside (pass : List Action → List Action → Prop) : Action → Action → Prop
  | .plain instruction, other => other = .plain instruction
  | .define signature body, other => ∃ inner after, AllInside pass body inner ∧ pass inner after ∧
    other = .define signature after
  | .marker marker, other => other = .marker marker

/-- A pass has been applied to all code inside the actions of a sequence. -/
def AllInside (pass : List Action → List Action → Prop) : List Action → List Action → Prop
  | [], others => others = []
  | action :: rest, others => ∃ first later, action.Inside pass first ∧ AllInside pass rest later ∧
    others = first :: later

end

/-- A pass has been applied to all code inside a sequence, and then to the sequence. -/
def AtAllLevels (pass : List Action → List Action → Prop) (actions result : List Action) : Prop :=
  ∃ inner, AllInside pass actions inner ∧ pass inner result

mutual

theorem Action.tryInside_ok_iff {ε : Type} (pass : List Action → Except ε (List Action)) :
    ∀ {action other : Action}, action.tryInside pass = .ok other ↔
      action.Inside (fun actions result => pass actions = .ok result) other
  | .plain instruction, other => by
    rw [Action.tryInside, Action.Inside, Except.ok.injEq]
    exact eq_comm
  | .define signature body, other => by
    have inner : ∀ result, tryInsideFrom pass #[] body = .ok result ↔ _ :=
      fun result => tryInsideFrom_ok_iff pass #[]
    rw [Action.tryInside, Action.Inside]
    constructor
    · intro success
      split at success
      · cases success
      · rename_i found
        split at success
        · cases success
        · rename_i passed
          cases success
          obtain ⟨own, inside, same⟩ := (inner _).mp found
          rw [same] at passed
          exact ⟨own, _, inside, passed, rfl⟩
    · rintro ⟨own, after, inside, passed, rfl⟩
      rw [(inner own.toArray).mpr ⟨own, inside, rfl⟩]
      dsimp only
      rw [passed]
  | .marker marker, other => by
    rw [Action.tryInside, Action.Inside, Except.ok.injEq]
    exact eq_comm

theorem tryInsideFrom_ok_iff {ε : Type} (pass : List Action → Except ε (List Action)) :
    ∀ (done : Array Action) {actions : List Action} {result : Array Action},
      tryInsideFrom pass done actions = .ok result ↔
        ∃ inner, AllInside (fun actions result => pass actions = .ok result) actions inner ∧
          result.toList = done.toList ++ inner
  | done, [], result => by
    rw [tryInsideFrom]
    simp only [AllInside, exists_eq_left, List.append_nil, Except.ok.injEq]
    rw [Array.toList_inj]
    exact eq_comm
  | done, action :: rest, result => by
    rw [tryInsideFrom]
    simp only [AllInside]
    constructor
    · intro success
      split at success
      · cases success
      · rename_i first found
        obtain ⟨later, inside, same⟩ := (tryInsideFrom_ok_iff pass (done.push first)).mp success
        refine ⟨first :: later, ⟨first, later, (Action.tryInside_ok_iff pass).mp found, inside, rfl⟩, ?_⟩
        rw [same, Array.toList_push, List.append_assoc]
        rfl
    · rintro ⟨_, ⟨first, later, found, inside, rfl⟩, same⟩
      rw [(Action.tryInside_ok_iff pass).mpr found]
      refine (tryInsideFrom_ok_iff pass (done.push first)).mpr ⟨later, inside, ?_⟩
      rw [same, Array.toList_push, List.append_assoc]
      rfl

end

/-- **A pass at every level succeeds if it does with all code inside, and then with the
sequence.** -/
theorem tryLevels_ok_iff {ε : Type} {pass : List Action → Except ε (List Action)}
    {actions result : List Action} :
    tryLevels pass actions = .ok result ↔
      AtAllLevels (fun actions result => pass actions = .ok result) actions result := by
  unfold tryLevels AtAllLevels
  constructor
  · intro success
    split at success
    · cases success
    · rename_i found
      obtain ⟨inner, inside, same⟩ := (tryInsideFrom_ok_iff pass #[]).mp found
      rw [same] at success
      exact ⟨inner, inside, success⟩
  · rintro ⟨inner, inside, passed⟩
    have found : tryInsideFrom pass #[] actions = .ok inner.toArray :=
      (tryInsideFrom_ok_iff pass #[]).mpr ⟨inner, inside, rfl⟩
    rw [found]
    exact passed

/-! ### Other instructions -/

mutual

/-- An action with another instruction in place of each. -/
def Action.recast (cast : Instruction → Instruction) : Action → Action
  | .plain instruction => .plain (cast instruction)
  | .define signature body => .define signature (recastAll cast body)
  | .marker marker => .marker marker

/-- A sequence with another instruction in place of each, at every level. -/
def recastAll (cast : Instruction → Instruction) : List Action → List Action
  | [] => []
  | action :: rest => action.recast cast :: recastAll cast rest

end

/-- An action with another instruction in its place, if it is one. Code inside stays. -/
def Action.recastShell (cast : Instruction → Instruction) : Action → Action
  | .plain instruction => .plain (cast instruction)
  | action => action

mutual

/-- Something holds of all code inside an action. -/
def Action.CodeHolds (holds : List Action → Prop) : Action → Prop
  | .plain _ => True
  | .define _ body => holds body ∧ AllCodeHolds holds body
  | .marker _ => True

/-- Something holds of all code inside the actions of a sequence. -/
def AllCodeHolds (holds : List Action → Prop) : List Action → Prop
  | [] => True
  | action :: rest => action.CodeHolds holds ∧ AllCodeHolds holds rest

end

/-- Something holds of a sequence and of all code inside. -/
def EveryLevel (holds : List Action → Prop) (actions : List Action) : Prop :=
  holds actions ∧ AllCodeHolds holds actions

mutual

theorem Action.codeHolds_of_imp {holds others : List Action → Prop}
    (imp : ∀ actions, holds actions → others actions) :
    ∀ {action : Action}, action.CodeHolds holds → action.CodeHolds others
  | .plain _, _ => by
    rw [Action.CodeHolds]
    trivial
  | .define _ body, every => by
    rw [Action.CodeHolds] at every ⊢
    exact ⟨imp body every.1, allCodeHolds_of_imp imp every.2⟩
  | .marker _, _ => by
    rw [Action.CodeHolds]
    trivial

theorem allCodeHolds_of_imp {holds others : List Action → Prop}
    (imp : ∀ actions, holds actions → others actions) :
    ∀ {actions : List Action}, AllCodeHolds holds actions → AllCodeHolds others actions
  | [], _ => by
    rw [AllCodeHolds]
    trivial
  | action :: rest, every => by
    rw [AllCodeHolds] at every ⊢
    exact ⟨Action.codeHolds_of_imp imp every.1, allCodeHolds_of_imp imp every.2⟩

end

/-- Something holds of all code inside if it holds of the code of every definition, at every
level. -/
theorem allCodeHolds_iff {holds : List Action → Prop} {actions : List Action} :
    AllCodeHolds holds actions ↔
      ∀ signature body, .define signature body ∈ actions → EveryLevel holds body := by
  induction actions with
  | nil =>
    rw [AllCodeHolds]
    exact ⟨fun _ _ _ inside => by (cases inside), fun _ => trivial⟩
  | cons action rest ih =>
    rw [AllCodeHolds, ih]
    constructor
    · rintro ⟨first, later⟩ signature body inside
      rcases List.mem_cons.mp inside with rfl | inside
      · rw [Action.CodeHolds] at first
        exact first
      · exact later signature body inside
    · intro every
      refine ⟨?_, fun signature body inside =>
        every signature body (List.mem_cons_of_mem _ inside)⟩
      cases action with
      | plain instruction =>
        rw [Action.CodeHolds]
        trivial
      | define signature body =>
        rw [Action.CodeHolds]
        exact every signature body List.mem_cons_self
      | marker marker =>
        rw [Action.CodeHolds]
        trivial

/-- A pass adjusts instructions only, up to what a cast forgets, and leaves its results as they
are. -/
def Adjusts {ε : Type} (pass : List Action → Except ε (List Action))
    (cast : Instruction → Instruction) : Prop :=
  ∀ actions result, pass actions = .ok result ↔
    actions.map (Action.recastShell cast) = result.map (Action.recastShell cast) ∧
      pass result = .ok result

mutual

theorem Action.inside_adjusts {ε : Type} {pass : List Action → Except ε (List Action)}
    {cast : Instruction → Instruction} (adjusts : Adjusts pass cast) :
    ∀ (action other : Action),
      (∃ inner, action.Inside (fun actions result => pass actions = .ok result) inner ∧
        inner.recastShell cast = other.recastShell cast) ↔
      action.recast cast = other.recast cast ∧
        other.CodeHolds (fun actions => pass actions = .ok actions)
  | .plain instruction, other => by
    simp only [Action.Inside, exists_eq_left]
    cases other with
    | plain _ => simp [Action.recast, Action.recastShell, Action.CodeHolds]
    | define _ _ => simp [Action.recast, Action.recastShell]
    | marker _ => simp [Action.recast, Action.recastShell]
  | .define signature body, other => by
    have code := allInside_adjusts adjusts body
    simp only [Action.Inside]
    cases other with
    | plain _ =>
      constructor
      · rintro ⟨_, ⟨_, _, _, _, rfl⟩, same⟩
        cases same
      · rintro ⟨same, _⟩
        rw [Action.recast, Action.recast] at same
        cases same
    | define other result =>
      rw [Action.recast, Action.recast, Action.CodeHolds]
      constructor
      · rintro ⟨_, ⟨inner, after, inside, passed, rfl⟩, same⟩
        cases same
        obtain ⟨shell, fixed⟩ := (adjusts _ _).mp passed
        obtain ⟨same, holds⟩ := (code result).mp ⟨inner, inside, shell⟩
        exact ⟨by rw [same], fixed, holds⟩
      · rintro ⟨same, fixed, holds⟩
        obtain ⟨rfl, equal⟩ := Action.define.inj same
        obtain ⟨inner, inside, shell⟩ := (code result).mpr ⟨equal, holds⟩
        exact ⟨_, ⟨inner, result, inside, (adjusts _ _).mpr ⟨shell, fixed⟩, rfl⟩, rfl⟩
    | marker _ =>
      constructor
      · rintro ⟨_, ⟨_, _, _, _, rfl⟩, same⟩
        cases same
      · rintro ⟨same, _⟩
        rw [Action.recast, Action.recast] at same
        cases same
  | .marker marker, other => by
    simp only [Action.Inside, exists_eq_left]
    cases other with
    | plain _ => simp [Action.recast, Action.recastShell]
    | define _ _ => simp [Action.recast, Action.recastShell]
    | marker _ => simp [Action.recast, Action.recastShell, Action.CodeHolds]

theorem allInside_adjusts {ε : Type} {pass : List Action → Except ε (List Action)}
    {cast : Instruction → Instruction} (adjusts : Adjusts pass cast) :
    ∀ (actions others : List Action),
      (∃ inner, AllInside (fun actions result => pass actions = .ok result) actions inner ∧
        inner.map (Action.recastShell cast) = others.map (Action.recastShell cast)) ↔
      recastAll cast actions = recastAll cast others ∧
        AllCodeHolds (fun actions => pass actions = .ok actions) others
  | [], others => by
    simp only [AllInside, exists_eq_left]
    cases others with
    | nil => simp [recastAll, AllCodeHolds]
    | cons other others => simp [recastAll]
  | action :: rest, others => by
    have first := Action.inside_adjusts adjusts action
    have later := allInside_adjusts adjusts rest
    cases others with
    | nil =>
      constructor
      · rintro ⟨_, inside, same⟩
        rw [AllInside] at inside
        obtain ⟨_, _, _, _, rfl⟩ := inside
        cases same
      · rintro ⟨same, _⟩
        rw [recastAll, recastAll] at same
        cases same
    | cons other others =>
      rw [recastAll, recastAll, AllCodeHolds, List.cons.injEq]
      constructor
      · rintro ⟨_, inside, same⟩
        rw [AllInside] at inside
        obtain ⟨inner, inners, inside, insides, rfl⟩ := inside
        obtain ⟨same, sames⟩ := List.cons.inj same
        obtain ⟨equal, holds⟩ := (first other).mp ⟨inner, inside, same⟩
        obtain ⟨equals, hold⟩ := (later others).mp ⟨inners, insides, sames⟩
        exact ⟨⟨equal, equals⟩, holds, hold⟩
      · rintro ⟨⟨equal, equals⟩, holds, hold⟩
        obtain ⟨inner, inside, same⟩ := (first other).mpr ⟨equal, holds⟩
        obtain ⟨inners, insides, sames⟩ := (later others).mpr ⟨equals, hold⟩
        refine ⟨inner :: inners, ?_, ?_⟩
        · rw [AllInside]
          exact ⟨inner, inners, inside, insides, rfl⟩
        · rw [List.map_cons, same, sames, List.map_cons]

end

/-- **A pass that only adjusts instructions succeeds at every level with a sequence that differs only
there, and that it leaves as it is at every level.** -/
theorem tryLevels_adjusts {ε : Type} {pass : List Action → Except ε (List Action)}
    {cast : Instruction → Instruction} (adjusts : Adjusts pass cast)
    {actions result : List Action} :
    tryLevels pass actions = .ok result ↔
      recastAll cast actions = recastAll cast result ∧
        EveryLevel (fun actions => pass actions = .ok actions) result := by
  rw [tryLevels_ok_iff, AtAllLevels]
  constructor
  · rintro ⟨inner, inside, passed⟩
    obtain ⟨shell, fixed⟩ := (adjusts _ _).mp passed
    obtain ⟨same, holds⟩ := (allInside_adjusts adjusts _ _).mp ⟨inner, inside, shell⟩
    exact ⟨same, fixed, holds⟩
  · rintro ⟨same, fixed, holds⟩
    obtain ⟨inner, inside, shell⟩ := (allInside_adjusts adjusts _ _).mpr ⟨same, holds⟩
    exact ⟨inner, inside, (adjusts _ _).mpr ⟨shell, fixed⟩⟩

section

variable {ε : Type} {pass : List Action → Except ε (List Action)}
  {cast : Instruction → Instruction} {settled : List Action → Prop}
  (settles : ∀ {actions result : List Action}, pass actions = .ok result ↔
    actions.map (Action.recastShell cast) = result.map (Action.recastShell cast) ∧ settled result)

include settles

/-- A pass only adjusts instructions if it comes to all sequences of one kind that differ there. -/
theorem adjusts_of_settles : Adjusts pass cast := by
  intro actions result
  rw [settles, settles]
  exact and_congr_right fun _ => (and_iff_right rfl).symm

/-- **Such a pass succeeds at every level with the sequences that are of this kind at every level.** -/
theorem tryLevels_settles {actions result : List Action} :
    tryLevels pass actions = .ok result ↔
      recastAll cast actions = recastAll cast result ∧ EveryLevel settled result := by
  have fixed : (fun actions => pass actions = .ok actions) = settled :=
    funext fun _ => propext (settles.trans (and_iff_right rfl))
  rw [tryLevels_adjusts (adjusts_of_settles settles), fixed]

end

end ActionCode
