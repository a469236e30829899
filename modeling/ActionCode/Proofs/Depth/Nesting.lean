/-
**How deep definitions lie.**

* **`lt_nesting_iff`**: a sequence nests deeper than a number if a path of one step more leads to code.
* `mergeWithin`: pushes merged at every level, where the limit is tested at each definition before its
  code is merged. **`mergeWithin_eq`**: the test fails for some definition exactly if the sequence
  nests too deep; else nothing is lost.
-/

import ActionCode.Proofs.RoundTrip.Listings
import ActionCode.Proofs.Merging.Grouping

namespace ActionCode

/-! ### The nesting of a sequence -/

theorem nesting_nil : nesting [] = 0 := rfl

theorem nesting_cons (action : Action) (rest : List Action) :
    nesting (action :: rest) = max action.nesting (nesting rest) := by
  apply Nat.le_antisymm
  · rw [nesting_le_iff, List.forall_mem_cons]
    refine ⟨Nat.le_max_left _ _, fun other inside => Nat.le_trans ?_ (Nat.le_max_right _ _)⟩
    exact nesting_le_iff.mp (Nat.le_refl _) other inside
  · rw [Nat.max_le, nesting_le_iff]
    have whole := nesting_le_iff.mp (Nat.le_refl (nesting (action :: rest)))
    exact ⟨whole action List.mem_cons_self, fun other inside => whole other (.tail _ inside)⟩

theorem Action.nesting_define (signature : Signature) (body : List Action) :
    (Action.define signature body).nesting = ActionCode.nesting body + 1 := by
  rw [Action.nesting]
  rfl

theorem nesting_le_of_mem {action : Action} {actions : List Action} (inside : action ∈ actions) :
    action.nesting ≤ nesting actions :=
  nesting_le_iff.mp (Nat.le_refl _) action inside

theorem Action.nesting_of_flat {action : Action} (flat : action.body? = none) :
    action.nesting = 0 := by
  cases action with
  | plain instruction => exact nesting_plain instruction
  | define signature body => cases flat
  | marker found => exact nesting_marker found

theorem Action.nesting_of_body {action : Action} {body : List Action}
    (isBody : action.body? = some body) : action.nesting = ActionCode.nesting body + 1 := by
  cases action with
  | define signature code =>
    cases isBody
    exact nesting_define signature body
  | _ => cases isBody

/-- A sequence nests so deep at most if the code of each of its definitions nests less deep. -/
theorem nesting_le_iff_bodies {room : Nat} {actions : List Action} :
    nesting actions ≤ room ↔ ∀ body ∈ bodiesOf actions, nesting body < room := by
  rw [nesting_le_iff]
  constructor
  · intro shallow body inside
    obtain ⟨action, isAction, isBody⟩ := List.mem_filterMap.mp inside
    have here := shallow action isAction
    rwa [Action.nesting_of_body isBody] at here
  · intro shallow action inside
    cases isBody : action.body? with
    | none => simp [Action.nesting_of_flat isBody]
    | some body =>
      rw [Action.nesting_of_body isBody]
      exact shallow body (List.mem_filterMap.mpr ⟨action, inside, isBody⟩)

/-- Only code inside counts. -/
theorem nesting_of_bodies {actions others : List Action} (same : bodiesOf actions = bodiesOf others) :
    nesting actions = nesting others := by
  apply Nat.le_antisymm
  · rw [nesting_le_iff_bodies, same, ← nesting_le_iff_bodies]
  · rw [nesting_le_iff_bodies, ← same, ← nesting_le_iff_bodies]

/-- A sequence nests as deep as each path that leads to code is long. -/
theorem le_nesting_iff {depth : Nat} {actions : List Action} :
    depth ≤ nesting actions ↔
      ∃ path code, codeAt? path actions = some code ∧ path.length = depth := by
  induction depth generalizing actions with
  | zero => exact iff_of_true (Nat.zero_le _) ⟨[], actions, rfl, rfl⟩
  | succ depth ih =>
    rw [Nat.succ_le_iff, ← Nat.not_le, nesting_le_iff_bodies]
    push Not
    simp only [ih]
    constructor
    · rintro ⟨body, inside, path, code, found, length⟩
      obtain ⟨step, isBody⟩ := List.getElem?_of_mem inside
      exact ⟨step :: path, code, Option.bind_eq_some_iff.mpr ⟨body, isBody, found⟩, by simp [length]⟩
    · rintro ⟨path, code, found, length⟩
      obtain ⟨step, path, rfl⟩ := List.exists_cons_of_length_eq_add_one length
      obtain ⟨body, isBody, found⟩ := Option.bind_eq_some_iff.mp found
      exact ⟨body, List.mem_of_getElem? isBody, path, code, found, Nat.succ.inj length⟩

/-- **A sequence nests deeper than a number if a path of one step more leads to code.** -/
theorem lt_nesting_iff {depth : Nat} {actions : List Action} :
    depth < nesting actions ↔
      ∃ path code, codeAt? path actions = some code ∧ path.length = depth + 1 :=
  le_nesting_iff

/-! ### A limit that is tested on the way -/

mutual

/-- An action `depth` definitions deep with the pushes of all code inside merged. A definition that
lies too deep is found before its code is gone into. -/
def Action.mergeWithin (maxDepth depth : Nat) : Action → Except AssemblyFault Action
  | .define signature body =>
    if maxDepth < depth + 1 then .error (.tooDeep maxDepth)
    else
      match mergeWithinFrom maxDepth (depth + 1) #[] #[] body with
      | .error fault => .error fault
      | .ok merged => .ok (.define signature merged.toList)
  | .plain instruction => .ok (.plain instruction)
  | .marker marker => .ok (.marker marker)

/-- The actions of a sequence `depth` definitions deep with their pushes merged, and those of all code
inside, after the actions in `done` and the pushes in `run`. -/
def mergeWithinFrom (maxDepth depth : Nat) (run : Array PushValue) (done : Array Action) :
    List Action → Except AssemblyFault (Array Action)
  | [] => .ok (flushRun run done)
  | .plain (.push value) :: rest => mergeWithinFrom maxDepth depth (run.push value) done rest
  | action :: rest =>
    match action.mergeWithin maxDepth depth with
    | .error fault => .error fault
    | .ok action =>
      mergeWithinFrom maxDepth depth #[] ((flushRun run done).push action) rest

end

/-- The actions of a sequence with their pushes merged at every level, if it does not nest too
deep. -/
def mergeWithin (maxDepth : Nat) (actions : List Action) : Except AssemblyFault (List Action) :=
  (mergeWithinFrom maxDepth 0 #[] #[] actions).map Array.toList

theorem mergeWithinFrom_other {action : Action} (other : action.isPush = false)
    (maxDepth depth : Nat) (run : Array PushValue) (done : Array Action) (rest : List Action) :
    mergeWithinFrom maxDepth depth run done (action :: rest) =
      match action.mergeWithin maxDepth depth with
      | .error fault => .error fault
      | .ok action =>
        mergeWithinFrom maxDepth depth #[] ((flushRun run done).push action) rest := by
  rw [mergeWithinFrom]
  rintro value rfl
  cases other

mutual

theorem Action.mergeWithin_eq {maxDepth depth : Nat} (within : depth ≤ maxDepth) :
    ∀ action : Action, action.mergeWithin maxDepth depth =
      if maxDepth < depth + action.nesting then .error (.tooDeep maxDepth)
      else .ok (action.mapInside mergeRuns)
  | .plain instruction => by
    rw [Action.mergeWithin, Action.nesting_plain, Action.mapInside_plain, if_neg (by omega)]
  | .define signature body => by
    rw [Action.mergeWithin, Action.nesting_define]
    by_cases deep : maxDepth < depth + 1
    · rw [if_pos deep, if_pos (by omega)]
    · have inside := mergeWithinFrom_eq (Nat.le_of_not_lt deep) #[] #[] body
      have regroup : depth + (nesting body + 1) = depth + 1 + nesting body := by omega
      rw [if_neg deep, inside, regroup]
      by_cases deeper : maxDepth < depth + 1 + nesting body
      · rw [if_pos deeper, if_pos deeper]
      · rw [if_neg deeper, if_neg deeper, Action.mapInside_define, mapLevels_eq]
        rfl
  | .marker marker => by
    rw [Action.mergeWithin, Action.nesting_marker, Action.mapInside_marker, if_neg (by omega)]

theorem mergeWithinFrom_eq {maxDepth depth : Nat} (within : depth ≤ maxDepth) :
    ∀ (run : Array PushValue) (done : Array Action) (actions : List Action),
      mergeWithinFrom maxDepth depth run done actions =
        if maxDepth < depth + nesting actions then .error (.tooDeep maxDepth)
        else .ok (mergeRunsFrom run done (actions.map (Action.mapInside mergeRuns)))
  | run, done, [] => by
    rw [mergeWithinFrom, nesting_nil, if_neg (by omega)]
    rfl
  | run, done, action :: rest => by
    rw [nesting_cons, List.map_cons]
    obtain ⟨value, rfl⟩ | other := action.push_or_other
    · have later := mergeWithinFrom_eq within (run.push value) done rest
      rw [mergeWithinFrom, later, Action.nesting_plain, Nat.zero_max, Action.mapInside_plain,
        mergeRunsFrom]
    · have here := Action.mergeWithin_eq within action
      rw [mergeWithinFrom_other other, here]
      by_cases deep : maxDepth < depth + action.nesting
      · rw [if_pos deep, if_pos (by omega)]
      · have later := mergeWithinFrom_eq within #[]
          ((flushRun run done).push (action.mapInside mergeRuns)) rest
        rw [if_neg deep]
        dsimp only
        rw [later, mergeRunsFrom_other ((Action.isPush_mapInside _ action).trans other)]
        by_cases deeper : maxDepth < depth + nesting rest
        · rw [if_pos deeper, if_pos (by omega)]
        · rw [if_neg deeper, if_neg (by omega)]

end

/-- **Testing the limit at each definition is testing the nesting first.** -/
theorem mergeWithin_eq (maxDepth : Nat) (actions : List Action) :
    mergeWithin maxDepth actions =
      if maxDepth < nesting actions then .error (.tooDeep maxDepth)
      else .ok (mergePushes actions) := by
  rw [mergeWithin, mergeWithinFrom_eq (Nat.zero_le maxDepth), Nat.zero_add]
  split
  · rfl
  · rw [mergePushes, mapLevels_eq]
    rfl

end ActionCode
