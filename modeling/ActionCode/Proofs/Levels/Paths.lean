/-
**The levels of a sequence, one by one.**

* `bodiesOf`: the code of the definitions of a sequence. `codeAt?`: the code that a path leads to,
  each step of which picks a definition.
* **`everyLevel_iff_codeAt`**: something holds at every level if it holds of the code of every path.
* `AtEveryLevel`: two sequences have code at the same paths, and it is related.
* **`tryLevels_succeeds_iff`**, **`tryLevels_error`**: a pass that only adjusts instructions succeeds
  at every level together exactly if it succeeds at each, and its fault is one that it has at some
  level.
-/

import ActionCode.Proofs.Levels.Settling

namespace ActionCode

/-! ### Code inside -/

/-- The code of definitions, in order. -/
def bodiesOf (actions : List Action) : List (List Action) := actions.filterMap Action.body?

theorem Action.codeHolds_plain {holds : List Action → Prop} (instruction : Instruction) :
    (Action.plain instruction).CodeHolds holds := by
  rw [CodeHolds]
  trivial

theorem Action.codeHolds_marker {holds : List Action → Prop} (found : Marker) :
    (Action.marker found).CodeHolds holds := by
  rw [CodeHolds]
  trivial

theorem Action.codeHolds_iff {holds : List Action → Prop} {action : Action} :
    action.CodeHolds holds ↔ ∀ body, action.body? = some body → EveryLevel holds body := by
  cases action with
  | plain instruction => exact iff_of_true (codeHolds_plain _) fun _ isBody => by cases isBody
  | define signature body =>
    rw [CodeHolds]
    exact ⟨fun every _ isBody => Option.some.inj isBody ▸ every, fun every => every body rfl⟩
  | marker found => exact iff_of_true (codeHolds_marker _) fun _ isBody => by cases isBody

theorem allCodeHolds_iff_bodies {holds : List Action → Prop} {actions : List Action} :
    AllCodeHolds holds actions ↔ ∀ body ∈ bodiesOf actions, EveryLevel holds body := by
  induction actions with
  | nil =>
    rw [AllCodeHolds]
    exact iff_of_true trivial fun _ inside => absurd inside List.not_mem_nil
  | cons action rest ih =>
    rw [AllCodeHolds, ih, Action.codeHolds_iff, bodiesOf, bodiesOf, List.filterMap_cons]
    cases action.body? with
    | none => exact and_iff_right fun _ isBody => by cases isBody
    | some body =>
      rw [List.forall_mem_cons]
      exact and_congr_left' ⟨fun every => every body rfl,
        fun every _ isBody => Option.some.inj isBody ▸ every⟩

/-! ### Paths -/

/-- The code that a path leads to: each step goes into the definition of that number. -/
def codeAt? : List Nat → List Action → Option (List Action)
  | [], actions => some actions
  | step :: path, actions => (bodiesOf actions)[step]?.bind (codeAt? path)

/-- The code at a path is changed as the whole sequence is, if the code of definitions is. -/
theorem codeAt?_of_bodies {change : List Action → List Action}
    (bodies : ∀ actions, bodiesOf (change actions) = (bodiesOf actions).map change)
    (path : List Nat) (actions : List Action) :
    codeAt? path (change actions) = (codeAt? path actions).map change := by
  induction path generalizing actions with
  | nil => rfl
  | cons step path ih =>
    rw [codeAt?, codeAt?, bodies, List.getElem?_map, Option.bind_map, Option.map_bind]
    exact congrArg (Option.bind _) (funext ih)

mutual

theorem Action.codeHolds_of_codeAt {holds : List Action → Prop} :
    ∀ {action : Action}, (∀ body, action.body? = some body → ∀ path code,
      codeAt? path body = some code → holds code) → action.CodeHolds holds
  | .plain instruction => fun _ => Action.codeHolds_plain instruction
  | .define signature body => by
    intro every
    rw [Action.CodeHolds]
    refine ⟨every body rfl [] body rfl, allCodeHolds_of_codeAt fun inner inside path code found => ?_⟩
    obtain ⟨step, isInner⟩ := List.getElem?_of_mem inside
    exact every body rfl (step :: path) code (Option.bind_eq_some_iff.mpr ⟨inner, isInner, found⟩)
  | .marker found => fun _ => Action.codeHolds_marker found

theorem allCodeHolds_of_codeAt {holds : List Action → Prop} :
    ∀ {actions : List Action}, (∀ body ∈ bodiesOf actions, ∀ path code,
      codeAt? path body = some code → holds code) → AllCodeHolds holds actions
  | [] => fun _ => trivial
  | action :: rest => by
    intro every
    rw [AllCodeHolds]
    refine ⟨Action.codeHolds_of_codeAt fun body isBody =>
      every body (List.mem_filterMap.mpr ⟨action, List.mem_cons_self, isBody⟩),
      allCodeHolds_of_codeAt fun body inside => every body ?_⟩
    obtain ⟨other, isOther, isBody⟩ := List.mem_filterMap.mp inside
    exact List.mem_filterMap.mpr ⟨other, List.mem_cons_of_mem _ isOther, isBody⟩

end

/-- **Something holds at every level if it holds of the code of every path.** -/
theorem everyLevel_iff_codeAt {holds : List Action → Prop} {actions : List Action} :
    EveryLevel holds actions ↔ ∀ path code, codeAt? path actions = some code → holds code := by
  constructor
  · intro every path code found
    induction path generalizing actions with
    | nil => exact Option.some.inj found ▸ every.1
    | cons step path ih =>
      obtain ⟨body, isBody, found⟩ := Option.bind_eq_some_iff.mp found
      exact ih (allCodeHolds_iff_bodies.mp every.2 body (List.mem_of_getElem? isBody)) found
  · intro every
    refine ⟨every [] actions rfl, allCodeHolds_of_codeAt fun body inside path code found => ?_⟩
    obtain ⟨step, isBody⟩ := List.getElem?_of_mem inside
    exact every (step :: path) code (Option.bind_eq_some_iff.mpr ⟨body, isBody, found⟩)

/-- Something fails at some level if it fails of the code of some path. -/
theorem not_everyLevel_iff {holds : List Action → Prop} {actions : List Action} :
    ¬ EveryLevel holds actions ↔ ∃ path code, codeAt? path actions = some code ∧ ¬ holds code := by
  rw [everyLevel_iff_codeAt]
  push Not
  rfl

/-! ### Two sequences level by level -/

/-- Two sequences have code at the same paths, and it is related. -/
def AtEveryLevel (relates : List Action → List Action → Prop) (first second : List Action) : Prop :=
  ∀ path, Option.Rel relates (codeAt? path first) (codeAt? path second)

/-- What a relation gives for two sequences, and for the code of their definitions one by one, holds
level by level. -/
theorem AtEveryLevel.of_step {relates step : List Action → List Action → Prop}
    (here : ∀ first second, step first second → relates first second)
    (inside : ∀ first second, step first second →
      List.Forall₂ step (bodiesOf first) (bodiesOf second))
    {first second : List Action} (start : step first second) :
    AtEveryLevel relates first second := by
  intro path
  induction path generalizing first second with
  | nil => exact .some (here first second start)
  | cons number path ih =>
    have bodies := inside first second start
    rw [codeAt?, codeAt?]
    generalize bodiesOf first = firsts at bodies
    generalize bodiesOf second = seconds at bodies
    induction bodies generalizing number with
    | nil => exact .none
    | cons body _ later =>
      cases number with
      | zero => exact ih body
      | succ number => exact later number

/-! ### Passes that succeed -/

section

variable {ε : Type} {pass : List Action → Except ε (List Action)}
  {cast : Instruction → Instruction}

/-- What is seen of actions, and not hidden by a cast, is the same after the cast. -/
theorem filterMap_of_map {β : Type} {view : Action → Option β} {cast : Action → Action}
    (blind : ∀ action, view (cast action) = view action) {actions others : List Action}
    (same : actions.map cast = others.map cast) : actions.filterMap view = others.filterMap view := by
  have hidden (actions : List Action) : (actions.map cast).filterMap view = actions.filterMap view := by
    rw [List.filterMap_map]
    exact List.filterMap_congr fun action _ => blind action
  rw [← hidden, same, hidden]

theorem Action.body?_recastShell (cast : Instruction → Instruction) (action : Action) :
    (action.recastShell cast).body? = action.body? := by
  cases action <;> rfl

/-- Casts of one level leave code inside as it is. -/
theorem allCodeHolds_of_recastShell {holds : List Action → Prop} {actions others : List Action}
    (same : actions.map (Action.recastShell cast) = others.map (Action.recastShell cast))
    (every : AllCodeHolds holds actions) : AllCodeHolds holds others := by
  rw [allCodeHolds_iff_bodies] at every ⊢
  rwa [bodiesOf, ← filterMap_of_map (Action.body?_recastShell cast) same]

/-- What is the same after a cast of one level is so after the cast of every level. -/
theorem recastAll_of_recastShell {actions others : List Action}
    (same : actions.map (Action.recastShell cast) = others.map (Action.recastShell cast)) :
    recastAll cast actions = recastAll cast others := by
  have first : ∀ {action other : Action}, action.recastShell cast = other.recastShell cast →
      action.recast cast = other.recast cast := by
    intro action other same
    cases other with
    | plain _ =>
      cases action with
      | plain _ => exact same
      | _ => cases same
    | _ =>
      cases action with
      | plain _ => cases same
      | _ => exact congrArg (Action.recast cast) same
  induction actions generalizing others with
  | nil => rw [List.map_eq_nil_iff.mp same.symm]
  | cons action rest ih =>
    rcases others with _ | ⟨other, others⟩
    · cases same
    · obtain ⟨here, later⟩ := List.cons.inj same
      rw [recastAll, recastAll, first here, ih later]

mutual

theorem Action.exists_adjusted (adjusts : Adjusts pass cast)
    (blind : ∀ actions others, recastAll cast actions = recastAll cast others →
      (∃ result, pass actions = .ok result) → ∃ result, pass others = .ok result) :
    ∀ {action : Action}, action.CodeHolds (fun code => ∃ result, pass code = .ok result) →
      ∃ other : Action, action.recast cast = other.recast cast ∧
        other.CodeHolds (fun code => pass code = .ok code)
  | .plain instruction => fun _ => ⟨.plain instruction, rfl, Action.codeHolds_plain instruction⟩
  | .define signature body => by
    intro every
    rw [Action.CodeHolds] at every
    obtain ⟨others, same, fixed⟩ := exists_adjustedAll adjusts blind every.2
    obtain ⟨result, passed⟩ := blind _ _ same every.1
    obtain ⟨shells, kept⟩ := (adjusts _ _).mp passed
    refine ⟨.define signature result, ?_, ?_⟩
    · rw [Action.recast, Action.recast, same, recastAll_of_recastShell shells]
    · rw [Action.CodeHolds]
      exact ⟨kept, allCodeHolds_of_recastShell shells fixed⟩
  | .marker found => fun _ => ⟨.marker found, rfl, Action.codeHolds_marker found⟩

theorem exists_adjustedAll (adjusts : Adjusts pass cast)
    (blind : ∀ actions others, recastAll cast actions = recastAll cast others →
      (∃ result, pass actions = .ok result) → ∃ result, pass others = .ok result) :
    ∀ {actions : List Action},
      AllCodeHolds (fun code => ∃ result, pass code = .ok result) actions →
      ∃ others, recastAll cast actions = recastAll cast others ∧
        AllCodeHolds (fun code => pass code = .ok code) others
  | [] => fun _ => ⟨[], rfl, trivial⟩
  | action :: rest => by
    intro every
    rw [AllCodeHolds] at every
    obtain ⟨other, same, fixed⟩ := Action.exists_adjusted adjusts blind every.1
    obtain ⟨others, sames, fixeds⟩ := exists_adjustedAll adjusts blind every.2
    refine ⟨other :: others, ?_, ?_⟩
    · rw [recastAll, recastAll, same, sames]
    · rw [AllCodeHolds]
      exact ⟨fixed, fixeds⟩

end

/-- **A pass that only adjusts instructions succeeds at every level together if it succeeds at
each**, when what it forgets does not decide whether it does. -/
theorem tryLevels_succeeds_iff (adjusts : Adjusts pass cast)
    (blind : ∀ actions, (∃ result, pass (recastAll cast actions) = .ok result) ↔
      ∃ result, pass actions = .ok result) {actions : List Action} :
    (∃ result, tryLevels pass actions = .ok result) ↔
      EveryLevel (fun code => ∃ result, pass code = .ok result) actions := by
  have alike : ∀ actions others, recastAll cast actions = recastAll cast others →
      (∃ result, pass actions = .ok result) → ∃ result, pass others = .ok result := by
    intro actions others same passed
    rwa [← blind, ← same, blind]
  constructor
  · rintro ⟨result, passed⟩
    obtain ⟨same, fixed⟩ := (tryLevels_adjusts adjusts).mp passed
    rw [← everyLevel_recastAll blind, same, everyLevel_recastAll blind]
    exact ⟨⟨result, fixed.1⟩, allCodeHolds_of_imp (fun code kept => ⟨code, kept⟩) fixed.2⟩
  · rintro ⟨passed, every⟩
    obtain ⟨others, same, fixed⟩ := exists_adjustedAll adjusts alike every
    obtain ⟨result, passed⟩ := alike _ _ same passed
    obtain ⟨shells, kept⟩ := (adjusts _ _).mp passed
    exact ⟨result, (tryLevels_adjusts adjusts).mpr
      ⟨same.trans (recastAll_of_recastShell shells), kept, allCodeHolds_of_recastShell shells fixed⟩⟩

theorem codeAt?_of_mem {actions body code : List Action} {path : List Nat}
    (inside : body ∈ bodiesOf actions) (found : codeAt? path body = some code) :
    ∃ path, codeAt? path actions = some code := by
  obtain ⟨step, isBody⟩ := List.getElem?_of_mem inside
  exact ⟨step :: path, Option.bind_eq_some_iff.mpr ⟨body, isBody, found⟩⟩

theorem Action.tryInside_define (signature : Signature) (body : List Action) :
    (Action.define signature body).tryInside pass =
      (tryLevels pass body).map (Action.define signature) := by
  rw [tryInside, tryLevels]
  cases tryInsideFrom pass #[] body with
  | error fault => rfl
  | ok inner =>
    dsimp only
    cases pass inner.toList <;> rfl

/-- A fault at every level is one inside, or one that the pass has with what it makes of all code
inside. -/
theorem tryLevels_error_cases (adjusts : Adjusts pass cast) {actions : List Action} {fault : ε}
    (failed : tryLevels pass actions = .error fault) :
    tryInsideFrom pass #[] actions = .error fault ∨
      ∃ inner, recastAll cast actions = recastAll cast inner ∧ pass inner = .error fault := by
  rw [tryLevels] at failed
  cases ran : tryInsideFrom pass #[] actions with
  | error other =>
    rw [ran] at failed
    exact .inl (congrArg Except.error (Except.error.inj failed))
  | ok inner =>
    rw [ran] at failed
    obtain ⟨inner', inside, isInner⟩ := (tryInsideFrom_ok_iff pass #[]).mp ran
    have same := ((allInside_adjusts adjusts actions inner').mp ⟨inner', inside, rfl⟩).1
    have isInner : inner.toList = inner' := isInner
    exact .inr ⟨inner', same, isInner ▸ failed⟩

mutual

/-- A fault inside an action comes from the code at some path. -/
theorem Action.exists_of_tryInside_error (adjusts : Adjusts pass cast) {fault : ε} :
    ∀ {action : Action}, action.tryInside pass = .error fault →
      ∃ body path code inner, action.body? = some body ∧ codeAt? path body = some code ∧
        recastAll cast code = recastAll cast inner ∧ pass inner = .error fault
  | .plain instruction => fun failed => by
    rw [Action.tryInside] at failed
    cases failed
  | .define signature body => fun failed => by
    rw [Action.tryInside_define] at failed
    cases ran : tryLevels pass body with
    | error other =>
      rw [ran] at failed
      obtain rfl := Except.error.inj failed
      obtain inside | ⟨inner, same, failed⟩ := tryLevels_error_cases adjusts ran
      · obtain ⟨body', path, code, inner, inside, found, here⟩ :=
          exists_of_tryInsideFrom_error adjusts inside
        obtain ⟨path, found⟩ := codeAt?_of_mem inside found
        exact ⟨body, path, code, inner, rfl, found, here⟩
      · exact ⟨body, [], body, inner, rfl, rfl, same, failed⟩
    | ok result =>
      rw [ran] at failed
      cases failed
  | .marker found => fun failed => by
    rw [Action.tryInside] at failed
    cases failed

theorem exists_of_tryInsideFrom_error (adjusts : Adjusts pass cast) {fault : ε} :
    ∀ {done : Array Action} {actions : List Action},
      tryInsideFrom pass done actions = .error fault →
      ∃ body path code inner, body ∈ bodiesOf actions ∧ codeAt? path body = some code ∧
        recastAll cast code = recastAll cast inner ∧ pass inner = .error fault
  | done, [] => fun failed => by
    rw [tryInsideFrom] at failed
    cases failed
  | done, action :: rest => fun failed => by
    rw [tryInsideFrom] at failed
    cases first : action.tryInside pass with
    | error other =>
      rw [first] at failed
      obtain rfl := Except.error.inj failed
      obtain ⟨body, path, code, inner, isBody, found⟩ :=
        Action.exists_of_tryInside_error adjusts first
      exact ⟨body, path, code, inner,
        List.mem_filterMap.mpr ⟨action, List.mem_cons_self, isBody⟩, found⟩
    | ok result =>
      rw [first] at failed
      obtain ⟨body, path, code, inner, inside, found⟩ :=
        exists_of_tryInsideFrom_error adjusts failed
      obtain ⟨other, isOther, isBody⟩ := List.mem_filterMap.mp inside
      exact ⟨body, path, code, inner,
        List.mem_filterMap.mpr ⟨other, List.mem_cons_of_mem _ isOther, isBody⟩, found⟩

end

/-- **A fault of a pass at every level is one that it has at some level**, up to what the pass adjusts
in code inside. -/
theorem tryLevels_error (adjusts : Adjusts pass cast) {actions : List Action} {fault : ε}
    (failed : tryLevels pass actions = .error fault) :
    ∃ path code inner, codeAt? path actions = some code ∧
      recastAll cast code = recastAll cast inner ∧ pass inner = .error fault := by
  obtain inside | ⟨inner, same, failed⟩ := tryLevels_error_cases adjusts failed
  · obtain ⟨body, path, code, inner, inside, found, here⟩ :=
      exists_of_tryInsideFrom_error adjusts inside
    obtain ⟨path, found⟩ := codeAt?_of_mem inside found
    exact ⟨path, code, inner, found, here⟩
  · exact ⟨[], actions, inner, rfl, same, failed⟩

end

end ActionCode
