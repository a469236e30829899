/-
**Every action is examined once.**

* `Walk`: a worklist, the actions as they are, and the visits so far. `Walk.Step` takes the entry in
  front of the worklist; **`exists_steps`**: a traversal is a walk to the end.
* `Walk.potential`: what every step lowers, whatever control flow does. A visit uses up an action and
  adds two entries at most.
* `Walk.Sound`: no action is visited twice, **none is lost from sight**, and what is examined is what
  was there at first.
* **`traverse_examines_once`**
-/

import ActionCode.Proofs.Flow.Roots
import Mathlib.Data.List.Nodup

namespace ActionCode

variable {σ ε : Type}

/-! ### Walks -/

/-- A traversal on its way. -/
structure Walk (σ ε : Type) where
  work : List (Nat × σ)
  cells : Array Cell
  visits : List (Visit σ ε)

namespace Walk

/-- The walk before the first action. -/
def start (initial : σ) (actions : List Action) : Walk σ ε :=
  ⟨(List.range actions.length).map fun index => (index, initial),
    (actions.map fun action => Cell.mk action false).toArray, []⟩

/-- Where control goes after an action that has been examined, with the state that it takes there. -/
def branches (labels : Std.TreeMap Nat Nat) (index : Nat) (observed : Observation σ ε) :
    List (Nat × σ) :=
  (successors labels index observed.action).map fun target => (target, observed.state)

variable (examine : Examine σ ε) (labels : Std.TreeMap Nat Nat)

/-- **One entry is taken from the worklist.** What has been visited, or is not there, is passed over. -/
inductive Step : Walk σ ε → Walk σ ε → Prop where
  | visit {index : Nat} {action : Action} {cells : Array Cell}
      (fresh : cells[index]? = some ⟨action, false⟩) (state : σ) (rest : List (Nat × σ))
      (visits : List (Visit σ ε)) :
      Step ⟨(index, state) :: rest, cells, visits⟩
        ⟨branches labels index (examine state action) ++ rest,
          cells.setIfInBounds index ⟨(examine state action).action, true⟩,
          visits ++ [⟨index, state, examine state action⟩]⟩
  | pass {index : Nat} {cells : Array Cell} (used : ∀ action, cells[index]? ≠ some ⟨action, false⟩)
      (state : σ) (rest : List (Nat × σ)) (visits : List (Visit σ ε)) :
      Step ⟨(index, state) :: rest, cells, visits⟩ ⟨rest, cells, visits⟩

/-- A number of steps. -/
inductive Steps : Nat → Walk σ ε → Walk σ ε → Prop where
  | refl (walk : Walk σ ε) : Steps 0 walk walk
  | head {count : Nat} {walk next last : Walk σ ε} (first : Step examine labels walk next)
      (later : Steps count next last) : Steps (count + 1) walk last

variable {examine labels}

/-- What every step keeps, steps keep. -/
theorem Steps.keep {Kept : Walk σ ε → Prop}
    (step : ∀ {walk next}, Step examine labels walk next → Kept walk → Kept next) {count : Nat}
    {walk last : Walk σ ε} (steps : Steps examine labels count walk last) (kept : Kept walk) :
    Kept last := by
  induction steps with
  | refl => exact kept
  | head first _ ih => exact ih (step first kept)

/-! ### The end of a walk -/

/-- What is left to do: each unvisited action may cost a visit and two more entries. -/
def potential (walk : Walk σ ε) : Nat := 2 * unvisited walk.cells + walk.work.length

theorem Step.potential_lt {walk next : Walk σ ε} (step : Step examine labels walk next) :
    next.potential < walk.potential := by
  cases step with
  | @visit index action cells fresh state rest visits =>
    obtain ⟨inside, cell⟩ := Array.getElem?_eq_some_iff.mp fresh
    have used := unvisited_set inside (by rw [cell]) (examine state action).action
    have added := length_successors_le labels index (examine state action).action
    unfold potential branches
    rw [Array.setIfInBounds, dif_pos inside]
    simp only [List.length_append, List.length_map, List.length_cons]
    omega
  | pass => exact Nat.lt_succ_self _

/-- **Walks end**: there are no more steps than the potential allows. -/
theorem Steps.add_potential_le {count : Nat} {walk last : Walk σ ε}
    (steps : Steps examine labels count walk last) : count + last.potential ≤ walk.potential := by
  induction steps with
  | refl walk => exact Nat.le_of_eq (Nat.zero_add _)
  | head first _ ih =>
    have lower := first.potential_lt
    omega

theorem potential_start (initial : σ) (actions : List Action) :
    (start initial actions : Walk σ ε).potential = 3 * actions.length := by
  have all : unvisited (actions.map fun action => Cell.mk action false).toArray =
      actions.length := by
    simp [unvisited, List.countP_map, Function.comp_def]
  simp only [potential, start, all, List.length_map, List.length_range]
  omega

variable (examine labels)

/-- **Exploring is a walk to the end.** -/
theorem exists_steps_explore (work : List (Nat × σ)) (cells : Array Cell)
    (visits : Array (Visit σ ε)) :
    ∃ count, Steps examine labels count ⟨work, cells, visits.toList⟩
      ⟨[], (explore examine labels work cells visits).1,
        (explore examine labels work cells visits).2.toList⟩ := by
  fun_induction explore examine labels work cells visits with
  | case1 cells visits => exact ⟨0, .refl _⟩
  | case2 cells visits index state rest inside fresh observed next ih =>
    obtain ⟨count, later⟩ := ih
    have cell : cells[index]? = some ⟨cells[index].action, false⟩ := by
      rw [Array.getElem?_eq_getElem inside, ← fresh]
    have first : Step examine labels _ _ := .visit cell state rest visits.toList
    rw [Array.setIfInBounds, dif_pos inside] at first
    rw [Array.toList_push] at later
    exact ⟨count + 1, .head first later⟩
  | case3 cells visits index state rest inside visited ih =>
    obtain ⟨count, later⟩ := ih
    refine ⟨count + 1, .head (.pass ?_ state rest _) later⟩
    intro action cell
    exact visited (by rw [(Array.getElem?_eq_some_iff.mp cell).2])
  | case4 cells visits index state rest outside ih =>
    obtain ⟨count, later⟩ := ih
    refine ⟨count + 1, .head (.pass ?_ state rest _) later⟩
    intro action cell
    exact outside (Array.getElem?_eq_some_iff.mp cell).1

/-- The end of a walk: the actions as they were left, and the visits. -/
def traversal (walk : Walk σ ε) : Traversal σ ε := ⟨walk.cells.toList.map Cell.action, walk.visits⟩

theorem exists_steps_traverse (initial : σ) (actions : List Action) :
    ∃ count last, Steps examine (labelIndices actions) count (start initial actions) last ∧
      last.work = [] ∧ last.traversal = traverse examine initial actions := by
  obtain ⟨count, steps⟩ := exists_steps_explore examine (labelIndices actions)
    (start initial actions : Walk σ ε).work (start initial actions : Walk σ ε).cells #[]
  exact ⟨count, _, steps, rfl, (traverse_eq_explore examine initial actions).symm⟩

variable {examine labels}

end Walk

/-! ### What is visited -/

/-- The action of the sequence is examined, and not what another visit made of it. -/
def Visit.Made (examine : Examine σ ε) (actions : List Action) (visit : Visit σ ε) : Prop :=
  ∃ action, actions[visit.index]? = some action ∧ visit.observed = examine visit.before action

namespace Walk

variable {examine : Examine σ ε} {labels : Std.TreeMap Nat Nat} {actions : List Action}

/-- The indices that have been visited. -/
def indices (walk : Walk σ ε) : List Nat := walk.visits.map Visit.index

variable (examine actions) in
/-- **Cells and visits tell of each other**, and what has not been visited waits in the worklist. -/
structure Sound (walk : Walk σ ε) : Prop where
  size : walk.cells.size = actions.length
  once : walk.indices.Nodup
  fresh : ∀ index action, walk.cells[index]? = some ⟨action, false⟩ →
    actions[index]? = some action ∧ index ∉ walk.indices
  used : ∀ index action, walk.cells[index]? = some ⟨action, true⟩ → index ∈ walk.indices
  made : ∀ visit ∈ walk.visits, visit.Made examine actions ∧
    walk.cells[visit.index]? = some ⟨visit.observed.action, true⟩
  waiting : ∀ index < actions.length, index ∈ walk.indices ∨ index ∈ walk.work.map Prod.fst

variable (examine actions) in
theorem Sound.start (initial : σ) : (start initial actions).Sound examine actions where
  size := by simp [Walk.start]
  once := List.nodup_nil
  fresh := by
    intro index action cell
    have here : actions[index]? = some action := by
      simpa [Walk.start] using cell
    exact ⟨here, List.not_mem_nil⟩
  used := by
    intro index action cell
    simp [Walk.start] at cell
  made := by
    intro visit member
    cases member
  waiting := by
    intro index inside
    refine .inr ?_
    simpa [Walk.start, List.map_map, Function.comp_def] using inside

/-- An entry that is passed over has been visited, or is not there. -/
theorem Sound.mem_indices_of_pass {walk : Walk σ ε} (sound : walk.Sound examine actions)
    {index : Nat} (used : ∀ action, walk.cells[index]? ≠ some ⟨action, false⟩)
    (inside : index < actions.length) : index ∈ walk.indices := by
  have here : index < walk.cells.size := by rwa [sound.size]
  have cell := Array.getElem?_eq_getElem here
  cases visited : walk.cells[index].visited with
  | false => exact absurd (by rw [cell, ← visited]) (used walk.cells[index].action)
  | true => exact sound.used index walk.cells[index].action (by rw [cell, ← visited])

theorem getElem?_visit {cells : Array Cell} {index : Nat} {cell : Cell}
    (here : cells[index]? = some cell) (visited : Cell) (place : Nat) :
    (cells.setIfInBounds index visited)[place]? =
      if index = place then some visited else cells[place]? := by
  rw [Array.getElem?_setIfInBounds, if_pos (Array.getElem?_eq_some_iff.mp here).1]

theorem Sound.visit {index : Nat} {action : Action} {cells : Array Cell} {state : σ}
    {rest : List (Nat × σ)} {visits : List (Visit σ ε)}
    (fresh : cells[index]? = some ⟨action, false⟩)
    (sound : Sound examine actions ⟨(index, state) :: rest, cells, visits⟩) :
    Sound examine actions ⟨branches labels index (examine state action) ++ rest,
      cells.setIfInBounds index ⟨(examine state action).action, true⟩,
      visits ++ [⟨index, state, examine state action⟩]⟩ := by
  obtain ⟨here, unseen⟩ := sound.fresh index action fresh
  have indices : indices ⟨branches labels index (examine state action) ++ rest,
      cells.setIfInBounds index ⟨(examine state action).action, true⟩,
      visits ++ [⟨index, state, examine state action⟩]⟩ = visits.map Visit.index ++ [index] :=
    List.map_append
  refine ⟨?size, ?once, ?fresh, ?used, ?made, ?waiting⟩
  case size => rw [Array.size_setIfInBounds, sound.size]
  case once =>
    rw [indices]
    have longer := List.Nodup.concat unseen sound.once
    rwa [List.concat_eq_append] at longer
  case fresh =>
    intro place other cell
    rw [getElem?_visit fresh] at cell
    split at cell
    case isTrue => cases cell
    case isFalse apart =>
      obtain ⟨there, unvisited⟩ := sound.fresh place other cell
      refine ⟨there, fun member => ?_⟩
      rw [indices] at member
      rcases List.mem_append.mp member with earlier | last
      · exact unvisited earlier
      · exact apart (List.mem_singleton.mp last).symm
  case used =>
    intro place other cell
    rw [indices]
    rw [getElem?_visit fresh] at cell
    split at cell
    case isTrue equal => exact equal ▸ List.mem_concat_self
    case isFalse => exact List.mem_append_left _ (sound.used place other cell)
  case made =>
    intro visit member
    rw [getElem?_visit fresh]
    rcases List.mem_append.mp member with earlier | last
    · obtain ⟨made, cell⟩ := sound.made visit earlier
      have apart : index ≠ visit.index := by
        rintro rfl
        exact unseen (List.mem_map_of_mem earlier)
      rw [if_neg apart]
      exact ⟨made, cell⟩
    · obtain rfl := List.mem_singleton.mp last
      exact ⟨⟨action, here, rfl⟩, if_pos rfl⟩
  case waiting =>
    intro place inside
    rw [indices]
    rcases sound.waiting place inside with visited | waits
    · exact .inl (List.mem_append_left _ visited)
    · rcases List.mem_cons.mp waits with rfl | later
      · exact .inl List.mem_concat_self
      · refine .inr ?_
        rw [List.map_append]
        exact List.mem_append_right _ later

theorem Sound.pass {index : Nat} {cells : Array Cell} {state : σ} {rest : List (Nat × σ)}
    {visits : List (Visit σ ε)} (used : ∀ action, cells[index]? ≠ some ⟨action, false⟩)
    (sound : Sound examine actions ⟨(index, state) :: rest, cells, visits⟩) :
    Sound examine actions ⟨rest, cells, visits⟩ := by
  refine ⟨sound.size, sound.once, sound.fresh, sound.used, sound.made, fun place inside => ?_⟩
  rcases sound.waiting place inside with visited | waits
  · exact .inl visited
  · rcases List.mem_cons.mp waits with rfl | later
    · exact .inl (sound.mem_indices_of_pass used inside)
    · exact .inr later

theorem Step.sound {walk next : Walk σ ε} (step : Step examine labels walk next)
    (sound : walk.Sound examine actions) : next.Sound examine actions := by
  cases step with
  | visit fresh => exact sound.visit fresh
  | pass used => exact sound.pass used

/-- **At the end of a walk, every index has been visited once.** -/
theorem Sound.perm_range {walk : Walk σ ε} (sound : walk.Sound examine actions)
    (ended : walk.work = []) : walk.indices.Perm (List.range actions.length) := by
  refine (List.perm_ext_iff_of_nodup sound.once List.nodup_range).mpr fun index => ?_
  rw [List.mem_range]
  constructor
  · intro member
    obtain ⟨visit, visited, rfl⟩ := List.mem_map.mp member
    obtain ⟨⟨action, here, -⟩, -⟩ := sound.made visit visited
    exact (List.getElem?_eq_some_iff.mp here).1
  · intro inside
    -- What has not been visited would still wait in the worklist, which is empty.
    rcases sound.waiting index inside with visited | waits
    · exact visited
    · rw [ended] at waits
      cases waits

end Walk

/-! ### Traversals -/

/-- A traversal is the sound end of a walk. -/
theorem exists_sound_traverse (examine : Examine σ ε) (initial : σ) (actions : List Action) :
    ∃ last : Walk σ ε, last.Sound examine actions ∧ last.work = [] ∧
      last.traversal = traverse examine initial actions := by
  obtain ⟨count, last, steps, ended, equal⟩ := Walk.exists_steps_traverse examine initial actions
  exact ⟨last, steps.keep Walk.Step.sound (Walk.Sound.start examine actions initial), ended, equal⟩

/-- Every index is visited once. -/
theorem perm_indices_traverse (examine : Examine σ ε) (initial : σ) (actions : List Action) :
    ((traverse examine initial actions).visits.map Visit.index).Perm
      (List.range actions.length) := by
  obtain ⟨last, sound, ended, equal⟩ := exists_sound_traverse examine initial actions
  rw [← equal]
  exact sound.perm_range ended

theorem exists_visit_traverse (examine : Examine σ ε) (initial : σ) {actions : List Action}
    {index : Nat} (inside : index < actions.length) :
    ∃ visit ∈ (traverse examine initial actions).visits, visit.index = index :=
  List.mem_map.mp ((perm_indices_traverse examine initial actions).mem_iff.mpr
    (List.mem_range.mpr inside))

/-- A visit examines the action of the sequence, which is left as it was made there. -/
theorem made_of_mem_traverse {examine : Examine σ ε} {initial : σ} {actions : List Action}
    {visit : Visit σ ε} (member : visit ∈ (traverse examine initial actions).visits) :
    visit.Made examine actions ∧
      (traverse examine initial actions).actions[visit.index]? = some visit.observed.action := by
  obtain ⟨last, sound, -, equal⟩ := exists_sound_traverse examine initial actions
  rw [← equal] at member ⊢
  obtain ⟨made, cell⟩ := sound.made visit member
  refine ⟨made, ?_⟩
  simp [Walk.traversal, cell]

theorem length_actions_traverse (examine : Examine σ ε) (initial : σ) (actions : List Action) :
    (traverse examine initial actions).actions.length = actions.length := by
  obtain ⟨last, sound, -, equal⟩ := exists_sound_traverse examine initial actions
  rw [← equal, Walk.traversal, List.length_map, Array.length_toList, sound.size]

/-- **A traversal ends, and examines every action once**, whatever the examination makes of the actions
and wherever control goes: the walk is over after three steps for each action at most; every index is
visited once; and a visit examines the action of the sequence, which is left as it was made there. -/
theorem traverse_examines_once (examine : Examine σ ε) (initial : σ) (actions : List Action) :
    (∃ count last, Walk.Steps examine (labelIndices actions) count (.start initial actions) last ∧
      last.work = [] ∧ last.traversal = traverse examine initial actions) ∧
    (∀ count last, Walk.Steps examine (labelIndices actions) count (.start initial actions) last →
      count ≤ 3 * actions.length) ∧
    ((traverse examine initial actions).visits.map Visit.index).Perm (List.range actions.length) ∧
    ∀ visit ∈ (traverse examine initial actions).visits, visit.Made examine actions ∧
      (traverse examine initial actions).actions[visit.index]? = some visit.observed.action := by
  refine ⟨Walk.exists_steps_traverse examine initial actions, fun count last steps => ?_,
    perm_indices_traverse examine initial actions, fun visit member => made_of_mem_traverse member⟩
  have bound := steps.add_potential_le
  rw [Walk.potential_start] at bound
  omega

/-- An examination that makes of every action a fork to the label 1. -/
def forking : Examine Nat Unit := fun length _ =>
  ⟨length + 1, .plain (.branch ⟨true, 0, some ⟨1⟩⟩), []⟩

/-- The label 1 is placed twice, before and after a jump to it, and everything becomes a fork to its last
place. -/
theorem traverse_examines_once_forking :
    ((traverse forking 0 [.marker (.label ⟨1⟩), .plain (.branch ⟨false, 0, some ⟨1⟩⟩),
      .marker (.label ⟨1⟩)]).visits.map Visit.index).Perm [0, 1, 2] ∧
    ∃ visit ∈ (traverse forking 0 [.marker (.label ⟨1⟩), .plain (.branch ⟨false, 0, some ⟨1⟩⟩),
        .marker (.label ⟨1⟩)]).visits,
      visit.index = 2 ∧ visit.observed = forking visit.before (.marker (.label ⟨1⟩)) := by
  obtain ⟨-, -, once, made⟩ := traverse_examines_once forking 0 [.marker (.label ⟨1⟩),
    .plain (.branch ⟨false, 0, some ⟨1⟩⟩), .marker (.label ⟨1⟩)]
  refine ⟨once, ?_⟩
  obtain ⟨visit, member, index⟩ := List.mem_map.mp (once.mem_iff.mpr (List.mem_range.mpr
    (Nat.lt_succ_self 2)))
  obtain ⟨⟨action, here, observed⟩, -⟩ := made visit member
  rw [index] at here
  cases here
  exact ⟨visit, member, index, observed⟩

end ActionCode
