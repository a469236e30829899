/-
**The visits of a traversal are a forest.**

* `Forest`: trees that grow one after the other. A root begins in the initial state, at the least index
  that is left, **once control cannot go on from what has been visited**; any other visit begins in the
  state in which a visit of its own tree ended, and an edge leads there.
* `Walk.Growing`: what a walk has visited is a forest, and in front of the roots that are left, its
  worklist holds the edges that are still to be followed from the last tree.
* **`traverse_forest`**: and the first tree is what control can reach from the first action.
-/

import ActionCode.Proofs.Flow.Edges
import ActionCode.Proofs.Flow.Walking
import ActionCode.Stack.Simulation
import Mathlib.Logic.Relation

namespace ActionCode

variable {σ ε : Type} {examine : Examine σ ε} {initial : σ} {actions : List Action}

/-! ### Forests -/

/-- The indices of some trees. -/
def indicesOf (trees : List (List (Visit σ ε))) : List Nat := trees.flatten.map Visit.index

/-- Control cannot go on from what has been visited to what has not. -/
def Closed (actions : List Action) (trees : List (List (Visit σ ε))) : Prop :=
  ∀ source ∈ indicesOf trees, ∀ target < actions.length, Edge actions source target →
    target ∈ indicesOf trees

variable (examine initial actions) in
/-- **Trees of visits**, in the order in which they grow. -/
inductive Forest : List (List (Visit σ ε)) → Prop where
  | nil : Forest []
  /-- All that has begun is finished before another tree begins. -/
  | root {trees : List (List (Visit σ ε))} {visit : Visit σ ε} (grown : Forest trees)
      (made : visit.Made examine actions) (before : visit.before = initial)
      (fresh : visit.index ∉ indicesOf trees) (least : ∀ index < visit.index, index ∈ indicesOf trees)
      (closed : Closed actions trees) : Forest (trees ++ [[visit]])
  | child {trees : List (List (Visit σ ε))} {tree : List (Visit σ ε)} {parent visit : Visit σ ε}
      (grown : Forest (trees ++ [tree])) (member : parent ∈ tree)
      (edge : Edge actions parent.index visit.index) (made : visit.Made examine actions)
      (before : visit.before = parent.observed.state)
      (fresh : visit.index ∉ indicesOf (trees ++ [tree])) : Forest (trees ++ [tree ++ [visit]])

theorem indicesOf_root (trees : List (List (Visit σ ε))) (visit : Visit σ ε) :
    indicesOf (trees ++ [[visit]]) = indicesOf trees ++ [visit.index] := by
  simp [indicesOf]

theorem indicesOf_child (trees : List (List (Visit σ ε))) (tree : List (Visit σ ε))
    (visit : Visit σ ε) :
    indicesOf (trees ++ [tree ++ [visit]]) = indicesOf (trees ++ [tree]) ++ [visit.index] := by
  simp [indicesOf]

/-- What comes before the end of a longer list comes before its last element. -/
theorem exists_of_append_eq_concat {α : Type} {before after front : List α} {last : α}
    (equal : before ++ after = front ++ [last]) (nonempty : after ≠ []) :
    ∃ middle, after = middle ++ [last] ∧ front = before ++ middle := by
  obtain ⟨middle, final, rfl⟩ : ∃ middle final, after = middle ++ [final] :=
    ⟨_, _, (List.dropLast_append_getLast nonempty).symm⟩
  rw [← List.append_assoc] at equal
  obtain ⟨rfl, same⟩ := List.append_inj' equal rfl
  exact ⟨middle, by rw [List.singleton_inj.mp same], rfl⟩

/-- **A tree is finished before the next one begins.** -/
theorem Forest.closed_of_later {done later : List (List (Visit σ ε))}
    (forest : Forest examine initial actions (done ++ later)) (nonempty : later ≠ []) :
    Closed actions done := by
  generalize equal : done ++ later = trees at forest
  -- The last tree is one of `later`, so `done` was there when that one began.
  induction forest generalizing later with
  | nil => exact absurd (List.append_eq_nil_iff.mp equal).2 nonempty
  | root grown _ _ _ _ closed ih =>
    obtain ⟨middle, rfl, rfl⟩ := exists_of_append_eq_concat equal nonempty
    cases middle with
    | nil => rwa [List.append_nil] at closed
    | cons next middle => exact ih (List.cons_ne_nil next middle) rfl
  | @child trees tree parent visit grown _ _ _ _ _ ih =>
    obtain ⟨middle, rfl, rfl⟩ := exists_of_append_eq_concat equal nonempty
    have longer : middle ++ [tree] ≠ [] :=
      List.append_ne_nil_of_right_ne_nil _ (List.cons_ne_nil tree [])
    exact ih longer (List.append_assoc ..).symm

/-- **The first tree grows from the first action**, and control can go from there to all that is in
it. -/
theorem Forest.first_reachable {first : List (Visit σ ε)} {others : List (List (Visit σ ε))}
    (forest : Forest examine initial actions (first :: others)) :
    0 ∈ first.map Visit.index ∧
      ∀ visit ∈ first, Relation.ReflTransGen (Edge actions) 0 visit.index := by
  generalize equal : first :: others = trees at forest
  induction forest generalizing first others with
  | nil => cases equal
  | @root trees visit grown _ _ _ least _ ih =>
    cases trees with
    | cons tree trees =>
      cases equal
      exact ih rfl
    | nil =>
      cases equal
      have isZero : visit.index = 0 := by
        by_contra positive
        exact List.not_mem_nil (least 0 (Nat.pos_of_ne_zero positive))
      refine ⟨by simp [isZero], fun other member => ?_⟩
      obtain rfl := List.mem_singleton.mp member
      rw [isZero]
  | @child trees tree parent visit grown member edge _ _ _ ih =>
    cases trees with
    | cons tree trees =>
      cases equal
      exact ih rfl
    | nil =>
      cases equal
      obtain ⟨zero, reach⟩ := ih rfl
      refine ⟨?_, fun other inside => ?_⟩
      · rw [List.map_append]
        exact List.mem_append_left _ zero
      · rcases List.mem_append.mp inside with earlier | last
        · exact reach other earlier
        · obtain rfl := List.mem_singleton.mp last
          exact (reach parent member).tail edge

/-! ### Growth -/

/-- An entry of the worklist follows an edge from the last tree, with the state that it leads to. -/
def FollowsLast (actions : List Action) (trees : List (List (Visit σ ε))) (entry : Nat × σ) : Prop :=
  ∃ tree, trees.getLast? = some tree ∧ ∃ parent ∈ tree, Edge actions parent.index entry.1 ∧
    entry.2 = parent.observed.state

variable (examine initial actions) in
/-- **What a walk has visited is a forest**, and its worklist is the edges that are still to be followed
from the last tree, before the roots that are left. -/
structure Walk.Growing (walk : Walk σ ε) (trees : List (List (Visit σ ε)))
    (pending : List (Nat × σ)) (scan : Nat) : Prop where
  forest : Forest examine initial actions trees
  visits : walk.visits = trees.flatten
  work : walk.work = pending ++ rootsFrom initial actions.length scan
  follows : ∀ entry ∈ pending, FollowsLast actions trees entry
  scanned : ∀ index < scan, index ∈ indicesOf trees
  closed : ∀ source ∈ indicesOf trees, ∀ target < actions.length, Edge actions source target →
    target ∈ indicesOf trees ∨ target ∈ pending.map Prod.fst

theorem eq_of_rootsFrom {scan : Nat} {entry : Nat × σ} {rest : List (Nat × σ)}
    (roots : entry :: rest = rootsFrom initial actions.length scan) :
    entry = (scan, initial) ∧ scan < actions.length ∧
      rest = rootsFrom initial actions.length (scan + 1) := by
  rcases Nat.lt_or_ge scan actions.length with inside | outside
  · rw [rootsFrom_of_lt initial inside] at roots
    obtain ⟨rfl, rfl⟩ := List.cons.inj roots
    exact ⟨rfl, inside, rfl⟩
  · rw [rootsFrom_of_le initial outside] at roots
    cases roots

theorem FollowsLast.concat {trees : List (List (Visit σ ε))} {tree : List (Visit σ ε)}
    {entry : Nat × σ} (follows : FollowsLast actions (trees ++ [tree]) entry) (visit : Visit σ ε) :
    FollowsLast actions (trees ++ [tree ++ [visit]]) entry := by
  obtain ⟨_, isLast, parent, member, edge, state⟩ := follows
  rw [List.getLast?_concat] at isLast
  cases isLast
  exact ⟨_, List.getLast?_concat, parent, List.mem_append_left _ member, edge, state⟩

/-- What goes in front of the worklist follows the edges from the visit. -/
theorem followsLast_of_branches (keeps : KeepsFlow examine) (trees : List (List (Visit σ ε)))
    (tree : List (Visit σ ε)) {index : Nat} {state : σ} {action : Action}
    (here : actions[index]? = some action) {entry : Nat × σ}
    (member : entry ∈ Walk.branches (labelIndices actions) index (examine state action)) :
    FollowsLast actions (trees ++ [tree ++ [⟨index, state, examine state action⟩]]) entry := by
  obtain ⟨target, next, rfl⟩ := List.mem_map.mp member
  rw [keeps.successors, mem_successors_iff here] at next
  exact ⟨_, List.getLast?_concat, _, List.mem_concat_self, next, rfl⟩

theorem mem_branches_of_edge (keeps : KeepsFlow examine) {index target : Nat} (state : σ)
    {action : Action} (here : actions[index]? = some action) (edge : Edge actions index target) :
    target ∈ (Walk.branches (labelIndices actions) index (examine state action)).map Prod.fst := by
  rw [Walk.branches, List.map_map, keeps.successors]
  exact List.mem_map.mpr ⟨target, (mem_successors_iff here target).mpr edge, rfl⟩

namespace Walk.Growing

/-- No edge is forgotten: those from a visit are to be followed next. -/
theorem closed_visit (keeps : KeepsFlow examine) {walk : Walk σ ε}
    {trees grown : List (List (Visit σ ε))} {pending : List (Nat × σ)} {scan index : Nat}
    (growing : walk.Growing examine initial actions trees pending scan) (state : σ)
    {action : Action} (here : actions[index]? = some action)
    (indices : indicesOf grown = indicesOf trees ++ [index]) (later : List (Nat × σ))
    (taken : ∀ target ∈ pending.map Prod.fst, target = index ∨ target ∈ later.map Prod.fst) :
    ∀ source ∈ indicesOf grown, ∀ target < actions.length, Edge actions source target →
      target ∈ indicesOf grown ∨
        target ∈ (branches (labelIndices actions) index (examine state action) ++ later).map
          Prod.fst := by
  intro source member target inside edge
  rw [indices] at member ⊢
  rw [List.map_append]
  rcases List.mem_append.mp member with earlier | last
  · rcases growing.closed source earlier target inside edge with seen | ahead
    · exact .inl (List.mem_append_left _ seen)
    · rcases taken target ahead with rfl | after
      · exact .inl List.mem_concat_self
      · exact .inr (List.mem_append_right _ after)
  · obtain rfl := List.mem_singleton.mp last
    exact .inr (List.mem_append_left _ (mem_branches_of_edge keeps state here edge))

/-- Where no edge is left to be followed, all of them have been. -/
theorem closed_of_done {walk : Walk σ ε} {trees : List (List (Visit σ ε))} {scan : Nat}
    (growing : walk.Growing examine initial actions trees [] scan) : Closed actions trees :=
  fun source member target inside edge =>
    (growing.closed source member target inside edge).resolve_right List.not_mem_nil

/-- A visit of an edge that is followed is a child. -/
theorem child (keeps : KeepsFlow examine) {index : Nat} {action : Action} {cells : Array Cell}
    {state : σ} {rest pending : List (Nat × σ)} {visits : List (Visit σ ε)}
    {trees : List (List (Visit σ ε))} {scan : Nat}
    (growing : Growing examine initial actions ⟨(index, state) :: rest, cells, visits⟩ trees
      ((index, state) :: pending) scan)
    (here : actions[index]? = some action) (unseen : index ∉ indicesOf trees) (after : Array Cell) :
    ∃ grown, Growing examine initial actions
      ⟨branches (labelIndices actions) index (examine state action) ++ rest, after,
        visits ++ [⟨index, state, examine state action⟩]⟩ grown
      (branches (labelIndices actions) index (examine state action) ++ pending) scan := by
  obtain ⟨tree, isLast, parent, member, edge, state'⟩ := growing.follows _ List.mem_cons_self
  obtain ⟨before, rfl⟩ := List.getLast?_eq_some_iff.mp isLast
  have indices := indicesOf_child before tree ⟨index, state, examine state action⟩
  refine ⟨before ++ [tree ++ [⟨index, state, examine state action⟩]], ?forest, ?visits, ?work,
    ?follows, ?scanned, ?closed⟩
  case forest => exact .child growing.forest member edge ⟨action, here, rfl⟩ state' unseen
  case visits =>
    have visited : visits = (before ++ [tree]).flatten := growing.visits
    simp [visited]
  case work =>
    have work : rest = pending ++ rootsFrom initial actions.length scan :=
      List.tail_eq_of_cons_eq growing.work
    rw [List.append_assoc, ← work]
  case follows =>
    intro entry member
    rcases List.mem_append.mp member with next | later
    · exact followsLast_of_branches keeps before tree here next
    · exact (growing.follows entry (List.mem_cons_of_mem _ later)).concat _
  case scanned =>
    intro place earlier
    rw [indices]
    exact List.mem_append_left _ (growing.scanned place earlier)
  case closed =>
    exact growing.closed_visit keeps state here indices pending fun target => List.mem_cons.mp

/-- A visit when nothing is left to be followed is a root. -/
theorem root (keeps : KeepsFlow examine) {action : Action} {cells : Array Cell}
    {rest : List (Nat × σ)} {visits : List (Visit σ ε)} {trees : List (List (Visit σ ε))}
    {scan : Nat}
    (growing : Growing examine initial actions ⟨(scan, initial) :: rest, cells, visits⟩ trees [] scan)
    (here : actions[scan]? = some action) (unseen : scan ∉ indicesOf trees)
    (others : rest = rootsFrom initial actions.length (scan + 1)) (after : Array Cell) :
    ∃ grown, Growing examine initial actions
      ⟨branches (labelIndices actions) scan (examine initial action) ++ rest, after,
        visits ++ [⟨scan, initial, examine initial action⟩]⟩ grown
      (branches (labelIndices actions) scan (examine initial action)) (scan + 1) := by
  have indices := indicesOf_root trees ⟨scan, initial, examine initial action⟩
  refine ⟨trees ++ [[⟨scan, initial, examine initial action⟩]], ?forest, ?visits, ?work, ?follows,
    ?scanned, ?closed⟩
  case forest =>
    exact .root growing.forest ⟨action, here, rfl⟩ rfl unseen growing.scanned
      growing.closed_of_done
  case visits =>
    have visited : visits = trees.flatten := growing.visits
    simp [visited]
  case work => rw [others]
  case follows =>
    intro entry member
    exact followsLast_of_branches keeps trees [] here member
  case scanned =>
    intro place earlier
    rw [indices]
    rcases Nat.lt_succ_iff_lt_or_eq.mp earlier with before | rfl
    · exact List.mem_append_left _ (growing.scanned place before)
    · exact List.mem_concat_self
  case closed =>
    have next := growing.closed_visit keeps initial here indices [] fun target ahead =>
      absurd ahead List.not_mem_nil
    rwa [List.append_nil] at next

/-- An entry that is passed over is of no use: its index has been visited, or is not there. -/
theorem pass {index : Nat} {cells : Array Cell} {state : σ} {rest : List (Nat × σ)}
    {visits : List (Visit σ ε)} {trees : List (List (Visit σ ε))} {pending : List (Nat × σ)}
    {scan : Nat}
    (growing : Growing examine initial actions ⟨(index, state) :: rest, cells, visits⟩ trees pending
      scan)
    (seen : index < actions.length → index ∈ indicesOf trees) :
    ∃ pending scan, Growing examine initial actions ⟨rest, cells, visits⟩ trees pending scan := by
  cases pending with
  | cons entry pending =>
    obtain ⟨rfl, work⟩ := List.cons.inj growing.work
    refine ⟨pending, scan, growing.forest, growing.visits, work,
      fun entry member => growing.follows entry (List.mem_cons_of_mem _ member), growing.scanned, ?_⟩
    intro source member target inside edge
    rcases growing.closed source member target inside edge with visited | ahead
    · exact .inl visited
    · rcases List.mem_cons.mp ahead with rfl | later
      · exact .inl (seen inside)
      · exact .inr later
  | nil =>
    obtain ⟨same, inside, work⟩ := eq_of_rootsFrom growing.work
    obtain ⟨rfl, -⟩ := Prod.mk.inj same
    refine ⟨[], index + 1, growing.forest, growing.visits, work, growing.follows, ?_, growing.closed⟩
    intro place earlier
    rcases Nat.lt_succ_iff_lt_or_eq.mp earlier with before | rfl
    · exact growing.scanned place before
    · exact seen inside

/-- What a walk has visited is what has grown. -/
theorem indices_eq {walk : Walk σ ε} {trees : List (List (Visit σ ε))} {pending : List (Nat × σ)}
    {scan : Nat} (growing : walk.Growing examine initial actions trees pending scan) :
    walk.indices = indicesOf trees := by
  rw [Walk.indices, growing.visits, indicesOf]

/-- **Every step lets the forest grow**, or drops an entry. -/
theorem step (keeps : KeepsFlow examine) {walk next : Walk σ ε} {trees : List (List (Visit σ ε))}
    {pending : List (Nat × σ)} {scan : Nat} (step : Step examine (labelIndices actions) walk next)
    (sound : walk.Sound examine actions)
    (growing : walk.Growing examine initial actions trees pending scan) :
    ∃ trees pending scan, next.Growing examine initial actions trees pending scan := by
  cases step with
  | @visit index action cells fresh state rest visits =>
    obtain ⟨here, unseen⟩ := sound.fresh index action fresh
    rw [growing.indices_eq] at unseen
    -- In front is an edge that is still to be followed or, where none is left, the next root.
    cases pending with
    | cons entry pending =>
      obtain ⟨rfl, -⟩ := List.cons.inj growing.work
      obtain ⟨grown, later⟩ := growing.child keeps here unseen _
      exact ⟨grown, _, _, later⟩
    | nil =>
      obtain ⟨same, -, others⟩ := eq_of_rootsFrom growing.work
      cases same
      obtain ⟨grown, later⟩ := growing.root keeps here unseen others _
      exact ⟨grown, _, _, later⟩
  | @pass index cells used state rest visits =>
    obtain ⟨pending, scan, later⟩ := growing.pass fun inside =>
      growing.indices_eq ▸ sound.mem_indices_of_pass used inside
    exact ⟨trees, pending, scan, later⟩

/-- So do steps. -/
theorem steps (keeps : KeepsFlow examine) {count : Nat} {walk last : Walk σ ε}
    {trees : List (List (Visit σ ε))} {pending : List (Nat × σ)} {scan : Nat}
    (steps : Steps examine (labelIndices actions) count walk last)
    (sound : walk.Sound examine actions)
    (growing : walk.Growing examine initial actions trees pending scan) :
    ∃ trees pending scan, last.Growing examine initial actions trees pending scan := by
  induction steps generalizing trees pending scan with
  | refl => exact ⟨trees, pending, scan, growing⟩
  | head first _ ih =>
    obtain ⟨trees, pending, scan, later⟩ := growing.step keeps first sound
    exact ih (first.sound sound) later

variable (examine initial actions) in
theorem start : (Walk.start initial actions).Growing examine initial actions [] [] 0 where
  forest := .nil
  visits := rfl
  work := by rw [Walk.start, rootsFrom, List.range_eq_range', Nat.sub_zero, List.nil_append]
  follows := fun _ member => absurd member List.not_mem_nil
  scanned := fun _ before => absurd before (Nat.not_lt_zero _)
  closed := fun _ member => absurd member List.not_mem_nil

end Walk.Growing

/-! ### Traversals -/

/-- The walk of a traversal ends with a forest that is closed and spans the sequence. -/
theorem exists_forest (keeps : KeepsFlow examine) (initial : σ) (actions : List Action) :
    ∃ trees, Forest examine initial actions trees ∧
      (traverse examine initial actions).visits = trees.flatten ∧ Closed actions trees ∧
      (indicesOf trees).Perm (List.range actions.length) := by
  obtain ⟨count, last, steps, ended, equal⟩ := Walk.exists_steps_traverse examine initial actions
  have sound := Walk.Sound.start examine actions initial
  obtain ⟨trees, pending, scan, growing⟩ :=
    Walk.Growing.steps keeps steps sound (.start examine initial actions)
  obtain ⟨rfl, -⟩ := List.append_eq_nil_iff.mp (growing.work.symm.trans ended)
  refine ⟨trees, growing.forest, ?_, growing.closed_of_done, ?_⟩
  · rw [← equal]
    exact growing.visits
  · rw [← growing.indices_eq]
    exact (steps.keep Walk.Step.sound sound).perm_range ended

/-- All that control can reach from the first action is in the first tree. -/
theorem Forest.mem_first_of_reachable {first : List (Visit σ ε)} {others : List (List (Visit σ ε))}
    (forest : Forest examine initial actions (first :: others))
    (closed : Closed actions (first :: others)) {index : Nat}
    (reachable : Relation.ReflTransGen (Edge actions) 0 index) (inside : index < actions.length) :
    index ∈ first.map Visit.index := by
  -- The first tree is closed because the second one has begun, or because everything has been visited.
  have firstClosed : Closed actions [first] := by
    cases others with
    | nil => exact closed
    | cons next others =>
      have apart : Forest examine initial actions ([first] ++ next :: others) := forest
      exact apart.closed_of_later (List.cons_ne_nil next others)
  have indices : indicesOf [first] = first.map Visit.index := by simp [indicesOf]
  rw [Closed, indices] at firstClosed
  induction reachable with
  | refl => exact forest.first_reachable.1
  | tail _ edge ih => exact firstClosed _ (ih edge.lt_length) _ inside edge

/-- **The visits of a traversal are a forest over the control flow of the sequence**, and its first tree
is what control can reach from the first action. -/
theorem traverse_forest (keeps : KeepsFlow examine) (initial : σ) (actions : List Action) :
    ∃ trees, Forest examine initial actions trees ∧
      (traverse examine initial actions).visits = trees.flatten ∧
      ∀ index, index ∈ (trees.headD []).map Visit.index ↔
        index < actions.length ∧ Relation.ReflTransGen (Edge actions) 0 index := by
  obtain ⟨trees, forest, visits, closed, spans⟩ := exists_forest keeps initial actions
  refine ⟨trees, forest, visits, fun index => ?_⟩
  cases trees with
  | nil =>
    have empty : actions.length = 0 := by simpa [indicesOf] using spans.length_eq.symm
    simp [empty]
  | cons first others =>
    constructor
    · intro member
      obtain ⟨visit, inside, rfl⟩ := List.mem_map.mp member
      refine ⟨?_, forest.first_reachable.2 visit inside⟩
      have visited : visit.index ∈ indicesOf (first :: others) :=
        List.mem_map_of_mem (List.mem_append_left _ inside)
      exact List.mem_range.mp (spans.mem_iff.mp visited)
    · rintro ⟨inside, reachable⟩
      exact forest.mem_first_of_reachable closed reachable inside

/-- Following the stack alters counts only. -/
theorem keepsFlow_simulate : KeepsFlow simulate :=
  ⟨view_simulate fun _ _ => rfl, view_simulate fun _ _ => rfl⟩

/-- The stack is followed along a fork over dead code. -/
theorem traverse_forest_fork :
    KeepsFlow simulate ∧ ∃ trees, Forest simulate (Slots.unknowns 1)
        [.plain (.push (.boolean true)), .plain (.branch ⟨true, 0, some ⟨1⟩⟩),
          .plain (.basic .returnValue), .plain (.basic .pop), .marker (.label ⟨1⟩)] trees ∧
      (traverse simulate (Slots.unknowns 1)
        [.plain (.push (.boolean true)), .plain (.branch ⟨true, 0, some ⟨1⟩⟩),
          .plain (.basic .returnValue), .plain (.basic .pop), .marker (.label ⟨1⟩)]).visits =
        trees.flatten ∧
      ∀ index, index ∈ (trees.headD []).map Visit.index ↔ index < 5 ∧ Relation.ReflTransGen
        (Edge [.plain (.push (.boolean true)), .plain (.branch ⟨true, 0, some ⟨1⟩⟩),
          .plain (.basic .returnValue), .plain (.basic .pop), .marker (.label ⟨1⟩)]) 0 index :=
  ⟨keepsFlow_simulate, traverse_forest keepsFlow_simulate (Slots.unknowns 1)
    [.plain (.push (.boolean true)), .plain (.branch ⟨true, 0, some ⟨1⟩⟩),
      .plain (.basic .returnValue), .plain (.basic .pop), .marker (.label ⟨1⟩)]⟩

end ActionCode
