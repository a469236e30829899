/-
**The roots of a traversal.**

A traversal scans for the least index that has not been visited. **A worklist that held every index
from the start would do as well**, since what has been visited by its turn is passed over.

* `explore_append`: a worklist is explored part by part.
* `Seen`: there is nothing to visit at an index. **That lasts** (`Seen.explore`), and it is so behind
  an entry that was explored (`seen_explore_cons`).
* **`rescan_eq_explore`**, **`traverse_eq_explore`**: to scan is to explore all the indices that are
  left.
-/

import ActionCode.Flow.Traversal

namespace ActionCode

variable {σ ε : Type} {examine : Examine σ ε} {labels : Std.TreeMap Nat Nat}

/-! ### Worklists in parts -/

/-- **What is behind in a worklist is explored once all is done that is in front.** -/
theorem explore_append (front back : List (Nat × σ)) (cells : Array Cell)
    (visits : Array (Visit σ ε)) :
    explore examine labels (front ++ back) cells visits =
      explore examine labels back (explore examine labels front cells visits).1
        (explore examine labels front cells visits).2 := by
  fun_induction explore examine labels front cells visits with
  | case1 => rfl
  | case2 cells visits index state rest inside fresh observed next ih =>
    rw [← ih, List.cons_append, explore, dif_pos inside, dif_pos fresh, List.append_assoc]
  | case3 cells visits index state rest inside visited ih =>
    rw [← ih, List.cons_append, explore, dif_pos inside, dif_neg visited]
  | case4 cells visits index state rest outside ih =>
    rw [← ih, List.cons_append, explore, dif_neg outside]

/-! ### What has been visited -/

/-- There is nothing to visit at an index. -/
def Seen (cells : List Cell) (index : Nat) : Prop :=
  ∀ cell, cells[index]? = some cell → cell.visited = true

/-- An entry of the worklist is dropped if there is nothing to visit. -/
theorem explore_seen {index : Nat} {state : σ} {work : List (Nat × σ)} {cells : Array Cell}
    (seen : Seen cells.toList index) (visits : Array (Visit σ ε)) :
    explore examine labels ((index, state) :: work) cells visits =
      explore examine labels work cells visits := by
  rw [explore]
  split
  · rename_i inside
    rw [dif_neg]
    rw [seen cells[index] (List.getElem?_eq_getElem inside)]
    exact Bool.noConfusion
  · rfl

/-- What has been visited stays so. -/
theorem Seen.explore {place : Nat} (work : List (Nat × σ)) {cells : Array Cell}
    (visits : Array (Visit σ ε)) (seen : Seen cells.toList place) :
    Seen (ActionCode.explore examine labels work cells visits).1.toList place := by
  fun_induction ActionCode.explore examine labels work cells visits with
  | case1 => exact seen
  | case2 cells visits index state rest inside fresh observed next ih =>
    refine ih fun cell found => ?_
    rw [Array.getElem?_toList, Array.getElem?_set] at found
    split at found
    · cases found
      rfl
    · exact seen cell (Array.getElem?_toList.trans found)
  | case3 _ _ _ _ _ _ _ ih | case4 _ _ _ _ _ _ ih => exact ih seen

/-- Behind an entry that was explored, there is nothing to visit. -/
theorem seen_explore_cons (index : Nat) (state : σ) (work : List (Nat × σ)) (cells : Array Cell)
    (visits : Array (Visit σ ε)) :
    Seen (explore examine labels ((index, state) :: work) cells visits).1.toList index := by
  by_cases seen : Seen cells.toList index
  · exact seen.explore _ visits
  · obtain ⟨cell, found, visited⟩ : ∃ cell, cells.toList[index]? = some cell ∧
        ¬ cell.visited = true := by simpa [Seen] using seen
    obtain ⟨inside, rfl⟩ := Array.getElem?_eq_some_iff.mp (Array.getElem?_toList.symm.trans found)
    rw [explore, dif_pos inside, dif_pos (Bool.eq_false_iff.mpr visited)]
    refine Seen.explore _ _ fun cell found => ?_
    rw [Array.getElem?_toList, Array.getElem?_set_self] at found
    cases found
    rfl

/-- Of two entries for one index, the later one is passed over. -/
theorem explore_twice (index : Nat) (state state' : σ) (work : List (Nat × σ)) (cells : Array Cell)
    (visits : Array (Visit σ ε)) :
    explore examine labels ((index, state) :: (index, state') :: work) cells visits =
      explore examine labels ((index, state) :: work) cells visits := by
  have apart : ∀ later : List (Nat × σ),
      explore examine labels ((index, state) :: later) cells visits =
        explore examine labels later (explore examine labels [(index, state)] cells visits).1
          (explore examine labels [(index, state)] cells visits).2 :=
    fun later => explore_append [(index, state)] later cells visits
  have seen : Seen (explore examine labels [(index, state)] cells visits).1.toList index :=
    seen_explore_cons index state [] cells visits
  rw [apart, apart work, explore_seen seen]

/-! ### Roots -/

/-- The roots that are left among so many indices, from an index on. -/
def rootsFrom (initial : σ) (count scan : Nat) : List (Nat × σ) :=
  (List.range' scan (count - scan)).map fun index => (index, initial)

theorem rootsFrom_of_lt (initial : σ) {count scan : Nat} (inside : scan < count) :
    rootsFrom initial count scan = (scan, initial) :: rootsFrom initial count (scan + 1) := by
  have more : count - scan = count - (scan + 1) + 1 := by omega
  rw [rootsFrom, more, List.range'_succ, List.map_cons, rootsFrom]

theorem rootsFrom_of_le (initial : σ) {count scan : Nat} (outside : count ≤ scan) :
    rootsFrom initial count scan = [] := by
  rw [rootsFrom, Nat.sub_eq_zero_of_le outside]
  rfl

/-- **To scan for what has not been visited is to explore all the roots that are left.** -/
theorem rescan_eq_explore (initial : σ) (scan : Nat) (cells : Array Cell)
    (visits : Array (Visit σ ε)) :
    rescan examine labels initial scan cells visits =
      explore examine labels (rootsFrom initial cells.size scan) cells visits := by
  fun_induction rescan examine labels initial scan cells visits with
  | case1 scan cells visits inside fresh explored ih =>
    rw [ih, size_explore, ← explore_append, List.singleton_append, rootsFrom_of_lt initial inside,
      explore_twice]
  | case2 scan cells visits inside visited ih =>
    rw [ih, rootsFrom_of_lt initial inside, explore_seen]
    intro cell found
    rw [Array.getElem?_toList, Array.getElem?_eq_getElem inside] at found
    cases found
    exact Bool.not_eq_false _ ▸ visited
  | case3 scan cells visits outside =>
    rw [rootsFrom_of_le initial (Nat.le_of_not_lt outside), explore]

/-- **A traversal explores every index from the initial state**, the first one first. -/
theorem traverse_eq_explore (examine : Examine σ ε) (initial : σ) (actions : List Action) :
    traverse examine initial actions =
      let explored := explore examine (labelIndices actions)
        ((List.range actions.length).map fun index => (index, initial))
        (actions.map fun action => Cell.mk action false).toArray #[]
      ⟨explored.1.toList.map Cell.action, explored.2.toList⟩ := by
  have count : (actions.map fun action => Cell.mk action false).toArray.size = actions.length := by
    rw [List.size_toArray, List.length_map]
  have roots : (List.range actions.length).map (fun index => (index, initial)) =
      rootsFrom initial actions.length 0 := by
    rw [rootsFrom, List.range_eq_range', Nat.sub_zero]
  have first : ∀ cells : Array Cell, cells.size = actions.length →
      explore examine (labelIndices actions) ((0, initial) :: rootsFrom initial actions.length 0) cells
          #[] =
        explore examine (labelIndices actions) (rootsFrom initial actions.length 0) cells #[] := by
    intro cells size
    rcases Nat.eq_zero_or_pos actions.length with empty | inside
    · obtain rfl := Array.eq_empty_of_size_eq_zero (size.trans empty)
      exact explore_seen (fun cell found => by cases found) #[]
    · rw [rootsFrom_of_lt initial inside, explore_twice]
  rw [roots, traverse]
  dsimp only
  rw [rescan_eq_explore, size_explore, count, ← explore_append, List.singleton_append, first _ count]

end ActionCode
