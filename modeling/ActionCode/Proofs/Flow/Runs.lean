/-
**A traversal goes through a run of pushes without a stop.**

* `PassesRuns`: an examination that sees in one push of some literals what it sees in a run of their
  single pushes.
* `Grouped`: the cells of merged actions beside those of the single pushes. **`Grouped.split`**: one of
  them, and what it takes to put others in its place.
* `WorkMatches`: the worklist of the single pushes has one entry for each of the other, **and further
  entries only inside of runs that will have been visited when their turn comes**.
* **`traverse_mergeRuns`**: to merge runs before a traversal is to merge them after it.
-/

import ActionCode.Proofs.Flow.Edges
import ActionCode.Proofs.Flow.Roots
import ActionCode.Proofs.Merging.Grouping

namespace ActionCode

variable {σ ε : Type}

/-- An examination that sees in one push of some literals what it sees in a run of their single
pushes, leaves pushes as they are, and makes none. -/
structure PassesRuns (examine : Examine σ ε) : Prop where
  push : ∀ state value, (examine state (.plain (.push value))).action = .plain (.push value)
  list : ∀ state values,
    (examine state (.plain (.pushList values))).action = .plain (.pushList values)
  run : ∀ state values, (examine state (.plain (.pushList values))).state =
    values.foldl (fun state value => (examine state (.plain (.push value))).state) state
  other : ∀ state action, action.isPush = false → (examine state action).action.isPush = false

/-! ### Cells side by side -/

/-- The cells of a run of single pushes. -/
def runCells (values : List PushValue) (visited : Bool) : List Cell :=
  values.map fun value => ⟨.plain (.push value), visited⟩

/-- A cell of merged actions beside the cells that it takes the place of. -/
inductive Segment : Cell → List Cell → Prop
  | other {cell : Cell} (other : cell.action.isPush = false) : Segment cell [cell]
  | run {values : List PushValue} {visited : Bool} (some : values ≠ []) :
      Segment ⟨pushOf values, visited⟩ (runCells values visited)

/-- Which of the cells are single pushes. -/
def pushing (cells : List Cell) : List Bool := cells.map fun cell => cell.action.isPush

/-- The cells begin with a single push. -/
def Pushes (cells : List Cell) : Prop := (pushing cells).head? = some true

/-- The cells of merged actions beside those of the single pushes; the sizes are the lengths of what
each takes the place of. -/
inductive Grouped : List Nat → List Cell → List Cell → Prop
  | nil : Grouped [] [] []
  | other {sizes : List Nat} {cell : Cell} {cells others : List Cell}
      (other : cell.action.isPush = false) (later : Grouped sizes cells others) :
      Grouped (1 :: sizes) (cell :: cells) (cell :: others)
  | run {sizes : List Nat} {values : List PushValue} {visited : Bool} {cells others : List Cell}
      (some : values ≠ []) (stops : ¬ Pushes others) (later : Grouped sizes cells others) :
      Grouped (values.length :: sizes) (⟨pushOf values, visited⟩ :: cells)
        (runCells values visited ++ others)

/-- The index of the first cell that the cell of a number takes the place of. -/
def firstOf (sizes : List Nat) (number : Nat) : Nat := (sizes.take number).sum

theorem firstOf_succ_cons (size : Nat) (sizes : List Nat) (number : Nat) :
    firstOf (size :: sizes) (number + 1) = size + firstOf sizes number := by
  rw [firstOf, List.take_succ_cons, List.sum_cons, firstOf]

theorem length_runCells (values : List PushValue) (visited : Bool) :
    (runCells values visited).length = values.length := List.length_map _

/-- The cell of a number among those of merged actions, and what it takes the place of. -/
structure Grouped.Parts (sizes : List Nat) (cells others : List Cell) (number : Nat)
    (front : List Cell) (cell : Cell) (back front' segment back' : List Cell) : Prop where
  isCells : cells = front ++ cell :: back
  isOthers : others = front' ++ (segment ++ back')
  isNumber : front.length = number
  isFirst : front'.length = firstOf sizes number
  isNext : firstOf sizes (number + 1) = firstOf sizes number + segment.length
  matched : Segment cell segment
  /-- Others may be put in their place, if they are single pushes where those are. -/
  replace : ∀ next nextSegment, Segment next nextSegment → pushing nextSegment = pushing segment →
    Grouped sizes (front ++ next :: back) (front' ++ (nextSegment ++ back'))

theorem pushing_append (front back : List Cell) :
    pushing (front ++ back) = pushing front ++ pushing back := List.map_append

/-- What takes the place of one cell: its single pushes are where they were. -/
theorem Grouped.exchange {sizes : List Nat} {next : Cell} {segment nextSegment : List Cell}
    {cells others : List Cell} (matched : Segment next nextSegment)
    (same : pushing nextSegment = pushing segment)
    (apart : pushing segment = [false] ∨ ¬ Pushes others) (later : Grouped sizes cells others) :
    Grouped (segment.length :: sizes) (next :: cells) (nextSegment ++ others) := by
  have length : nextSegment.length = segment.length := by
    simpa [pushing] using congrArg List.length same
  rw [← length]
  cases matched with
  | other other => exact .other other later
  | @run values visited some =>
    rw [length_runCells]
    refine .run some (apart.resolve_left fun single => ?_) later
    obtain ⟨value, values, rfl⟩ := List.exists_cons_of_ne_nil some
    rw [← same] at single
    cases (List.cons.inj single).1

/-- **The cell of a number, and what it takes the place of.** -/
theorem Grouped.split {sizes : List Nat} {cells others : List Cell}
    (grouped : Grouped sizes cells others) {number : Nat} (inside : number < cells.length) :
    ∃ front cell back front' segment back',
      Parts sizes cells others number front cell back front' segment back' := by
  induction grouped generalizing number with
  | nil => cases inside
  | @other sizes cell cells others other later ih =>
    cases number with
    | zero =>
      refine ⟨[], cell, cells, [], [cell], others, rfl, rfl, rfl, rfl, ?_, .other other,
        fun next nextSegment matched same => ?_⟩
      · rw [firstOf_succ_cons]
        rfl
      · have single : pushing [cell] = [false] := by
          rw [pushing, List.map_singleton, other]
        exact (Grouped.exchange matched same (.inl single) later :
          Grouped _ (next :: cells) (nextSegment ++ others))
    | succ number =>
      obtain ⟨front, own, back, front', segment, back', rfl, rfl, isNumber, isFirst, isNext, matched,
        replace⟩ := ih (Nat.lt_of_succ_lt_succ inside)
      refine ⟨cell :: front, own, back, cell :: front', segment, back', rfl, rfl,
        congrArg (· + 1) isNumber, ?_, ?_, matched, fun next nextSegment matched same =>
          .other other (replace next nextSegment matched same)⟩
      · rw [firstOf_succ_cons, List.length_cons, isFirst, Nat.add_comm]
      · rw [firstOf_succ_cons, firstOf_succ_cons, isNext, Nat.add_assoc]
  | @run sizes values visited cells others some stops later ih =>
    cases number with
    | zero =>
      refine ⟨[], _, cells, [], runCells values visited, others, rfl, rfl, rfl, rfl, ?_, .run some,
        fun next nextSegment matched same => ?_⟩
      · rw [firstOf_succ_cons, length_runCells, Nat.add_comm]
        rfl
      · rw [← length_runCells values visited]
        exact (Grouped.exchange matched same (.inr stops) later :
          Grouped _ (next :: cells) (nextSegment ++ others))
    | succ number =>
      obtain ⟨front, own, back, front', segment, back', rfl, rfl, isNumber, isFirst, isNext, matched,
        replace⟩ := ih (Nat.lt_of_succ_lt_succ inside)
      refine ⟨_ :: front, own, back, runCells values visited ++ front', segment, back', rfl,
        (List.append_assoc _ _ _).symm, congrArg (· + 1) isNumber, ?_, ?_, matched,
        fun next nextSegment matched same => ?_⟩
      · rw [firstOf_succ_cons, List.length_append, length_runCells, isFirst]
      · rw [firstOf_succ_cons, firstOf_succ_cons, isNext, Nat.add_assoc]
      · rw [List.append_assoc]
        refine .run some (fun pushes => stops ?_) (replace next nextSegment matched same)
        have shape : pushing (front' ++ (nextSegment ++ back')) =
            pushing (front' ++ (segment ++ back')) := by
          rw [pushing_append, pushing_append, same, pushing_append, pushing_append]
        rwa [Pushes, ← shape]

/-- Merging the runs of the cells gives the cells of merged actions. -/
theorem Grouped.mergeRuns_eq {sizes : List Nat} {cells others : List Cell}
    (grouped : Grouped sizes cells others) :
    mergeRuns (others.map Cell.action) = cells.map Cell.action := by
  induction grouped with
  | nil => rfl
  | other other _ ih => rw [List.map_cons, mergeRuns_cons other, ih, List.map_cons]
  | @run sizes values visited cells others some stops _ ih =>
    have single : (runCells values visited).map Cell.action =
        values.map fun value => .plain (.push value) := List.map_map
    have whole : Stops (others.map Cell.action) := by
      intro action isFirst
      rcases others with _ | ⟨cell, others⟩
      · cases isFirst
      · cases isFirst
        exact Bool.eq_false_iff.mpr fun isPush => stops (congrArg Option.some isPush)
    rw [List.map_append, single, mergeRuns_run some whole, ih, List.map_cons]

/-! ### Exploring -/

variable {examine : Examine σ ε} {labels : Std.TreeMap Nat Nat}

/-- An entry of the worklist is visited if that has not been done. -/
theorem explore_fresh {front back : List Cell} {action : Action} {index : Nat}
    (here : front.length = index) (state : σ) (work : List (Nat × σ)) (visits : Array (Visit σ ε)) :
    explore examine labels ((index, state) :: work) (front ++ ⟨action, false⟩ :: back).toArray visits =
      explore examine labels
        ((successors labels index (examine state action).action).map
          (fun target => (target, (examine state action).state)) ++ work)
        (front ++ ⟨(examine state action).action, true⟩ :: back).toArray
        (visits.push ⟨index, state, examine state action⟩) := by
  subst here
  have inside : front.length < (front ++ (⟨action, false⟩ : Cell) :: back).toArray.size := by
    rw [List.size_toArray, List.length_append, List.length_cons]
    omega
  have cell : (front ++ (⟨action, false⟩ : Cell) :: back).toArray[front.length] = ⟨action, false⟩ := by
    rw [List.getElem_toArray, List.getElem_append_right (Nat.le_refl _)]
    simp
  rw [explore, dif_pos inside, dif_pos (by rw [cell])]
  dsimp only
  rw [cell, List.set_toArray, List.set_append_right _ _ (Nat.le_refl _), Nat.sub_self]
  rfl

/-- **A run is visited push by push**, and nothing else before its end. -/
theorem explore_run (passes : PassesRuns examine) (values : List PushValue) (front back : List Cell)
    (state : σ) (work : List (Nat × σ)) (visits : Array (Visit σ ε)) :
    ∃ later, explore examine labels ((front.length, state) :: work)
        (front ++ (runCells values false ++ back)).toArray visits =
      explore examine labels ((front.length + values.length,
          values.foldl (fun state value => (examine state (.plain (.push value))).state) state) :: work)
        (front ++ (runCells values true ++ back)).toArray later := by
  induction values generalizing front state visits with
  | nil => exact ⟨visits, rfl⟩
  | cons value values ih =>
    have visited : explore examine labels ((front.length, state) :: work)
          (front ++ ⟨.plain (.push value), false⟩ :: (runCells values false ++ back)).toArray visits =
        explore examine labels
          ((front.length + 1, (examine state (.plain (.push value))).state) :: work)
          (front ++ ⟨.plain (.push value), true⟩ :: (runCells values false ++ back)).toArray
          (visits.push ⟨front.length, state, examine state (.plain (.push value))⟩) := by
      rw [explore_fresh rfl, passes.push]
      rfl
    obtain ⟨later, equal⟩ := ih (front ++ [⟨.plain (.push value), true⟩])
      (examine state (.plain (.push value))).state
      (visits.push ⟨front.length, state, examine state (.plain (.push value))⟩)
    rw [List.length_append, List.length_singleton, ← List.append_cons, ← List.append_cons] at equal
    refine ⟨later, visited.trans (equal.trans ?_)⟩
    rw [List.length_cons, Nat.add_assoc, Nat.add_comm 1]
    rfl

/-! ### Worklists side by side -/

/-- The worklist of the single pushes beside that of merged actions. Its further entries are inside of
runs whose first push has been seen, or is earlier in it. -/
inductive WorkMatches (sizes : List Nat) :
    (Nat → Prop) → List (Nat × σ) → List (Nat × σ) → Prop
  | nil (seen : Nat → Prop) : WorkMatches sizes seen [] []
  | entry {seen : Nat → Prop} {number : Nat} {state : σ} {work others : List (Nat × σ)}
      (later : WorkMatches sizes (fun other => other = number ∨ seen other) work others) :
      WorkMatches sizes seen ((number, state) :: work) ((firstOf sizes number, state) :: others)
  | inner {seen : Nat → Prop} {number index : Nat} {state : σ} {work others : List (Nat × σ)}
      (known : seen number) (after : firstOf sizes number < index)
      (before : index < firstOf sizes (number + 1)) (later : WorkMatches sizes seen work others) :
      WorkMatches sizes seen work ((index, state) :: others)

theorem WorkMatches.mono {sizes : List Nat} {seen known : Nat → Prop}
    {work others : List (Nat × σ)} (matched : WorkMatches sizes seen work others)
    (more : ∀ number, seen number → known number) : WorkMatches sizes known work others := by
  induction matched generalizing known with
  | nil seen => exact .nil known
  | entry later ih => exact .entry (ih fun number => Or.imp_right (more number))
  | inner seen after before later ih => exact .inner (more _ seen) after before (ih more)

/-- Control goes to the first pushes of runs. -/
theorem WorkMatches.targets {sizes : List Nat} {seen : Nat → Prop} {work others : List (Nat × σ)}
    (matched : WorkMatches sizes seen work others) (targets : List Nat) (state : σ) :
    WorkMatches sizes seen (targets.map (fun target => (target, state)) ++ work)
      ((targets.map (firstOf sizes)).map (fun target => (target, state)) ++ others) := by
  induction targets generalizing seen with
  | nil => exact matched
  | cons target targets ih => exact .entry (ih (matched.mono fun _ => .inr))

/-- What lies inside of runs has been visited when its turn comes, and is dropped. -/
theorem WorkMatches.settle {sizes : List Nat} {seen : Nat → Prop} {entry : Nat × σ}
    {work others : List (Nat × σ)} (matched : WorkMatches sizes seen (entry :: work) others)
    {cells : List Cell}
    (inside : ∀ number index, seen number → firstOf sizes number < index →
      index < firstOf sizes (number + 1) → Seen cells index) :
    ∃ later, WorkMatches sizes (fun other => other = entry.1 ∨ seen other) work later ∧
      ∀ visits, explore examine labels others cells.toArray visits =
        explore examine labels ((firstOf sizes entry.1, entry.2) :: later) cells.toArray visits := by
  generalize isWork : entry :: work = whole at matched
  induction matched with
  | nil seen => cases isWork
  | entry later _ =>
    cases isWork
    exact ⟨_, later, fun _ => rfl⟩
  | inner known after before _ ih =>
    obtain ⟨later, matched, equal⟩ := ih inside isWork
    exact ⟨later, matched, fun visits =>
      (explore_seen (inside _ _ known after before) visits).trans (equal visits)⟩

theorem WorkMatches.settle_nil {sizes : List Nat} {seen : Nat → Prop} {others : List (Nat × σ)}
    (matched : WorkMatches sizes seen [] others) {cells : List Cell}
    (inside : ∀ number index, seen number → firstOf sizes number < index →
      index < firstOf sizes (number + 1) → Seen cells index) (visits : Array (Visit σ ε)) :
    (explore examine labels others cells.toArray visits).1 = cells.toArray := by
  generalize isWork : [] = whole at matched
  induction matched with
  | nil seen => rw [explore]
  | entry => cases isWork
  | inner known after before _ ih =>
    rw [explore_seen (inside _ _ known after before)]
    exact ih inside isWork

/-! ### Traversals side by side -/

theorem Segment.visited {cell : Cell} {segment : List Cell} (matched : Segment cell segment) :
    ∀ own ∈ segment, own.visited = cell.visited := by
  cases matched with
  | other => exact List.forall_mem_singleton.mpr rfl
  | run =>
    intro own inside
    obtain ⟨value, _, rfl⟩ := List.mem_map.mp inside
    rfl

theorem Grouped.lengths {sizes : List Nat} {cells others : List Cell}
    (grouped : Grouped sizes cells others) :
    sizes.length = cells.length ∧ sizes.sum = others.length := by
  induction grouped with
  | nil => exact ⟨rfl, rfl⟩
  | other _ _ ih =>
    rw [List.length_cons, List.length_cons, List.length_cons, List.sum_cons, ih.1, ih.2]
    exact ⟨rfl, Nat.add_comm _ _⟩
  | run _ _ _ ih =>
    rw [List.length_cons, List.length_cons, List.length_append, length_runCells, List.sum_cons, ih.1,
      ih.2]
    exact ⟨rfl, rfl⟩

theorem Grouped.positive {sizes : List Nat} {cells others : List Cell}
    (grouped : Grouped sizes cells others) : ∀ size ∈ sizes, 0 < size := by
  induction grouped with
  | nil => exact fun _ inside => absurd inside List.not_mem_nil
  | other _ _ ih => exact List.forall_mem_cons.mpr ⟨Nat.one_pos, ih⟩
  | run some _ _ ih => exact List.forall_mem_cons.mpr ⟨List.length_pos_iff.mpr some, ih⟩

theorem Segment.length_pos {cell : Cell} {segment : List Cell} (matched : Segment cell segment) :
    0 < segment.length := by
  cases matched with
  | other => exact Nat.one_pos
  | run some =>
    rw [length_runCells]
    exact List.length_pos_iff.mpr some

/-- What a cell takes the place of has been visited if the cell has. -/
theorem Grouped.seen {sizes : List Nat} {cells others : List Cell}
    (grouped : Grouped sizes cells others) {number index : Nat} (seen : Seen cells number)
    (after : firstOf sizes number ≤ index)
    (before : index < firstOf sizes (number + 1) ∨ index = firstOf sizes number) :
    Seen others index := by
  obtain ⟨count, total⟩ := grouped.lengths
  by_cases inside : number < cells.length
  · obtain ⟨front, cell, back, front', segment, back', parts⟩ := grouped.split inside
    have visited : cell.visited = true := by
      refine seen cell ?_
      rw [parts.isCells, ← parts.isNumber, List.getElem?_append_right (Nat.le_refl _), Nat.sub_self]
      rfl
    have before' : index - front'.length < segment.length := by
      have := parts.matched.length_pos
      have := parts.isNext
      rw [parts.isFirst]
      omega
    intro own isOwn
    rw [parts.isOthers, List.getElem?_append_right (parts.isFirst ▸ after),
      List.getElem?_append_left before'] at isOwn
    rw [parts.matched.visited own (List.mem_of_getElem? isOwn), visited]
  · have whole : firstOf sizes number = others.length := by
      rw [firstOf, List.take_of_length_le (count ▸ Nat.le_of_not_lt inside), total]
    intro own isOwn
    rw [List.getElem?_eq_none (whole ▸ after)] at isOwn
    cases isOwn

/-- What is inside of the place of a cell has been visited if the cell has. -/
theorem Grouped.seen_inside {sizes : List Nat} {cells others : List Cell}
    (grouped : Grouped sizes cells others) :
    ∀ number index, Seen cells number → firstOf sizes number < index →
      index < firstOf sizes (number + 1) → Seen others index :=
  fun _ _ seen after before => grouped.seen seen (Nat.le_of_lt after) (.inl before)

theorem Seen.set {front back : List Cell} {cell next : Cell} (visited : next.visited = true)
    {number : Nat} (seen : number = front.length ∨ Seen (front ++ cell :: back) number) :
    Seen (front ++ next :: back) number := by
  intro own isOwn
  rcases Nat.lt_trichotomy number front.length with early | here | late
  · rcases seen with here | seen
    · omega
    · rw [List.getElem?_append_left early] at isOwn
      exact seen own (by rw [List.getElem?_append_left early, isOwn])
  · rw [here, List.getElem?_append_right (Nat.le_refl _), Nat.sub_self] at isOwn
    cases isOwn
    exact visited
  · rcases seen with here | seen
    · omega
    · obtain ⟨distance, rfl⟩ := Nat.exists_eq_add_of_lt late
      have place : front.length + distance + 1 - front.length = distance + 1 := by omega
      rw [List.getElem?_append_right (by omega), place] at isOwn
      exact seen own (by rw [List.getElem?_append_right (by omega), place]; exact isOwn)

/-- Control goes from what a cell takes the place of to what other cells do. -/
theorem successors_firstOf {sizes : List Nat} {labels' : Std.TreeMap Nat Nat}
    (places : ∀ id : Nat, labels'[id]? = labels[id]?.map (firstOf sizes)) {number : Nat}
    (next : firstOf sizes (number + 1) = firstOf sizes number + 1) (action : Action) :
    successors labels' (firstOf sizes number) action =
      (successors labels number action).map (firstOf sizes) := by
  have taken : ((action.branch?.bind Branch.label).bind fun label => labels'[label.id]?).toList =
      ((action.branch?.bind Branch.label).bind fun label => labels[label.id]?).toList.map
        (firstOf sizes) := by
    cases action.branch?.bind Branch.label with
    | none => rfl
    | some label =>
      rw [Option.bind_some, Option.bind_some, places]
      cases labels[label.id]? <;> rfl
  rw [successors_eq, successors_eq, taken, List.map_append]
  refine congrArg (· ++ _) ?_
  cases action.fallsThrough with
  | false => rfl
  | true => exact congrArg (fun index => [index]) next.symm

theorem PassesRuns.pushOf (passes : PassesRuns examine) {values : List PushValue}
    (some : values ≠ []) (state : σ) :
    (examine state (pushOf values)).action = pushOf values ∧
      (examine state (pushOf values)).state =
        values.foldl (fun state value => (examine state (.plain (.push value))).state) state := by
  rcases values with _ | ⟨value, _ | ⟨next, values⟩⟩
  · exact absurd rfl some
  · exact ⟨passes.push state value, rfl⟩
  · exact ⟨passes.list state _, passes.run state _⟩

theorem successors_pushOf {values : List PushValue} (some : values ≠ [])
    (labels : Std.TreeMap Nat Nat) (index : Nat) :
    successors labels index (pushOf values) = [index + 1] := by
  rcases values with _ | ⟨value, _ | ⟨next, values⟩⟩
  · exact absurd rfl some
  · rfl
  · rfl

/-- **To visit a cell is to visit all that it takes the place of.** -/
theorem Grouped.visit (passes : PassesRuns examine) {sizes : List Nat}
    {labels' : Std.TreeMap Nat Nat}
    (places : ∀ id : Nat, labels'[id]? = labels[id]?.map (firstOf sizes))
    {front back others : List Cell} {action : Action}
    (grouped : Grouped sizes (front ++ ⟨action, false⟩ :: back) others) (state : σ) :
    ∃ later, Grouped sizes (front ++ ⟨(examine state action).action, true⟩ :: back) later ∧
      ∀ work visits, ∃ visits',
        explore examine labels' ((firstOf sizes front.length, state) :: work) others.toArray visits =
          explore examine labels'
            (((successors labels front.length (examine state action).action).map (firstOf sizes)).map
              (fun target => (target, (examine state action).state)) ++ work) later.toArray visits' := by
  have inside : front.length < (front ++ (⟨action, false⟩ : Cell) :: back).length := by
    rw [List.length_append, List.length_cons]
    omega
  obtain ⟨front', cell, back', before, segment, after, parts⟩ := grouped.split inside
  obtain ⟨rfl, same⟩ := List.append_inj parts.isCells parts.isNumber.symm
  obtain ⟨rfl, rfl⟩ := List.cons.inj same
  obtain rfl := parts.isOthers
  generalize isCell : (⟨action, false⟩ : Cell) = cell at parts
  cases parts.matched with
  | other other =>
    subst isCell
    have single := passes.other state action other
    refine ⟨_, parts.replace _ _ (.other single) ?_, fun work visits =>
      ⟨visits.push ⟨firstOf sizes front.length, state, examine state action⟩, ?_⟩⟩
    · exact congrArg (fun push => [push]) (single.trans other.symm)
    · rw [← successors_firstOf places parts.isNext]
      exact explore_fresh parts.isFirst state work visits
  | @run values visited some =>
    obtain ⟨rfl, rfl⟩ := Cell.mk.inj isCell
    obtain ⟨isPush, isState⟩ := passes.pushOf some state
    have next : firstOf sizes (front.length + 1) = before.length + values.length := by
      rw [parts.isNext, parts.isFirst, length_runCells]
    refine ⟨before ++ (runCells values true ++ after), ?_, fun work visits => ?_⟩
    · rw [isPush]
      refine parts.replace _ _ (.run some) ?_
      rw [pushing, runCells, pushing, runCells, List.map_map, List.map_map]
      rfl
    · obtain ⟨later, equal⟩ := explore_run passes values before after state work visits
      refine ⟨later, ?_⟩
      rw [isPush, isState, successors_pushOf some, ← parts.isFirst]
      refine equal.trans ?_
      rw [List.map_singleton, next]
      rfl

/-- What is before and after a cell. -/
theorem exists_around {cells : Array Cell} {index : Nat} (inside : index < cells.size) :
    ∃ front back, front.length = index ∧ cells.toList = front ++ cells[index] :: back ∧
      ∀ next, (cells.set index next inside).toList = front ++ next :: back := by
  refine ⟨cells.toList.take index, cells.toList.drop (index + 1),
    List.length_take_of_le (Nat.le_of_lt inside), ?_, fun next => ?_⟩
  · have here : cells.toList[index] :: cells.toList.drop (index + 1) = cells.toList.drop index :=
      (List.drop_eq_getElem_cons inside).symm
    rw [Array.getElem_toList] at here
    rw [here, List.take_append_drop]
  · rw [Array.toList_set, List.set_eq_take_append_cons_drop, Array.length_toList, if_pos inside]

/-- An entry that has been visited is dropped on both sides. -/
theorem Grouped.drop {sizes : List Nat} {cells others : List Cell}
    (grouped : Grouped sizes cells others) {index : Nat} {state : σ} {rest work : List (Nat × σ)}
    (matched : WorkMatches sizes (Seen cells) ((index, state) :: rest) work)
    (seen : Seen cells index) :
    ∃ later, WorkMatches sizes (Seen cells) rest later ∧
      ∀ visits, ActionCode.explore examine labels work others.toArray visits =
        ActionCode.explore examine labels later others.toArray visits := by
  obtain ⟨later, restMatched, equal⟩ := matched.settle grouped.seen_inside
  refine ⟨later, restMatched.mono fun number => ?_, fun visits => ?_⟩
  · rintro (rfl | known)
    · exact seen
    · exact known
  · rw [equal, explore_seen (grouped.seen seen (Nat.le_refl _) (.inr rfl))]

/-- **Exploring merged actions and their single pushes leaves cells side by side.** -/
theorem Grouped.explore (passes : PassesRuns examine) {sizes : List Nat}
    {labels' : Std.TreeMap Nat Nat}
    (places : ∀ id : Nat, labels'[id]? = labels[id]?.map (firstOf sizes))
    (work : List (Nat × σ)) (cells : Array Cell) (visits : Array (Visit σ ε))
    {work' : List (Nat × σ)} {others : List Cell} {visits' : Array (Visit σ ε)}
    (grouped : Grouped sizes cells.toList others)
    (matched : WorkMatches sizes (Seen cells.toList) work work') :
    Grouped sizes (ActionCode.explore examine labels work cells visits).1.toList
      (ActionCode.explore examine labels' work' others.toArray visits').1.toList := by
  fun_induction ActionCode.explore examine labels work cells visits
    generalizing work' others visits' with
  | case1 cells visits =>
    rw [matched.settle_nil grouped.seen_inside]
    exact grouped
  | case2 cells visits index state rest inside fresh observed =>
    rename_i next ih
    obtain ⟨later, restMatched, equal⟩ := matched.settle grouped.seen_inside
    obtain ⟨front, back, here, isCells, isSet⟩ := exists_around inside
    have isCell : cells[index] = ⟨cells[index].action, false⟩ := congrArg (Cell.mk _) fresh
    rw [isCell] at isCells
    have grouped' := grouped
    rw [isCells] at grouped' restMatched
    obtain ⟨others', later', step⟩ := grouped'.visit passes places state
    obtain ⟨visits'', stepped⟩ := step later visits'
    rw [here] at stepped
    rw [equal, stepped]
    refine ih ?_ ?_
    · rw [isSet]
      exact later'
    · refine (restMatched.mono fun number known => ?_).targets _ observed.state
      rw [isSet]
      exact Seen.set rfl (known.imp_left fun same => same.trans here.symm)
  | case3 cells visits index state rest inside visited ih =>
    have seen : Seen cells.toList index := by
      intro cell isCell
      rw [Array.getElem?_toList, Array.getElem?_eq_getElem inside] at isCell
      cases isCell
      exact Bool.of_not_eq_false visited
    obtain ⟨later, restMatched, equal⟩ := grouped.drop matched seen
    rw [equal]
    exact ih grouped restMatched
  | case4 cells visits index state rest outside ih =>
    have seen : Seen cells.toList index := by
      intro cell isCell
      rw [Array.getElem?_toList, Array.getElem?_eq_none (Nat.le_of_not_lt outside)] at isCell
      cases isCell
    obtain ⟨later, restMatched, equal⟩ := grouped.drop matched seen
    rw [equal]
    exact ih grouped restMatched

/-! ### Labels and roots -/

/-- The lengths of what each action of a merged sequence takes the place of. -/
def sizesOf (actions : List Action) : List Nat := (groups actions).map List.length

theorem sizesOf_other {action : Action} (other : action.isPush = false) (rest : List Action) :
    sizesOf (action :: rest) = 1 :: sizesOf rest := by
  rw [sizesOf, groups_other other]
  rfl

theorem sizesOf_run {values : List PushValue} (some : values ≠ []) {rest : List Action}
    (stops : Stops rest) :
    sizesOf (values.map (fun value => .plain (.push value)) ++ rest) =
      values.length :: sizesOf rest := by
  rw [sizesOf, groups_run some stops, List.map_cons, List.length_map, sizesOf]

/-- Cells that have not been visited. -/
def freshCells (actions : List Action) : List Cell := actions.map fun action => ⟨action, false⟩

/-- **The cells of merged actions begin side by side** with those of the single pushes. -/
theorem grouped_freshCells (actions : List Action) :
    Grouped (sizesOf actions) (freshCells (mergeRuns actions)) (freshCells actions) := by
  induction actions using induction_on_runs with
  | nil =>
    rw [sizesOf, groups_nil]
    exact .nil
  | other action rest other ih =>
    rw [sizesOf_other other, mergeRuns_cons other]
    exact .other other ih
  | run values rest some stops ih =>
    have apart : ¬ Pushes (freshCells rest) := by
      rcases rest with _ | ⟨action, rest⟩
      · exact fun pushes => by cases pushes
      · intro pushes
        exact Bool.false_ne_true ((stops action rfl).symm.trans (Option.some.inj pushes))
    rw [sizesOf_run some stops, mergeRuns_run some stops, freshCells, freshCells, List.map_append,
      List.map_map]
    exact .run some apart ih

theorem WorkMatches.inside {sizes : List Nat} {seen : Nat → Prop} {number : Nat}
    (known : seen number) {indices : List Nat}
    (within : ∀ index ∈ indices, firstOf sizes number < index ∧ index < firstOf sizes (number + 1))
    (state : σ) {work others : List (Nat × σ)} (matched : WorkMatches sizes seen work others) :
    WorkMatches sizes seen work (indices.map (fun index => (index, state)) ++ others) := by
  induction indices with
  | nil => exact matched
  | cons index indices ih =>
    obtain ⟨⟨after, before⟩, within⟩ := List.forall_mem_cons.mp within
    exact .inner known after before (ih within)

/-- The worklists begin side by side: behind the first push of a run come the others. -/
theorem workMatches_roots {sizes : List Nat} (positive : ∀ size ∈ sizes, 0 < size) (seen : Nat → Prop)
    (initial : σ) :
    WorkMatches sizes seen ((List.range sizes.length).map fun index => (index, initial))
      ((List.range sizes.sum).map fun index => (index, initial)) := by
  suffices general : ∀ (back front : List Nat), front ++ back = sizes → ∀ seen : Nat → Prop,
      WorkMatches sizes seen
        ((List.range' front.length back.length).map fun index => (index, initial))
        ((List.range' front.sum back.sum).map fun index => (index, initial)) by
    rw [List.range_eq_range', List.range_eq_range']
    exact general sizes [] rfl seen
  intro back
  induction back with
  | nil => exact fun _ _ seen => .nil seen
  | cons size back ih =>
    intro front whole seen
    have here : firstOf sizes front.length = front.sum := by
      rw [firstOf, ← whole, List.take_left]
    have next : firstOf sizes (front.length + 1) = front.sum + size := by
      rw [firstOf, ← whole, List.append_cons, List.take_left' (by simp), List.sum_append,
        List.sum_singleton]
    obtain ⟨size, rfl⟩ : ∃ before, size = before + 1 :=
      Nat.exists_eq_add_of_lt (positive size (whole ▸ by simp)) |>.imp fun _ same => by omega
    have later := ih (front ++ [size + 1]) (by rw [← whole, ← List.append_cons])
      (fun other => other = front.length ∨ seen other)
    rw [List.length_append, List.length_singleton, List.sum_append, List.sum_singleton] at later
    rw [List.length_cons, List.range'_succ, List.map_cons, List.sum_cons, ← List.range'_append_1,
      List.range'_succ, List.map_append, List.map_cons, ← here]
    refine .entry (WorkMatches.inside (.inl rfl) (fun index inside => ?_) initial (here ▸ later))
    obtain ⟨after, before⟩ := List.mem_range'_1.mp inside
    exact ⟨after, by omega⟩

theorem foldl_enterLabel_unlabelled {actions : List Action}
    (none : ∀ action ∈ actions, action.label? = none) (labels : Std.TreeMap Nat Nat) (index : Nat) :
    actions.foldl enterLabel (labels, index) = (labels, index + actions.length) := by
  induction actions generalizing index with
  | nil => rfl
  | cons action rest ih =>
    obtain ⟨here, later⟩ := List.forall_mem_cons.mp none
    rw [List.foldl_cons, enterLabel, here, ih later, List.length_cons, Nat.add_assoc,
      Nat.add_comm 1]

/-- Labels are entered for what takes the place of their actions. -/
theorem foldl_enterLabel_mergeRuns (actions : List Action) (place : Nat → Nat) (number : Nat)
    (labels labels' : Std.TreeMap Nat Nat) (places : ∀ id : Nat, labels'[id]? = labels[id]?.map place)
    (spots : ∀ further, place (number + further) = place number + firstOf (sizesOf actions) further)
    (id : Nat) :
    (actions.foldl enterLabel (labels', place number)).1[id]? =
      ((mergeRuns actions).foldl enterLabel (labels, number)).1[id]?.map place := by
  induction actions using induction_on_runs generalizing number labels labels' with
  | nil => exact places id
  | other action rest other ih =>
    rw [sizesOf_other other] at spots
    have next : place (number + 1) = place number + 1 := spots 1
    have later : ∀ further, place (number + 1 + further) =
        place (number + 1) + firstOf (sizesOf rest) further := by
      intro further
      rw [Nat.add_assoc, Nat.add_comm 1, spots, firstOf_succ_cons, next, Nat.add_assoc]
    rw [mergeRuns_cons other, List.foldl_cons, List.foldl_cons, enterLabel, enterLabel]
    cases action.label? with
    | none =>
      dsimp only
      rw [← next]
      exact ih (number + 1) labels labels' places later
    | some label =>
      dsimp only
      rw [← next]
      refine ih (number + 1) _ _ (fun id => ?_) later
      rw [Std.TreeMap.getElem?_insert, Std.TreeMap.getElem?_insert, places]
      split <;> rfl
  | run values rest some stops ih =>
    rw [sizesOf_run some stops] at spots
    have next : place (number + 1) = place number + values.length := spots 1
    have silent : ∀ action ∈ values.map (fun value => Action.plain (.push value)),
        action.label? = none := by
      intro action inside
      obtain ⟨value, _, rfl⟩ := List.mem_map.mp inside
      rfl
    have unlabelled : (pushOf values).label? = none :=
      (Action.unseen_of_pushed (by rwa [pushed_pushOf])).1
    rw [mergeRuns_run some stops, List.foldl_append, foldl_enterLabel_unlabelled silent,
      List.length_map, List.foldl_cons, enterLabel, unlabelled, ← next]
    refine ih (number + 1) labels labels' places fun further => ?_
    rw [Nat.add_assoc, Nat.add_comm 1, spots, firstOf_succ_cons, next, Nat.add_assoc]

/-- **Labels are where those of merged actions have their place.** -/
theorem labelIndices_mergeRuns (actions : List Action) (id : Nat) :
    (labelIndices actions)[id]? =
      (labelIndices (mergeRuns actions))[id]?.map (firstOf (sizesOf actions)) := by
  refine foldl_enterLabel_mergeRuns actions (firstOf (sizesOf actions)) 0 ∅ ∅ (fun id => ?_)
    (fun further => ?_) id
  · rw [Std.TreeMap.getElem?_emptyc]
    rfl
  · rw [Nat.zero_add]
    exact (Nat.zero_add _).symm

/-! ### Traversals -/

/-- **To merge runs before a traversal is to merge them after it**, for an examination that does not
see how they are grouped. -/
theorem traverse_mergeRuns (passes : PassesRuns examine) (initial : σ) (actions : List Action) :
    (traverse examine initial (mergeRuns actions)).actions =
      mergeRuns (traverse examine initial actions).actions := by
  have grouped := grouped_freshCells actions
  obtain ⟨count, total⟩ := grouped.lengths
  have roots := workMatches_roots grouped.positive (Seen (freshCells (mergeRuns actions))) initial
  rw [count, total, freshCells, freshCells, List.length_map, List.length_map] at roots
  rw [traverse_eq_explore, traverse_eq_explore]
  exact (Grouped.explore passes (labelIndices_mergeRuns actions) _ _ #[] grouped
    roots).mergeRuns_eq.symm

end ActionCode
