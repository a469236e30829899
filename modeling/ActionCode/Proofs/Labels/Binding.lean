/-
**Binding numbers the targets of branches in the order of their first use.**

* `usesOf`: the bytes that branches go to, each once, in the order of first use; `labelOf`: the label
  of a byte.
* `Lands`: a target where an action begins or the sequence ends.
* **`bindRows_of_lands`**: if all branches land, each is bound to the label of its target.
  `lands_of_bindRows`: and they land if they are bound.
* `Laid`: rows that follow one another; **`placeLabels_of_laid`**: labels go before the rows that
  begin at their bytes.
-/

import ActionCode.Disassembly.Labels
import ActionCode.Proofs.Labels.Placing

namespace ActionCode

/-! ### The order of first use -/

/-- One more byte that a branch goes to. -/
def use (uses : List Nat) (target : Nat) : List Nat :=
  if target ∈ uses then uses else uses ++ [target]

/-- The bytes that branches go to, each once, after those that have been gone to. -/
def usesFrom (uses : List Nat) (targets : List Nat) : List Nat := targets.foldl use uses

/-- The label of a byte, if labels are numbered from one on. -/
def labelOf (nextLabel : Nat) (uses : List Nat) (target : Nat) : Option Label :=
  if target ∈ uses then some ⟨nextLabel + uses.idxOf target⟩ else none

theorem mem_use (uses : List Nat) (target : Nat) : target ∈ use uses target := by
  unfold use
  split
  · assumption
  · exact List.mem_append_right _ List.mem_cons_self

theorem labelOf_use {nextLabel target other : Nat} {uses : List Nat} (inside : other ∈ uses) :
    labelOf nextLabel (use uses target) other = labelOf nextLabel uses other := by
  unfold use
  by_cases known : target ∈ uses
  · rw [if_pos known]
  · rw [if_neg known, labelOf, labelOf, if_pos (List.mem_append_left _ inside), if_pos inside,
      List.idxOf_append_of_mem inside]

theorem mem_usesFrom_of_mem {uses targets : List Nat} {other : Nat} (inside : other ∈ uses) :
    other ∈ usesFrom uses targets := by
  induction targets generalizing uses with
  | nil => exact inside
  | cons target targets ih =>
    have stays : other ∈ use uses target := by
      unfold use
      split
      · exact inside
      · exact List.mem_append_left _ inside
    exact ih stays

theorem mem_usesFrom {uses targets : List Nat} {other : Nat} :
    other ∈ usesFrom uses targets ↔ other ∈ uses ∨ other ∈ targets := by
  induction targets generalizing uses with
  | nil => simp [usesFrom]
  | cons target targets ih =>
    change other ∈ usesFrom (use uses target) targets ↔ _
    rw [ih, use]
    by_cases known : target ∈ uses
    · rw [if_pos known, List.mem_cons]
      constructor
      · rintro (inside | inside)
        · exact .inl inside
        · exact .inr (.inr inside)
      · rintro (inside | rfl | inside)
        · exact .inl inside
        · exact .inl known
        · exact .inr inside
    · rw [if_neg known, List.mem_append, List.mem_singleton, List.mem_cons, or_assoc]

/-- Later targets do not change the labels of earlier ones. -/
theorem labelOf_usesFrom {nextLabel other : Nat} {uses : List Nat} (inside : other ∈ uses)
    (targets : List Nat) :
    labelOf nextLabel (usesFrom uses targets) other = labelOf nextLabel uses other := by
  induction targets generalizing uses with
  | nil => rfl
  | cons target targets ih =>
    have inside' : other ∈ usesFrom uses [target] := mem_usesFrom_of_mem inside
    exact (ih inside').trans (labelOf_use inside)

/-- A binding knows the labels of the bytes that have been gone to. -/
structure Binding.Knows (binding : Binding) (first : Nat) (uses : List Nat) : Prop where
  labels : ∀ target, binding.labels[target]? = labelOf first uses target
  next : binding.nextLabel = first + uses.length

theorem Binding.knows_empty (first : Nat) : Binding.Knows ⟨∅, first⟩ first [] where
  labels _ := Std.TreeMap.getElem?_emptyc
  next := rfl

/-- **The label of one more target**, which is a new one if it has not been gone to. -/
theorem Binding.Knows.labelFor {binding : Binding} {first : Nat} {uses : List Nat}
    (knows : binding.Knows first uses) (target : Nat) :
    labelOf first (use uses target) target = some (binding.labelFor target).1 ∧
      (binding.labelFor target).2.Knows first (use uses target) := by
  have found := knows.labels target
  unfold Binding.labelFor
  by_cases known : target ∈ uses
  · have same : use uses target = uses := if_pos known
    have label : labelOf first uses target = some ⟨first + uses.idxOf target⟩ := if_pos known
    rw [label] at found
    rw [found, same]
    exact ⟨label, knows⟩
  · have more : use uses target = uses ++ [target] := if_neg known
    have none : labelOf first uses target = none := if_neg known
    have index : (uses ++ [target]).idxOf target = uses.length := by
      rw [List.idxOf_append_of_notMem known, List.idxOf_cons_self, Nat.add_zero]
    have label : labelOf first (uses ++ [target]) target = some ⟨binding.nextLabel⟩ := by
      rw [labelOf, if_pos (List.mem_append_right _ List.mem_cons_self), index, knows.next]
    rw [none] at found
    rw [found, more]
    refine ⟨label, fun other => ?_, ?_⟩
    · dsimp only
      rw [Std.TreeMap.getElem?_insert]
      by_cases same : target = other
      · subst same
        rw [if_pos (Std.LawfulEqCmp.compare_eq_iff_eq.mpr rfl), label]
      · rw [if_neg fun equal => same (Std.LawfulEqCmp.compare_eq_iff_eq.mp equal), knows.labels]
        by_cases inside : other ∈ uses
        · have stays : labelOf first (use uses target) other = labelOf first uses other :=
            labelOf_use inside
          rw [more] at stays
          exact stays.symm
        · have absent : other ∉ uses ++ [target] := by
            rw [List.mem_append, List.mem_singleton]
            rintro (old | new)
            · exact inside old
            · exact same new.symm
          rw [labelOf, labelOf, if_neg inside, if_neg absent]
    · rw [List.length_append, List.length_singleton, ← Nat.add_assoc, ← knows.next]

/-! ### Binding row by row -/

/-- The byte that a branch at a byte goes to. -/
def Branch.target (branch : Branch) (position : Nat) : Int :=
  (position + Branch.width : Nat) + branch.offset.toInt

/-- The byte that an action at a byte goes to, if it is a branch. -/
def Action.targets (action : Action) (position : Nat) : List Int :=
  match action.branch? with
  | some branch => [branch.target position]
  | none => []

/-- An action at a byte with the label of its target, if it is a branch. -/
def Action.bindTo (labels : Nat → Option Label) (position : Nat) (action : Action) : Action :=
  match action.branch? with
  | some branch =>
    .plain (.branch { branch with label := labels (branch.target position).toNat })
  | none => action

/-- A row bound to the label of its target. -/
def Located.bindTo (region : Region) (labels : Nat → Option Label) (row : Located) : Located :=
  { row with action := row.action.bindTo labels (row.offset - region.base) }

/-- The bytes that rows go to. -/
def targetsOf (region : Region) (rows : List Located) : List Int :=
  rows.flatMap fun row => row.action.targets (row.offset - region.base)

/-- A target is where an action begins, or the end. -/
def Lands (region : Region) (starts : Std.TreeSet Nat) (target : Int) : Prop :=
  ∃ position : Nat, target = position ∧
    (position = region.length ∨ starts.contains position = true)

/-- A branch is bound if its target is where an action begins, or the end. -/
theorem bindBranch_ok_iff {region : Region} {starts : Std.TreeSet Nat}
    (bounded : ∀ position, starts.contains position = true → position ≤ region.length)
    (row : Located) (branch : Branch) (binding : Binding) {result : Located × Binding} :
    bindBranch region starts row branch binding = .ok result ↔
      Lands region starts (branch.target (row.offset - region.base)) ∧
        result = ({ row with action := .plain (.branch { branch with
          label := some (binding.labelFor
            (branch.target (row.offset - region.base)).toNat).1 }) },
          (binding.labelFor (branch.target (row.offset - region.base)).toNat).2) := by
  have same : row.target region branch = branch.target (row.offset - region.base) := rfl
  unfold bindBranch
  dsimp only
  rw [same]
  generalize branch.target (row.offset - region.base) = target
  by_cases outside : target < 0 ∨ (region.length : Int) < target
  · rw [if_pos outside]
    constructor
    · intro success
      cases success
    · rintro ⟨⟨position, rfl, ends | inside⟩, _⟩
      · omega
      · have le := bounded position inside
        omega
  · rw [if_neg outside]
    have natural : target = target.toNat := by omega
    by_cases lands : target.toNat = region.length ∨ starts.contains target.toNat = true
    · rw [if_pos lands]
      constructor
      · intro success
        cases success
        exact ⟨⟨_, natural, lands⟩, rfl⟩
      · rintro ⟨_, rfl⟩
        rfl
    · rw [if_neg lands]
      constructor
      · intro success
        cases success
      · rintro ⟨⟨position, equal, lands'⟩, _⟩
        rw [equal, Int.toNat_natCast] at lands
        exact absurd lands' lands

theorem run_mapM_cons {region : Region} {starts : Std.TreeSet Nat} (row : Located)
    (rest : List Located) (binding : Binding) :
    ((row :: rest).mapM (bindRow region starts)).run binding =
      bindRow region starts row binding >>= fun first =>
        ((rest.mapM (bindRow region starts)).run first.2) >>= fun later =>
          pure (first.1 :: later.1, later.2) := by
  rw [List.mapM_cons, StateT.run_bind]
  rfl

/-- **If all branches land, each is bound to the label of its target.** -/
theorem bindRows_of_lands {region : Region} {starts : Std.TreeSet Nat}
    (bounded : ∀ position, starts.contains position = true → position ≤ region.length) {first : Nat}
    {rows : List Located} {uses : List Nat} {binding : Binding} (knows : binding.Knows first uses)
    (lands : ∀ target ∈ targetsOf region rows, Lands region starts target) :
    ∃ after, (rows.mapM (bindRow region starts)).run binding =
        .ok (rows.map (Located.bindTo region
          (labelOf first (usesFrom uses ((targetsOf region rows).map Int.toNat)))), after) ∧
      after.Knows first (usesFrom uses ((targetsOf region rows).map Int.toNat)) := by
  induction rows generalizing uses binding with
  | nil => exact ⟨binding, rfl, knows⟩
  | cons row rest ih =>
    have split : targetsOf region (row :: rest) =
        row.action.targets (row.offset - region.base) ++ targetsOf region rest := List.flatMap_cons
    rw [split, List.map_append, usesFrom, List.foldl_append]
    have lands' : ∀ target ∈ targetsOf region rest, Lands region starts target :=
      fun target inside => lands target (by rw [split]; exact List.mem_append_right _ inside)
    rw [run_mapM_cons, bindRow]
    cases isBranch : row.action.branch? with
    | none =>
      have none : row.action.targets (row.offset - region.base) = [] := by
        rw [Action.targets, isBranch]
      obtain ⟨after, ran, knows'⟩ := ih knows lands'
      rw [none]
      refine ⟨after, ?_, knows'⟩
      dsimp only [bind, Except.bind, pure, Except.pure]
      rw [ran]
      have stays : ∀ labels, Located.bindTo region labels row = row := fun labels => by
        rw [Located.bindTo, Action.bindTo, isBranch]
      dsimp only
      rw [List.map_cons, stays]
      rfl
    | some branch =>
      have one : row.action.targets (row.offset - region.base) =
          [branch.target (row.offset - region.base)] := by
        rw [Action.targets, isBranch]
      have here := lands _ (by rw [split, one]; exact List.mem_cons_self)
      have bound := (bindBranch_ok_iff bounded row branch binding).mpr ⟨here, rfl⟩
      obtain ⟨label, knows'⟩ := knows.labelFor (branch.target (row.offset - region.base)).toNat
      obtain ⟨after, ran, knows''⟩ := ih knows' lands'
      rw [one]
      refine ⟨after, ?_, knows''⟩
      dsimp only [bind, Except.bind, pure, Except.pure]
      rw [bound]
      dsimp only
      rw [ran, List.map_cons, ← label, Located.bindTo, Action.bindTo, isBranch]
      dsimp only
      rw [← labelOf_usesFrom (mem_use _ _)]
      rfl

/-- If rows are bound, all branches land. -/
theorem lands_of_bindRows {region : Region} {starts : Std.TreeSet Nat}
    (bounded : ∀ position, starts.contains position = true → position ≤ region.length)
    {rows : List Located} {binding : Binding} {result : List Located × Binding}
    (ran : (rows.mapM (bindRow region starts)).run binding = .ok result) :
    ∀ target ∈ targetsOf region rows, Lands region starts target := by
  induction rows generalizing binding result with
  | nil =>
    intro target inside
    cases inside
  | cons row rest ih =>
    have split : targetsOf region (row :: rest) =
        row.action.targets (row.offset - region.base) ++ targetsOf region rest := List.flatMap_cons
    rw [run_mapM_cons] at ran
    obtain ⟨first, bound, ran⟩ := except_bind_ok_iff.mp ran
    obtain ⟨later, ran, _⟩ := except_bind_ok_iff.mp ran
    intro target inside
    rw [split] at inside
    rcases List.mem_append.mp inside with here | inside
    · rw [bindRow] at bound
      rw [Action.targets] at here
      cases isBranch : row.action.branch? with
      | none =>
        rw [isBranch] at here
        cases here
      | some branch =>
        rw [isBranch] at here bound
        rw [List.mem_singleton.mp here]
        exact ((bindBranch_ok_iff bounded row branch binding).mp bound).1
    · exact ih ran target inside

/-! ### Rows that follow one another -/

/-- Rows follow one another, from one offset to another. -/
def Laid : Nat → List Located → Nat → Prop
  | offset, [], stop => stop = offset
  | offset, row :: rest, stop => row.offset = offset ∧ Laid (offset + row.span) rest stop

theorem Laid.le {offset stop : Nat} {rows : List Located} (laid : Laid offset rows stop) :
    offset ≤ stop := by
  induction rows generalizing offset with
  | nil => exact Nat.le_of_eq (Eq.symm laid)
  | cons row rest ih => exact Nat.le_trans (Nat.le_add_right _ _) (ih laid.2)

theorem Laid.mem {offset stop : Nat} {rows : List Located} (laid : Laid offset rows stop)
    {row : Located} (inside : row ∈ rows) : offset ≤ row.offset ∧ row.offset ≤ stop := by
  induction rows generalizing offset with
  | nil => cases inside
  | cons first rest ih =>
    obtain ⟨here, later⟩ := laid
    rcases List.mem_cons.mp inside with rfl | inside
    · exact ⟨Nat.le_of_eq here.symm, by have := later.le; omega⟩
    · obtain ⟨le, le'⟩ := ih later inside
      exact ⟨by omega, le'⟩

/-- Rows begin or end where pieces reach. -/
theorem Laid.reached_iff {base offset stop : Nat} {rows : List Located}
    (laid : Laid offset rows stop) (point : Point) (here : offset = base + point.bytes)
    (position : Nat) :
    (stop = base + position ∨ ∃ row ∈ rows, row.offset = base + position) ↔
      ∃ last, Reached point (rows.map Located.piece) last ∧ last.bytes = position := by
  induction rows generalizing offset point with
  | nil =>
    have stops : stop = offset := laid
    simp only [List.map_nil, reached_nil_iff, List.not_mem_nil, false_and, exists_false, or_false,
      exists_eq_left]
    omega
  | cons row rest ih =>
    obtain ⟨starts, laid⟩ := laid
    have here' : offset + row.span = base + (point.after row.piece).bytes := by
      show offset + row.span = base + (point.bytes + row.span)
      omega
    have later := ih laid _ here'
    constructor
    · rintro (ends | ⟨other, inside, equal⟩)
      · obtain ⟨last, reached, bytes⟩ := later.mp (.inl ends)
        exact ⟨last, reached.later, bytes⟩
      · rcases List.mem_cons.mp inside with rfl | inside
        · exact ⟨point, .here _ _, by omega⟩
        · obtain ⟨last, reached, bytes⟩ := later.mp (.inr ⟨other, inside, equal⟩)
          exact ⟨last, reached.later, bytes⟩
    · rintro ⟨last, reached, bytes⟩
      rcases reached_cons_iff.mp reached with rfl | reached
      · exact .inr ⟨row, List.mem_cons_self, by omega⟩
      · rcases later.mpr ⟨last, reached, bytes⟩ with ends | ⟨other, inside, equal⟩
        · exact .inl ends
        · exact .inr ⟨other, List.mem_cons_of_mem _ inside, equal⟩

theorem contains_startsOf {region : Region} {rows : List Located} {position : Nat} :
    (startsOf region rows).contains position = true ↔
      ∃ row ∈ rows, row.offset - region.base = position := by
  have general : ∀ starts : Std.TreeSet Nat,
      (rows.foldl (fun starts row => starts.insert (row.offset - region.base)) starts).contains
        position = true ↔ starts.contains position = true ∨
          ∃ row ∈ rows, row.offset - region.base = position := by
    induction rows with
    | nil => simp
    | cons row rest ih =>
      intro starts
      rw [List.foldl_cons, ih, Std.TreeSet.contains_insert]
      simp [or_assoc, or_left_comm]
  refine (general ∅).trans (or_iff_right ?_)
  rw [Std.TreeSet.contains_emptyc]
  exact Bool.false_ne_true

/-- **A target lands exactly if its byte is reached.** -/
theorem lands_iff {region : Region} {rows : List Located} {target : Int}
    (laid : Laid region.base rows region.stop) :
    Lands region (startsOf region rows) target ↔
      ∃ last, Reached ⟨0, 0⟩ (rows.map Located.piece) last ∧ target = last.bytes := by
  have le := laid.le
  have same : ∀ position : Nat,
      (position = region.length ∨ (startsOf region rows).contains position = true) ↔
        ∃ last, Reached ⟨0, 0⟩ (rows.map Located.piece) last ∧ last.bytes = position := by
    intro position
    rw [← laid.reached_iff ⟨0, 0⟩ (Nat.add_zero region.base).symm position, contains_startsOf]
    refine or_congr ?_ (exists_congr fun row => and_congr_right fun inside => ?_)
    · rw [Region.length]
      omega
    · have first := (laid.mem inside).1
      omega
  constructor
  · rintro ⟨position, rfl, lands⟩
    obtain ⟨last, reached, rfl⟩ := (same position).mp lands
    exact ⟨last, reached, rfl⟩
  · rintro ⟨last, reached, rfl⟩
    exact ⟨last.bytes, rfl, (same last.bytes).mpr ⟨last, reached, rfl⟩⟩

theorem Laid.bounded {region : Region} {rows : List Located}
    (laid : Laid region.base rows region.stop) (position : Nat)
    (starts : (startsOf region rows).contains position = true) : position ≤ region.length := by
  obtain ⟨row, inside, rfl⟩ := contains_startsOf.mp starts
  exact Nat.sub_le_sub_right (laid.mem inside).2 _

/-! ### Rows as pieces -/

/-- The bytes that pieces from a byte on go to. -/
def targetsFrom (position : Nat) : List Piece → List Int
  | [] => []
  | piece :: rest => piece.action.targets position ++ targetsFrom (position + piece.bytes) rest

/-- Pieces from a byte on, bound to the labels of their targets. -/
def bindFrom (labels : Nat → Option Label) (position : Nat) : List Piece → List Piece
  | [] => []
  | piece :: rest => { piece with action := piece.action.bindTo labels position } ::
    bindFrom labels (position + piece.bytes) rest

theorem Action.isMarker_bindTo (labels : Nat → Option Label) (position : Nat) (action : Action) :
    (action.bindTo labels position).isMarker = action.isMarker := by
  unfold bindTo
  cases isBranch : action.branch? with
  | none => rfl
  | some branch =>
    cases action with
    | marker marker => cases isBranch
    | _ => rfl

theorem targetsOf_eq {region : Region} {rows : List Located} {offset stop : Nat} (position : Nat)
    (laid : Laid offset rows stop) (here : offset = region.base + position) :
    targetsOf region rows = targetsFrom position (rows.map Located.piece) := by
  induction rows generalizing offset position with
  | nil => rfl
  | cons row rest ih =>
    obtain ⟨starts, laid⟩ := laid
    have first : row.offset - region.base = position := by omega
    have later := ih (position + row.span) laid (by omega)
    have split : targetsOf region (row :: rest) =
        row.action.targets (row.offset - region.base) ++ targetsOf region rest := List.flatMap_cons
    rw [split, first, later]
    rfl

theorem map_piece_bindTo {region : Region} {rows : List Located} {offset stop : Nat}
    (position : Nat) (laid : Laid offset rows stop) (here : offset = region.base + position)
    (labels : Nat → Option Label) :
    (rows.map (Located.bindTo region labels)).map Located.piece =
      bindFrom labels position (rows.map Located.piece) := by
  induction rows generalizing offset position with
  | nil => rfl
  | cons row rest ih =>
    obtain ⟨starts, laid⟩ := laid
    have first : row.offset - region.base = position := by omega
    have later := ih (position + row.span) laid (by omega)
    rw [List.map_cons, List.map_cons, later, List.map_cons, bindFrom]
    refine congrArg₂ List.cons ?_ rfl
    rw [Located.bindTo, first, Located.piece, Located.recordCount]
    dsimp only
    rw [Action.isMarker_bindTo]
    rfl

theorem Laid.bindTo {region : Region} {rows : List Located} {offset stop : Nat}
    (laid : Laid offset rows stop) (labels : Nat → Option Label) :
    Laid offset (rows.map (Located.bindTo region labels)) stop := by
  induction rows generalizing offset with
  | nil => exact laid
  | cons row rest ih => exact ⟨laid.1, ih laid.2⟩

theorem map_piece_labelAt (region : Region) (labels : Std.TreeMap Nat Label) (offset : Nat) :
    (labelAt region labels offset).map Located.piece =
      labelPieces (fun position => labels[position]?) (offset - region.base) := by
  unfold labelAt labelPieces
  dsimp only
  generalize labels[offset - region.base]? = found
  cases found <;> rfl

/-- **Labels go before the rows that begin at their bytes.** -/
theorem placeLabels_of_laid {region : Region} {rows : List Located}
    (laid : Laid region.base rows region.stop) (real : AllReal (rows.map Located.piece))
    (labels : Std.TreeMap Nat Label) :
    (placeLabels region labels rows).map Located.piece =
      insertLabels (fun position => labels[position]?) 0 (rows.map Located.piece) := by
  have general : ∀ (rows : List Located) (offset position : Nat), Laid offset rows region.stop →
      offset = region.base + position → AllReal (rows.map Located.piece) →
        (placeLabels region labels rows).map Located.piece =
          insertLabels (fun position => labels[position]?) position (rows.map Located.piece) := by
    intro rows
    induction rows with
    | nil =>
      intro offset position laid here _
      have stops : region.stop - region.base = position := by
        have equal : region.stop = offset := laid
        omega
      rw [placeLabels, List.flatMap_nil, List.nil_append, map_piece_labelAt, stops]
      rfl
    | cons row rest ih =>
      intro offset position laid here real
      obtain ⟨starts, laid⟩ := laid
      have first : row.offset - region.base = position := by omega
      have later := ih _ (position + row.span) laid (by omega) real.tail
      have label := map_piece_labelAt region labels row.offset
      rw [first] at label
      have split : placeLabels region labels (row :: rest) =
          labelAt region labels row.offset ++ row :: placeLabels region labels rest := by
        rw [placeLabels, List.flatMap_cons, List.append_assoc, List.append_assoc]
        rfl
      rw [List.map_cons, insertLabels_real real.head, split, List.map_append, List.map_cons, label,
        later]
      rfl
  exact general rows _ 0 laid rfl real

end ActionCode
