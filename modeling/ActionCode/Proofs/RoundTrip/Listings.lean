/-
**What is in a listing.**

* **`forall_listed`**: what holds of markers and of bound pieces holds of the pieces of a listing.
* **`Accepted.nesting_le`**: a listing nests no deeper than there was room for.
* `Inherited`, **`Inherited.forall₂`**: what records share with their pieces if those of code do.
* `Level`, **`Level.everyLevel`**: what holds of every level of records holds at every level of their
  listing. `Single`: only single literals are pushed.
* `PushesDivided`: no two records of pushes are neighbours without a byte that divides them.
  **`pushesDivided_iff`**: then no records are joined.
-/

import ActionCode.Proofs.Chunks.Shells
import ActionCode.Proofs.Levels.Paths
import ActionCode.Proofs.Merging.Sides

namespace ActionCode

/-! ### Pieces of listings -/

/-- What is related to another list element by element has a partner for each. -/
theorem exists_of_forall₂ {α β : Type} {relates : α → β → Prop} {firsts : List α}
    {seconds : List β} (both : List.Forall₂ relates firsts seconds) {first : α}
    (inside : first ∈ firsts) : ∃ second ∈ seconds, relates first second := by
  induction both with
  | nil => exact absurd inside List.not_mem_nil
  | @cons _ second _ _ here _ ih =>
    obtain rfl | later := List.mem_cons.mp inside
    · exact ⟨second, List.mem_cons_self, here⟩
    · obtain ⟨partner, found, holds⟩ := ih later
      exact ⟨partner, List.mem_cons_of_mem _ found, holds⟩

theorem forall_of_forall₂ {α β : Type} {holds : α → Prop} {firsts : List α} {seconds : List β}
    (both : List.Forall₂ (fun first _ => holds first) firsts seconds) :
    ∀ first ∈ firsts, holds first := fun _ inside =>
  (exists_of_forall₂ both inside).elim fun _ found => found.2

theorem forall_iff_of_forall₂ {α β : Type} {holds : α → Prop} {holds' : β → Prop}
    {firsts : List α} {seconds : List β}
    (both : List.Forall₂ (fun first second => holds first ↔ holds' second) firsts seconds) :
    (∀ first ∈ firsts, holds first) ↔ ∀ second ∈ seconds, holds' second := by
  induction both with
  | nil => exact iff_of_true (fun _ inside => by cases inside) (fun _ inside => by cases inside)
  | cons here _ ih => rw [List.forall_mem_cons, List.forall_mem_cons, here, ih]

theorem forall₂_of_mem {α β : Type} {relates relates' : α → β → Prop} {firsts : List α}
    {seconds : List β} (both : List.Forall₂ relates firsts seconds)
    (implies : ∀ first, ∀ second ∈ seconds, relates first second → relates' first second) :
    List.Forall₂ relates' firsts seconds := by
  induction both with
  | nil => exact .nil
  | cons here _ ih =>
    exact .cons (implies _ _ List.mem_cons_self here)
      (ih fun first second inside => implies first second (List.mem_cons_of_mem _ inside))

variable {pieces : List Piece}

/-- A piece whose branch is bound to the label of its target. -/
def Piece.bindTo (labels : Nat → Option Label) (position : Nat) (piece : Piece) : Piece :=
  { piece with action := piece.action.bindTo labels position }

theorem forall_bindFrom {holds : Piece → Prop} {labels : Nat → Option Label}
    (bound : ∀ piece ∈ pieces, ∀ position, holds (piece.bindTo labels position)) (position : Nat) :
    ∀ piece ∈ bindFrom labels position pieces, holds piece := by
  induction pieces generalizing position with
  | nil => exact fun _ inside => absurd inside List.not_mem_nil
  | cons piece rest ih =>
    intro other inside
    rw [bindFrom, List.mem_cons] at inside
    obtain rfl | later := inside
    · exact bound piece List.mem_cons_self position
    · exact ih (fun piece inside => bound piece (List.mem_cons_of_mem _ inside)) _ other later

/-- **What holds of markers and of bound pieces holds of the pieces of a listing.** -/
theorem forall_listed (holds : Piece → Prop) (real : AllReal pieces) (fit : AllFit pieces)
    (nextLabel : Nat) (markers : ∀ marker, holds (.ofMarker marker))
    (bound : ∀ piece ∈ pieces, ∀ labels position, holds (piece.bindTo labels position)) :
    ∀ piece ∈ listed nextLabel pieces, holds piece := by
  intro piece inside
  obtain ⟨marker, rfl⟩ | isReal := (labelled_listed real fit nextLabel).solid piece inside
  · exact markers marker
  · have found : piece ∈ reals (listed nextLabel pieces) :=
      List.mem_filter.mpr ⟨inside, by rw [isReal.real]; rfl⟩
    rw [reals_listed real fit] at found
    exact forall_bindFrom (fun piece inside => bound piece inside _) 0 piece found

/-- The real actions of a listing are those of its pieces, in their order. -/
theorem filterMap_listed {β : Type} {view : Action → Option β} (real : AllReal pieces)
    (fit : AllFit pieces) (nextLabel : Nat) (markers : ∀ marker, view (.marker marker) = none)
    (bound : ∀ (action : Action) labels position,
      view (action.bindTo labels position) = view action) :
    (listed nextLabel pieces).filterMap (fun piece => view piece.action) =
      pieces.filterMap fun piece => view piece.action := by
  have solid := (labelled_listed real fit nextLabel).solid
  have onReals : ∀ {others : List Piece}, AllSolid others →
      others.filterMap (fun piece => view piece.action) =
        (reals others).filterMap fun piece => view piece.action := by
    intro others solid
    induction others with
    | nil => rfl
    | cons piece rest ih =>
      obtain ⟨marker, rfl⟩ | isReal := solid.head
      · rw [reals_ofMarker, ← ih solid.tail]
        exact List.filterMap_cons_none (markers marker)
      · rw [reals_cons isReal.real, List.filterMap_cons, List.filterMap_cons, ih solid.tail]
  have onBound : ∀ (others : List Piece) labels position,
      (bindFrom labels position others).filterMap (fun piece => view piece.action) =
        others.filterMap fun piece => view piece.action := by
    intro others labels position
    induction others generalizing position with
    | nil => rfl
    | cons piece rest ih =>
      rw [bindFrom, List.filterMap_cons, List.filterMap_cons, ih, bound]
  rw [onReals solid, reals_listed real fit, onBound]

theorem Action.bindTo_of_other {action : Action} (other : action.branch? = none)
    (labels : Nat → Option Label) (position : Nat) : action.bindTo labels position = action := by
  rw [bindTo, other]

/-- Only branches are bound. -/
theorem Action.bindTo_cases (labels : Nat → Option Label) (position : Nat) (action : Action) :
    action.bindTo labels position = action ∨
      ∃ branch : Branch, action = .plain (.branch branch) ∧ action.bindTo labels position =
        .plain (.branch { branch with label := labels (branch.target position).toNat }) := by
  cases isBranch : action.branch? with
  | none => exact .inl (bindTo_of_other isBranch labels position)
  | some branch => exact .inr ⟨branch, eq_branch_of_branch? isBranch, by rw [bindTo, isBranch]⟩

/-! ### Nesting -/

theorem Action.nesting_plain (instruction : Instruction) :
    (Action.plain instruction).nesting = 0 := by
  rw [nesting]
  exact fun _ _ isDefine => by cases isDefine

theorem Action.nesting_marker (found : Marker) : (Action.marker found).nesting = 0 := by
  rw [nesting]
  exact fun _ _ isDefine => by cases isDefine

theorem Action.nesting_bindTo (labels : Nat → Option Label) (position : Nat) (action : Action) :
    (action.bindTo labels position).nesting = action.nesting := by
  obtain same | ⟨branch, rfl, same⟩ := bindTo_cases labels position action
  · rw [same]
  · rw [same, nesting_plain, nesting_plain]

/-- Splitting pushes changes no nesting. -/
theorem nesting_splitPushes_le {room : Nat} {actions : List Action}
    (shallow : ∀ action ∈ actions, action.nesting ≤ room) :
    nesting (splitPushes actions) ≤ room := by
  refine nesting_le_iff.mpr fun action inside => ?_
  obtain ⟨whole, _⟩ | ⟨_, _, value, _, rfl⟩ := mem_splitPushes_iff.mp inside
  · exact shallow action whole
  · rw [Action.nesting_plain]
    exact Nat.zero_le room

theorem nesting_splitPushes (actions : List Action) :
    nesting (splitPushes actions) = nesting actions := by
  refine Nat.le_antisymm (nesting_splitPushes_le (nesting_le_iff.mp (Nat.le_refl _)))
    (nesting_le_iff.mpr fun action inside => ?_)
  by_cases some : action.pushed = []
  · exact nesting_le_iff.mp (Nat.le_refl _) action (mem_splitPushes_of_unpushed inside some)
  · cases action with
    | plain instruction =>
      rw [Action.nesting_plain]
      exact Nat.zero_le _
    | _ => exact absurd rfl some

/-- Merging pushes changes no nesting. -/
theorem nesting_mergeRuns (actions : List Action) :
    nesting (mergeRuns actions) = nesting actions := by
  rw [← nesting_splitPushes, splitPushes_mergeRuns, nesting_splitPushes]

/-- A sequence nests no deeper than its pieces. -/
theorem nesting_finished_le {room : Nat} (real : AllReal pieces) (fit : AllFit pieces)
    (shallow : ∀ piece ∈ pieces, piece.action.nesting ≤ room) (nextLabel : Nat) :
    nesting (finished nextLabel pieces) ≤ room := by
  refine nesting_splitPushes_le fun action inside => ?_
  obtain ⟨piece, isPiece, rfl⟩ := List.mem_map.mp inside
  refine forall_listed (fun piece => piece.action.nesting ≤ room) real fit nextLabel
    (fun marker => ?_) (fun piece inside labels position => ?_) piece isPiece
  · exact (Action.nesting_marker marker).trans_le (Nat.zero_le room)
  · exact (Action.nesting_bindTo labels position piece.action).trans_le (shallow piece inside)

/-! ### Every level -/

/-- A level of a buffer that is read with some room for definitions, and whose labels are numbered
from one on. -/
structure Level (room nextLabel : Nat) (chunks : List Chunk) : Prop where
  formed : AllFormed Instruction.SpelledBy room chunks
  sound : AllSound nextLabel chunks
  finishable : Finishable (piecesFrom nextLabel chunks).1

theorem Level.real {room nextLabel : Nat} {chunks : List Chunk} (level : Level room nextLabel chunks) :
    AllReal (piecesFrom nextLabel chunks).1 :=
  real_piecesFrom (fun _ _ spelled => spelled.length_pos) level.formed nextLabel

theorem Accepted.level {maxDepth : Nat} {bytes : List UInt8} (accepted : Accepted maxDepth bytes) :
    Level maxDepth 0 (chunks maxDepth bytes) :=
  ⟨accepted.formed, accepted.sound, accepted.finishable⟩

/-- What a record and its piece share, if the records of code and their pieces do. -/
structure Inherited (holds : Nat → Piece → Chunk → Prop) : Prop where
  instruction : ∀ {room : Nat} {instruction : Instruction} {bytes : List UInt8},
    instruction.SpelledBy bytes →
      holds room ⟨.plain instruction, bytes.length, 1⟩ (.instruction instruction bytes)
  definition : ∀ {room nextLabel : Nat} {signature : Signature} {front : List UInt8}
    {code : List Chunk}, 0 < room → signature.image (bytesOf code).length = some front →
      Level (room - 1) nextLabel code →
      List.Forall₂ (holds (room - 1)) (piecesFrom nextLabel code).1 code →
        holds room ⟨.define signature (actionsOf nextLabel code), (front ++ bytesOf code).length, 1⟩
          (.definition signature (front ++ bytesOf code) code)

mutual

theorem Inherited.piece {holds : Nat → Piece → Chunk → Prop} (inherited : Inherited holds) :
    ∀ {chunk : Chunk} {room nextLabel : Nat}, chunk.Formed Instruction.SpelledBy room →
      chunk.Sound nextLabel → holds room (chunk.piece nextLabel).1 chunk
  | .instruction found bytes, room, nextLabel, formed, _ => by
    rw [Chunk.Formed] at formed
    rw [Chunk.piece]
    exact inherited.instruction formed
  | .definition signature bytes code, room, nextLabel, formed, sound => by
    rw [Chunk.Formed] at formed
    obtain ⟨deep, ⟨front, declared, rfl⟩, inner⟩ := formed
    rw [Chunk.Sound] at sound
    rw [Chunk.piece]
    exact inherited.definition deep declared ⟨inner, sound.1, sound.2⟩
      (inherited.forall₂ inner sound.1)

/-- **All records and their pieces share it**, by induction on the records. -/
theorem Inherited.forall₂ {holds : Nat → Piece → Chunk → Prop} (inherited : Inherited holds) :
    ∀ {chunks : List Chunk} {room nextLabel : Nat},
      AllFormed Instruction.SpelledBy room chunks → AllSound nextLabel chunks →
        List.Forall₂ (holds room) (piecesFrom nextLabel chunks).1 chunks
  | [], room, nextLabel, _, _ => by
    rw [piecesFrom]
    exact .nil
  | chunk :: rest, room, nextLabel, formed, sound => by
    rw [AllFormed] at formed
    rw [AllSound] at sound
    rw [piecesFrom]
    exact .cons (inherited.piece formed.1 sound.1) (inherited.forall₂ formed.2 sound.2)

end

/-- The pieces of records nest no deeper than there was room for. -/
theorem Level.nesting_le {room nextLabel : Nat} {chunks : List Chunk}
    (level : Level room nextLabel chunks) :
    ∀ piece ∈ (piecesFrom nextLabel chunks).1, piece.action.nesting ≤ room := by
  have inherited : Inherited fun room piece _ => piece.action.nesting ≤ room :=
    { instruction := fun _ => (Action.nesting_plain _).trans_le (Nat.zero_le _)
      definition := fun deep _ level inner => by
        rw [Action.nesting]
        exact Nat.add_le_of_le_sub deep (nesting_finished_le level.real level.finishable.fit
          (forall_of_forall₂ inner) _) }
  exact forall_of_forall₂ (inherited.forall₂ level.formed level.sound)

/-- **A listing nests no deeper than there was room for.** -/
theorem Accepted.nesting_le {maxDepth : Nat} {bytes : List UInt8}
    (accepted : Accepted maxDepth bytes) : nesting (plainActions maxDepth bytes) ≤ maxDepth :=
  nesting_finished_le accepted.level.real accepted.finishable.fit accepted.level.nesting_le _

/-- Something holds inside a sequence if it holds inside its pieces. -/
theorem allCodeHolds_finished {holds : List Action → Prop} (real : AllReal pieces)
    (fit : AllFit pieces) (inside : ∀ piece ∈ pieces, piece.action.CodeHolds holds)
    (nextLabel : Nat) : AllCodeHolds holds (finished nextLabel pieces) := by
  have every : ∀ piece ∈ listed nextLabel pieces, piece.action.CodeHolds holds :=
    forall_listed _ real fit nextLabel (fun marker => Action.codeHolds_marker marker)
      fun piece isPiece labels position => by
        obtain same | ⟨branch, _, same⟩ := Action.bindTo_cases labels position piece.action
        · rw [Piece.bindTo, same]
          exact inside piece isPiece
        · rw [Piece.bindTo, same]
          exact Action.codeHolds_plain _
  refine allCodeHolds_iff.mpr fun signature body isDefine => ?_
  obtain ⟨whole, _⟩ | ⟨_, _, value, _, same⟩ := mem_splitPushes_iff.mp isDefine
  · obtain ⟨piece, isPiece, isDefine⟩ := List.mem_map.mp whole
    have holds := every piece isPiece
    rw [isDefine, Action.CodeHolds] at holds
    exact holds
  · cases same

/-- **What holds of every level of records holds at every level of their listing.** -/
theorem Level.everyLevel {holds : List Action → Prop}
    (each : ∀ room nextLabel chunks, Level room nextLabel chunks →
      holds (actionsOf nextLabel chunks)) {room nextLabel : Nat} {chunks : List Chunk}
    (level : Level room nextLabel chunks) : EveryLevel holds (actionsOf nextLabel chunks) := by
  have whole : ∀ {room nextLabel chunks}, Level room nextLabel chunks →
      List.Forall₂ (fun piece _ => piece.action.CodeHolds holds) (piecesFrom nextLabel chunks).1
        chunks → EveryLevel holds (actionsOf nextLabel chunks) := fun level inner =>
    ⟨each _ _ _ level, allCodeHolds_finished level.real level.finishable.fit
      (forall_of_forall₂ inner) _⟩
  have inherited : Inherited fun _ piece _ => piece.action.CodeHolds holds :=
    { instruction := fun _ => Action.codeHolds_plain _
      definition := fun _ _ level inner => by
        rw [Action.CodeHolds]
        exact whole level inner }
  exact whole level (inherited.forall₂ level.formed level.sound)

/-! ### Single pushes -/

/-- Nothing is pushed but single literals. -/
def Single (actions : List Action) : Prop := ∀ action ∈ actions, action.splitPush = [action]

theorem single_splitPushes (actions : List Action) : Single (splitPushes actions) := by
  intro action inside
  obtain ⟨_, unpushed⟩ | ⟨_, _, value, _, rfl⟩ := mem_splitPushes_iff.mp inside
  · exact Action.splitPush_of_unpushed unpushed
  · rfl

theorem Single.splitPushes_eq {actions : List Action} (single : Single actions) :
    splitPushes actions = actions := by
  induction actions with
  | nil => rfl
  | cons action rest ih =>
    rw [splitPushes_cons, single action List.mem_cons_self,
      ih fun other inside => single other (List.mem_cons_of_mem _ inside)]
    rfl

/-- **At every level of a listing, only single literals are pushed.** -/
theorem Level.single {room nextLabel : Nat} {chunks : List Chunk}
    (level : Level room nextLabel chunks) : EveryLevel Single (actionsOf nextLabel chunks) :=
  level.everyLevel fun _ _ _ _ => single_splitPushes _

mutual

theorem Action.mapInside_split_merge : ∀ {action : Action}, action.CodeHolds Single →
    (action.mapInside mergeRuns).mapInside splitPushes = action
  | .plain instruction, _ => by rw [Action.mapInside_plain, Action.mapInside_plain]
  | .define signature body, single => by
    rw [Action.CodeHolds] at single
    rw [Action.mapInside_define, Action.mapInside_define, ← mergePushes,
      mapLevels_split_merge single.1 single.2]
  | .marker found, _ => by rw [Action.mapInside_marker, Action.mapInside_marker]

theorem map_mapInside_split_merge : ∀ {actions : List Action}, AllCodeHolds Single actions →
    (actions.map (Action.mapInside mergeRuns)).map (Action.mapInside splitPushes) = actions
  | [], _ => rfl
  | action :: rest, single => by
    rw [AllCodeHolds] at single
    rw [List.map_cons, List.map_cons, Action.mapInside_split_merge single.1,
      map_mapInside_split_merge single.2]

/-- **A listing comes back from its merged pushes.** -/
theorem mapLevels_split_merge : ∀ {actions : List Action}, Single actions →
    AllCodeHolds Single actions → mapLevels splitPushes (mergePushes actions) = actions
  | actions, single, inside => by
    have merged : mergePushes actions = fuse (actions.map (Action.mapInside mergeRuns)) := by
      rw [← mergePushes_of_splitPushes, single.splitPushes_eq]
    rw [mapLevels_eq, merged, (spares_mapInside splitPushes).map_fuse, splitPushes_fuse,
      map_mapInside_split_merge inside, single.splitPushes_eq]

end

/-! ### Records of pushes -/

/-- Neighbouring records that push something have a byte between them that a branch goes to, or
where a span of a block ends. -/
def PushesDivided (chunks : List Chunk) : Prop :=
  ∀ front first second back, chunks = front ++ first :: second :: back →
    first.action.pushed ≠ [] → second.action.pushed ≠ [] →
      Divided (shells chunks) (bytesOf (front ++ [first])).length

theorem joinsFrom_eq_zero_iff {divides : Nat → Prop} [DecidablePred divides] {position : Nat}
    {pieces : List Piece} :
    joinsFrom divides position pieces = 0 ↔
      ∀ front first second back, pieces = front ++ first :: second :: back →
        first.action.pushed ≠ [] → second.action.pushed ≠ [] →
          divides (position + ((front ++ [first]).map Piece.bytes).sum) := by
  induction pieces generalizing position with
  | nil =>
    refine iff_of_true (by rw [joinsFrom]; exact fun _ _ _ isCons => by cases isCons) ?_
    intro front first second back nothing
    cases front <;> cases nothing
  | cons piece rest ih =>
    cases rest with
    | nil =>
      refine iff_of_true (by rw [joinsFrom]; exact fun _ _ _ isCons => by cases isCons) ?_
      intro front first second back one
      match front, one with
      | [_], one => cases one
      | _ :: _ :: _, one => cases one
    | cons next rest =>
      rw [joinsFrom, Nat.add_eq_zero_iff, ih]
      constructor
      · rintro ⟨here, later⟩ front first second back split isFirst isSecond
        match front, split with
        | [], split =>
          cases split
          by_contra apart
          rw [List.nil_append, List.map_cons, List.map_nil, List.sum_singleton] at apart
          rw [if_pos ⟨isFirst, isSecond, apart⟩] at here
          cases here
        | other :: front, split =>
          rw [List.cons_append, List.cons.injEq] at split
          obtain ⟨rfl, split⟩ := split
          rw [List.cons_append, List.map_cons, List.sum_cons, ← Nat.add_assoc]
          exact later front first second back split isFirst isSecond
      · intro divided
        refine ⟨if_neg ?_, ?_⟩
        · rintro ⟨isFirst, isSecond, apart⟩
          have here := divided [] piece next rest rfl isFirst isSecond
          rw [List.nil_append, List.map_cons, List.map_nil, List.sum_singleton] at here
          exact apart here
        · intro front first second back split isFirst isSecond
          have later := divided (piece :: front) first second back (by rw [split]; rfl) isFirst
            isSecond
          rw [List.cons_append, List.map_cons, List.sum_cons, ← Nat.add_assoc] at later
          exact later

theorem shells_append (front back : List Chunk) :
    shells (front ++ back) = shells front ++ shells back := List.map_append

theorem sum_bytes_shells (chunks : List Chunk) :
    ((shells chunks).map Piece.bytes).sum = (bytesOf chunks).length := by
  rw [shells, bytesOf, List.length_flatMap, List.map_map]
  rfl

/-- **Records of pushes are divided exactly if none are joined.** -/
theorem pushesDivided_iff {chunks : List Chunk} :
    PushesDivided chunks ↔ ownJoins (shells chunks) = 0 := by
  rw [ownJoins, joinsFrom_eq_zero_iff]
  constructor
  · intro divided front first second back split isFirst isSecond
    obtain ⟨front, later, rfl, rfl, same⟩ := List.map_eq_append_iff.mp split
    obtain ⟨first, others, rfl, rfl, same'⟩ := List.map_eq_cons_iff.mp same
    obtain ⟨second, back, rfl, rfl, rfl⟩ := List.map_eq_cons_iff.mp same'
    have here := divided front first second back rfl isFirst isSecond
    rw [← sum_bytes_shells, shells_append front [first]] at here
    rw [Nat.zero_add]
    exact here
  · rintro divided front first second back rfl isFirst isSecond
    have here := divided (shells front) first.shell second.shell (shells back)
      (shells_append _ _) isFirst isSecond
    rw [Nat.zero_add] at here
    rw [← sum_bytes_shells, shells_append front [first]]
    exact here

instance : DecidablePred PushesDivided := fun _ => decidable_of_iff _ pushesDivided_iff.symm

end ActionCode
