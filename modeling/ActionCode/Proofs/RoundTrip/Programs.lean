/-
**The program that a sequence is.**

* `Action.essential`: an action without anything that assembly works out itself.
* `Program`, `program`: the real actions of a sequence, where its branches go, and the spans around
  each action.
* **`program_eq`**: the program of pieces whose branches are aimed and whose closings match follows
  from their real ones.
* **`program_of_blank`**: merging pushes and entering offsets and sizes keep the program.
-/

import ActionCode.Proofs.Blocks.Enclosing
import ActionCode.Proofs.Derived.Trimming
import ActionCode.Proofs.Labels.Destinations
import ActionCode.Proofs.Merging.Sides

namespace ActionCode

/-! ### Programs -/

/-- An action without anything that assembly works out itself: **labels and offsets of branches,
sizes, skip counts, operand counts, and the flag bits that follow from other fields**. The code of a
definition is left out. -/
def Action.essential : Action → Action
  | .plain (.branch branch) => .plain (.branch { branch with offset := 0, label := none })
  | .plain instruction => .plain instruction.essence
  | .define signature _ => .define signature []
  | .marker found => .marker found

/-- The actions that are no markers. -/
def realActions (actions : List Action) : List Action :=
  actions.filter fun action => !action.isMarker

/-- What a sequence is for, without the code of its definitions. -/
structure Program where
  /-- The real actions, each push a single one. -/
  actions : List Action
  /-- The actions that branches go to. -/
  destinations : List (Option Nat)
  /-- The spans around each action. -/
  enclosures : List (List Scope)
deriving DecidableEq

/-- The program of a sequence. -/
def program (actions : List Action) : Program where
  actions := (realActions (splitPushes actions)).map Action.essential
  destinations := destinations (splitPushes actions)
  enclosures := enclosures (splitPushes actions)

/-! ### Pieces -/

/-- The single actions of a piece, without what assembly works out. -/
def Piece.sense (piece : Piece) : List Action := piece.action.splitPush.map Action.essential

/-- What of a real piece decides the program, apart from branches. -/
def Piece.gist (piece : Piece) :
    (Nat × Nat × Nat × Option (Point → Point → Option Opening)) × List Action :=
  (piece.ground, piece.sense)

/-- The program of real pieces that end where their sizes say, and go where their offsets say. -/
def programOf (pieces : List Piece) : Program where
  actions := pieces.flatMap Piece.sense
  destinations := (targetsFrom 0 pieces).map
    fun target => some (countBefore target.toNat 0 pieces)
  enclosures := surroundings 0 ⟨0, 0⟩ [] pieces

/-- The real actions of pieces are the single actions of the real ones. -/
theorem realActions_splitPushes {pieces : List Piece} (solid : AllSolid pieces) :
    (realActions (splitPushes (pieces.map Piece.action))).map Action.essential =
      (reals pieces).flatMap Piece.sense := by
  induction pieces with
  | nil => rfl
  | cons piece rest ih =>
    have later := ih solid.tail
    obtain ⟨marker, rfl⟩ | isReal := solid.head
    · exact later
    · have own : realActions piece.action.splitPush = piece.action.splitPush :=
        List.filter_eq_self.mpr fun part inside => by
          rw [Action.isMarker_splitPush isReal.real part inside]
          rfl
      rw [realActions] at own later
      rw [List.map_cons, splitPushes_cons, realActions, List.filter_append, own, List.map_append,
        later, reals_cons isReal.real, List.flatMap_cons]
      rfl

/-- **The program of pieces follows from their real ones**, if branches are aimed and closings match
the sizes of their blocks. -/
theorem program_eq {pieces : List Piece} (solid : AllSolid pieces) (aimed : Aimed pieces)
    (labelled : ∀ mark ∈ branchMarks pieces, mark.1.label ≠ none)
    (closes : Closes ⟨0, 0⟩ pieces (pieces.map Piece.action) []) :
    program (pieces.map Piece.action) = programOf (reals pieces) := by
  rw [program, programOf, realActions_splitPushes solid, destinations_eq solid aimed labelled,
    closes.enclosures_eq solid]

theorem countBefore_congr {pieces others : List Piece}
    (same : pieces.map Piece.ground = others.map Piece.ground) (place position : Nat) :
    countBefore place position pieces = countBefore place position others := by
  induction pieces generalizing others position with
  | nil => rw [List.map_eq_nil_iff.mp same.symm]
  | cons piece rest ih =>
    rcases others with _ | ⟨other, others⟩
    · cases same
    · obtain ⟨first, later⟩ := List.cons.inj same
      obtain ⟨bytes, first⟩ := Prod.mk.inj first
      obtain ⟨_, first⟩ := Prod.mk.inj first
      obtain ⟨weight, _⟩ := Prod.mk.inj first
      rw [countBefore, countBefore, bytes, weight, ih later]

/-- **Gists and targets decide the program.** -/
theorem programOf_congr {pieces others : List Piece}
    (targets : targetsFrom 0 pieces = targetsFrom 0 others)
    (same : pieces.map Piece.gist = others.map Piece.gist) :
    programOf pieces = programOf others := by
  have grounds : pieces.map Piece.ground = others.map Piece.ground := by
    have firsts := congrArg (List.map Prod.fst) same
    rwa [List.map_map, List.map_map] at firsts
  have senses : pieces.map Piece.sense = others.map Piece.sense := by
    have seconds := congrArg (List.map Prod.snd) same
    rwa [List.map_map, List.map_map] at seconds
  rw [programOf, programOf, List.flatMap_def, List.flatMap_def, senses, targets,
    surroundings_congr grounds]
  simp only [countBefore_congr grounds]

/-! ### Sequences with equal blanks -/

/-- An action without offsets and sizes, and without its code. -/
def Action.sketch : Action → Action
  | .plain instruction => .plain instruction.blank
  | .define signature _ => .define signature []
  | .marker found => .marker found

theorem spares_sketch : Spares Action.sketch where
  pushed action := by
    cases action with
    | plain instruction =>
      exact sparesPushes_blank.recast.pushed (.plain instruction)
    | _ => rfl
  same action some := by
    cases action with
    | plain instruction => exact sparesPushes_blank.recast.same (.plain instruction) some
    | _ => exact absurd rfl some

theorem Action.sketch_mapInside (pass : List Action → List Action) (action : Action) :
    (action.mapInside pass).sketch = action.sketch := by
  cases action with
  | plain instruction => rw [mapInside_plain]
  | define signature body => rw [mapInside_define]; rfl
  | marker found => rw [mapInside_marker]

theorem Action.sketch_recast (action : Action) :
    (action.recast Instruction.blank).sketch = action.sketch := by
  cases action with
  | plain instruction => exact congrArg Action.plain instruction.blank_blank
  | _ => rfl

/-- **Merging pushes and entering offsets and sizes keep sketches.** -/
theorem sketch_of_blank {actions others : List Action}
    (same : recastAll Instruction.blank (mergePushes actions) = recastAll Instruction.blank others) :
    (splitPushes actions).map Action.sketch = (splitPushes others).map Action.sketch := by
  have inside : actions.map Action.sketch =
      (actions.map (Action.mapInside mergeRuns)).map Action.sketch := by
    rw [List.map_map]
    exact List.map_congr_left fun action _ => (action.sketch_mapInside _).symm
  have through : ∀ code : List Action, (splitPushes code).map Action.sketch =
      splitPushes ((recastAll Instruction.blank code).map Action.sketch) := by
    intro code
    rw [spares_sketch.map_splitPushes, recastAll_eq_map, List.map_map]
    exact congrArg splitPushes
      (List.map_congr_left fun action _ => action.sketch_recast.symm)
  rw [spares_sketch.map_splitPushes, inside, ← spares_sketch.map_splitPushes,
    ← splitPushes_mergeRuns, ← mapLevels_eq mergeRuns, ← mergePushes, through, same, ← through]

theorem Action.essential_sketch (action : Action) : action.sketch.essential = action.essential := by
  cases action with
  | plain instruction =>
    cases instruction with
    | branch branch =>
      obtain ⟨conditional, offset, _ | label⟩ := branch <;> rfl
    | block opened => exact congrArg Action.plain (Instruction.essence_blank _)
    | _ => rfl
  | _ => rfl

theorem Action.isMarker_sketch (action : Action) : action.sketch.isMarker = action.isMarker := by
  cases action <;> rfl

/-- **Sketches decide the program.** -/
theorem program_of_sketch {first second : List Action}
    (same : (splitPushes first).map Action.sketch = (splitPushes second).map Action.sketch) :
    program first = program second := by
  have actions : ∀ code : List Action, (realActions code).map Action.essential =
      (realActions (code.map Action.sketch)).map Action.essential := by
    intro code
    rw [realActions, realActions, List.filter_map, List.map_map]
    have kept : ((fun action => !action.isMarker) ∘ Action.sketch) =
        fun action : Action => !action.isMarker :=
      funext fun action => congrArg not action.isMarker_sketch
    rw [kept]
    exact List.map_congr_left fun action _ => action.essential_sketch.symm
  have goes : ∀ code : List Action, destinations (code.map Action.sketch) = destinations code :=
    destinations_map (fun _ => rfl) Action.isMarker_sketch fun action => by
      cases action with
      | plain instruction =>
        cases instruction with
        | branch branch => obtain ⟨conditional, offset, _ | label⟩ := branch <;> rfl
        | _ => rfl
      | _ => rfl
  have spans : ∀ code : List Action, enclosures (code.map Action.sketch) = enclosures code :=
    fun code => enclosuresFrom_map (fun _ => rfl) Action.isMarker_sketch (fun action => by
      cases action with
      | plain instruction =>
        cases instruction with
        | block opened => cases opened <;> rfl
        | _ => rfl
      | _ => rfl) code 0 []
  rw [program, program, actions, ← goes, ← spans, same, goes, spans, ← actions]

/-- **Merging pushes and entering offsets and sizes keep the program.** -/
theorem program_of_blank {actions others : List Action}
    (same : recastAll Instruction.blank (mergePushes actions) = recastAll Instruction.blank others) :
    program actions = program others := program_of_sketch (sketch_of_blank same)

end ActionCode
