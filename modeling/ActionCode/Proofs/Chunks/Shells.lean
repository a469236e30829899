/-
**Records without their code.**

* `Chunk.shell`: a record with the room it takes and without its code.
* `EveryCode`: something holds of the records of a buffer and of those of all code inside.
* `SpansNest`: the spans of blocks nest. `joins`: how many records of pushes are merged into others.
* **`shells_piecesFrom`**: records become pieces with the same outlines.
-/

import ActionCode.Proofs.Chunks.Writing
import ActionCode.Proofs.Merging.Joins

namespace ActionCode

/-! ### Shells -/

/-- The action of a record. The code of a definition is left out. -/
def Chunk.action : Chunk → Action
  | .instruction found _ => .plain found
  | .definition signature _ _ => .define signature []

/-- A record without its code, and the room it takes. -/
def Chunk.shell (chunk : Chunk) : Piece := ⟨chunk.action, chunk.bytes.length, 1⟩

/-- Records without their code. -/
def shells (chunks : List Chunk) : List Piece := chunks.map Chunk.shell

/-- Spans nest: a block that opens inside a span of an earlier one ends inside that span. -/
def SpansNest (chunks : List Chunk) : Prop := Nested 0 (layout (shells chunks))

/-- The operands of the booleans that a record pushes. -/
def Chunk.booleans : Chunk → List UInt8
  | .instruction (.pushList _) bytes => booleanOperands (bytes.drop headWidth)
  | _ => []

/-- The operands of all booleans that are pushed are zero or one. -/
def BooleansTidy (chunks : List Chunk) : Prop :=
  ∀ chunk ∈ chunks, ∀ byte ∈ chunk.booleans, byte = 0 ∨ byte = 1

instance : DecidablePred SpansNest := fun chunks =>
  inferInstanceAs (Decidable (Nested 0 (layout (shells chunks))))

instance : DecidablePred BooleansTidy := fun chunks =>
  inferInstanceAs (Decidable (∀ chunk ∈ chunks, ∀ byte ∈ chunk.booleans, byte = 0 ∨ byte = 1))

/-! ### Every level -/

mutual

/-- Something holds of the records of all code inside a record. -/
def Chunk.CodeHolds (holds : List Chunk → Prop) : Chunk → Prop
  | .instruction _ _ => True
  | .definition _ _ code => holds code ∧ AllCode holds code

/-- Something holds of the records of all code inside some records. -/
def AllCode (holds : List Chunk → Prop) : List Chunk → Prop
  | [] => True
  | chunk :: rest => chunk.CodeHolds holds ∧ AllCode holds rest

end

theorem allCode_iff {holds : List Chunk → Prop} {chunks : List Chunk} :
    AllCode holds chunks ↔ ∀ chunk ∈ chunks, chunk.CodeHolds holds := by
  induction chunks with
  | nil =>
    rw [AllCode]
    exact iff_of_true trivial fun _ inside => absurd inside List.not_mem_nil
  | cons chunk rest ih => rw [AllCode, List.forall_mem_cons, ih]

/-- Something holds of some records and of the records of all code inside. -/
def EveryCode (holds : List Chunk → Prop) (chunks : List Chunk) : Prop :=
  holds chunks ∧ AllCode holds chunks

mutual

/-- Whether something holds of the records of all code inside a record. -/
instance Chunk.decidableCodeHolds (holds : List Chunk → Prop) [DecidablePred holds] :
    DecidablePred (Chunk.CodeHolds holds)
  | .instruction _ _ => .isTrue (by rw [Chunk.CodeHolds]; trivial)
  | .definition _ _ code =>
    have := decidableAllCode holds code
    decidable_of_iff (holds code ∧ AllCode holds code) (by rw [Chunk.CodeHolds])

/-- Whether something holds of the records of all code inside some records. -/
instance decidableAllCode (holds : List Chunk → Prop) [DecidablePred holds] :
    DecidablePred (AllCode holds)
  | [] => .isTrue (by rw [AllCode]; trivial)
  | chunk :: rest =>
    have := Chunk.decidableCodeHolds holds chunk
    have := decidableAllCode holds rest
    decidable_of_iff (chunk.CodeHolds holds ∧ AllCode holds rest) (by rw [AllCode])

end

instance (holds : List Chunk → Prop) [DecidablePred holds] : DecidablePred (EveryCode holds) :=
  fun chunks => inferInstanceAs (Decidable (holds chunks ∧ AllCode holds chunks))

mutual

/-- How many records of pushes are joined with the one before, in all code of a record. -/
def Chunk.joins : Chunk → Nat
  | .instruction _ _ => 0
  | .definition _ _ code => ownJoins (shells code) + innerJoins code

/-- How many records of pushes are joined with the one before, in all code of some records. -/
def innerJoins : List Chunk → Nat
  | [] => 0
  | chunk :: rest => chunk.joins + innerJoins rest

end

/-- How many records of pushes are joined with the one before, at every level. -/
def joins (chunks : List Chunk) : Nat := ownJoins (shells chunks) + innerJoins chunks

/-! ### Pieces -/

/-- A piece has the outline of another, and pushes the same. -/
structure Piece.Alike (piece other : Piece) : Prop where
  outline : piece.outline = other.outline
  pushed : piece.action.pushed = other.action.pushed

theorem Chunk.alike_piece (nextLabel : Nat) (chunk : Chunk) :
    (chunk.piece nextLabel).1.Alike chunk.shell := by
  cases chunk with
  | instruction found bytes =>
    rw [piece]
    exact ⟨rfl, rfl⟩
  | definition signature bytes code =>
    rw [piece]
    exact ⟨rfl, rfl⟩

/-- **Records become pieces with the same outlines.** -/
theorem shells_piecesFrom (nextLabel : Nat) (chunks : List Chunk) :
    List.Forall₂ Piece.Alike (piecesFrom nextLabel chunks).1 (shells chunks) := by
  induction chunks generalizing nextLabel with
  | nil =>
    rw [piecesFrom]
    exact .nil
  | cons chunk rest ih =>
    rw [piecesFrom]
    exact .cons (chunk.alike_piece nextLabel) (ih _)

theorem map_outline_of_alike {pieces others : List Piece}
    (alike : List.Forall₂ Piece.Alike pieces others) :
    pieces.map Piece.outline = others.map Piece.outline := by
  induction alike with
  | nil => rfl
  | cons first _ ih => rw [List.map_cons, List.map_cons, first.outline, ih]

theorem layout_of_outline {pieces others : List Piece}
    (same : pieces.map Piece.outline = others.map Piece.outline) : layout pieces = layout others := by
  have view : ∀ pieces : List Piece, layout pieces =
      (pieces.map Piece.outline).map fun outline => (outline.1, outline.2.2.1) := fun pieces => by
    rw [List.map_map]
    rfl
  rw [view, view, same]

/-- The spans of pieces nest if those of their records do. -/
theorem SpansNest.nested {chunks : List Chunk} (nest : SpansNest chunks) (nextLabel : Nat) :
    Nested 0 (layout (piecesFrom nextLabel chunks).1) := by
  rw [layout_of_outline (map_outline_of_alike (shells_piecesFrom nextLabel chunks))]
  exact nest

/-- The same pushes are joined among pieces as among their records. -/
theorem ownJoins_piecesFrom (nextLabel : Nat) (chunks : List Chunk) :
    ownJoins (piecesFrom nextLabel chunks).1 = ownJoins (shells chunks) := by
  have alike := shells_piecesFrom nextLabel chunks
  have same := map_outline_of_alike alike
  refine joinsFrom_congr (fun place => ?_) (alike.imp fun _ _ both =>
    ⟨both.pushed, congrArg (fun outline => outline.2.2.1) both.outline⟩) 0
  unfold Divided
  rw [targetsFrom_of_outline same, layout_of_outline same]

end ActionCode
