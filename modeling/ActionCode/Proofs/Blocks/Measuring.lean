/-
**Measuring adjusts sizes only.**

* `Measured`: the blocks of a sequence have the sizes that its closings ask for.
* **`measureOwnBlocks_ok_iff_measured`**: a sequence is measured as one that differs in the sizes of
  its blocks only, and that is measured.
-/

import ActionCode.Proofs.Blocks.Scan
import ActionCode.Proofs.Levels.Widths

namespace ActionCode

/-! ### Sizes -/

/-- A block without its sizes; other instructions stay. -/
def Instruction.unsized : Instruction → Instruction
  | .block opened => .block opened.unsized
  | instruction => instruction

theorem keeps_unsized : Keeps Instruction.unsized where
  width instruction := by
    cases instruction with
    | block opened =>
      rcases opened with size | ⟨frame | _, skipCount⟩ | ⟨flags, trySize, catchSize, finallySize, target⟩
      · rfl
      · rfl
      · rfl
      · cases target <;> rfl
    | _ => rfl
  push _ := rfl
  other instruction other := by
    cases instruction with
    | block opened => rfl
    | _ => exact other

theorem Action.eq_block_of_block? {action : Action} {block : Block}
    (found : action.block? = some block) : action = .plain (.block block) := by
  cases action with
  | plain instruction =>
    cases instruction with
    | block opened =>
      cases found
      rfl
    | _ => cases found
  | _ => cases found

theorem Action.block?_recastShell_unsized (action : Action) :
    (action.recastShell Instruction.unsized).block? = action.block?.map Block.unsized := by
  cases action with
  | plain instruction =>
    cases instruction with
    | block opened => rfl
    | _ => rfl
  | _ => rfl

theorem Action.recastShell_unsized_of_other {action : Action} (other : action.block? = none) :
    action.recastShell Instruction.unsized = action := by
  cases action with
  | plain instruction =>
    cases instruction with
    | block opened => cases other
    | _ => rfl
  | _ => rfl

/-- What differs in sizes only from an action that opens no block is that action. -/
theorem Action.eq_of_recastShell_unsized {action other : Action}
    (same : action.recastShell Instruction.unsized = other.recastShell Instruction.unsized)
    (none : action.block? = none) : action = other := by
  have view := congrArg Action.block? same
  rw [block?_recastShell_unsized, block?_recastShell_unsized, none] at view
  rw [recastShell_unsized_of_other none,
    recastShell_unsized_of_other (Option.map_eq_none_iff.mp view.symm)] at same
  exact same

/-- What differs in sizes only from a block is one. -/
theorem Action.block_of_recastShell_unsized {action : Action} {block : Block}
    (same : (Action.plain (.block block)).recastShell Instruction.unsized =
      action.recastShell Instruction.unsized) :
    ∃ other, action = .plain (.block other) ∧ other.unsized = block.unsized := by
  have view := congrArg Action.block? same
  rw [block?_recastShell_unsized, block?_recastShell_unsized] at view
  obtain ⟨other, found, equal⟩ := Option.map_eq_some_iff.mp view.symm
  exact ⟨other, eq_block_of_block? found, equal⟩

/-! ### Closings -/

theorem Extent.map_action_pieces (before : Extent) (actions : List Action) :
    (before.pieces actions).map Piece.action = actions := by
  induction actions generalizing before with
  | nil => rfl
  | cons action rest ih =>
    rw [Extent.pieces, List.map_cons, ih]
    rfl

/-- Closings ask for the same sizes if blocks have others. -/
theorem Closes.of_recastShell {point : Point} {pieces others : List Piece} {sized : List Action}
    {stack : List Pending} (closes : Closes point pieces sized stack)
    (same : pieces.map (Piece.recastShell Instruction.unsized) =
      others.map (Piece.recastShell Instruction.unsized)) : Closes point others sized stack := by
  induction closes generalizing others with
  | nil point =>
    rw [List.map_eq_nil_iff.mp same.symm]
    exact .nil point
  | @flat point piece rest sized stack flat later ih =>
    rcases others with _ | ⟨⟨action, bytes, records⟩, others⟩
    · cases same
    · obtain ⟨first, sames⟩ := List.cons.inj same
      obtain ⟨equal, rfl, rfl⟩ := Piece.mk.inj first
      have kept := Action.eq_of_recastShell_unsized equal flat.block
      change piece.action = action at kept
      subst kept
      exact .flat flat (ih sames)
  | @opening point piece old new rest sized own stack opens unsized spanned later ih =>
    rcases others with _ | ⟨⟨action, bytes, records⟩, others⟩
    · cases same
    · obtain ⟨first, sames⟩ := List.cons.inj same
      obtain ⟨equal, rfl, rfl⟩ := Piece.mk.inj first
      rw [opens] at equal
      obtain ⟨other, kept, unsized'⟩ := Action.block_of_recastShell_unsized equal
      exact .opening kept (unsized'.trans unsized) spanned (ih sames)
  | @closing point marker rest sized stack closes later ih =>
    rcases others with _ | ⟨⟨action, bytes, records⟩, others⟩
    · cases same
    · obtain ⟨first, sames⟩ := List.cons.inj same
      obtain ⟨equal, rfl, rfl⟩ := Piece.mk.inj first
      have kept := Action.eq_of_recastShell_unsized equal rfl
      change Action.marker marker = action at kept
      subst kept
      exact .closing closes (ih sames)

/-- Only the sizes of blocks are entered. -/
theorem Closes.map_recastShell {point : Point} {pieces : List Piece} {sized : List Action}
    {stack : List Pending} (closes : Closes point pieces sized stack) :
    (pieces.map Piece.action).map (Action.recastShell Instruction.unsized) =
      sized.map (Action.recastShell Instruction.unsized) := by
  induction closes with
  | nil point => rfl
  | flat flat later ih => rw [List.map_cons, List.map_cons, ih, List.map_cons]
  | opening opens unsized spanned later ih =>
    rw [List.map_cons, List.map_cons, ih, List.map_cons, opens, Action.recastShell,
      Action.recastShell, Instruction.unsized, Instruction.unsized, unsized]
  | closing closes later ih =>
    rw [List.map_cons, List.map_cons, ih, List.map_cons]
    rfl

/-! ### Sequences -/

/-- The blocks of a sequence have the sizes that its closings ask for. -/
def Measured (actions : List Action) : Prop :=
  Closes ⟨0, 0⟩ (Extent.start.pieces actions) actions []

/-- **A sequence is measured as one that differs in the sizes of its blocks only, and that is
measured.** -/
theorem measureOwnBlocks_ok_iff_measured {actions sized : List Action} :
    measureOwnBlocks actions = .ok sized ↔
      actions.map (Action.recastShell Instruction.unsized) =
          sized.map (Action.recastShell Instruction.unsized) ∧ Measured sized := by
  have pieces : ∀ {first second : List Action},
      first.map (Action.recastShell Instruction.unsized) =
          second.map (Action.recastShell Instruction.unsized) →
        (Extent.start.pieces first).map (Piece.recastShell Instruction.unsized) =
          (Extent.start.pieces second).map (Piece.recastShell Instruction.unsized) := by
    intro first second same
    rw [← Extent.pieces_recastShell keeps_unsized, same, Extent.pieces_recastShell keeps_unsized]
  rw [measureOwnBlocks_ok_iff]
  constructor
  · intro closes
    have same := closes.map_recastShell
    rw [Extent.map_action_pieces] at same
    exact ⟨same, closes.of_recastShell (pieces same)⟩
  · rintro ⟨same, measured⟩
    exact Closes.of_recastShell measured (pieces same.symm)

/-- Measuring adjusts the sizes of blocks. -/
theorem adjusts_measureOwnBlocks : Adjusts measureOwnBlocks Instruction.unsized :=
  adjusts_of_settles measureOwnBlocks_ok_iff_measured

/-- **Blocks are measured to those of a sequence that differs in their sizes only**, and that is
measured at every level. -/
theorem measureBlocks_ok_iff {actions sized : List Action} :
    measureBlocks actions = .ok sized ↔
      recastAll Instruction.unsized actions = recastAll Instruction.unsized sized ∧
        EveryLevel Measured sized :=
  tryLevels_settles measureOwnBlocks_ok_iff_measured

end ActionCode
