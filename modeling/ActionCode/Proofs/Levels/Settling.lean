/-
**What resolving a sequence comes to.**

* `Instruction.blank`: an instruction without the offset of a labelled branch and the sizes of a
  block.
* `Settled`: branches are aimed and blocks are measured.
* **`resolve_ok_iff`**: a sequence is resolved as one that is blank as the merged one, and settled at
  every level.
-/

import ActionCode.Assembly
import ActionCode.Proofs.Blocks.Measuring
import ActionCode.Proofs.Labels.Resolving

namespace ActionCode

/-! ### Casts of casts -/

mutual

theorem Action.recast_recast (outer inner : Instruction → Instruction) :
    ∀ action : Action, (action.recast inner).recast outer = action.recast (outer ∘ inner)
  | .plain instruction => by
    rw [Action.recast, Action.recast, Action.recast]
    rfl
  | .define signature body => by
    rw [Action.recast, Action.recast, Action.recast, recastAll_recastAll outer inner body]
  | .marker marker => by
    rw [Action.recast, Action.recast, Action.recast]

theorem recastAll_recastAll (outer inner : Instruction → Instruction) :
    ∀ actions : List Action,
      recastAll outer (recastAll inner actions) = recastAll (outer ∘ inner) actions
  | [] => by rw [recastAll, recastAll, recastAll]
  | action :: rest => by
    rw [recastAll, recastAll, recastAll, Action.recast_recast outer inner action,
      recastAll_recastAll outer inner rest]

end

mutual

theorem Action.codeHolds_recast {holds : List Action → Prop} {cast : Instruction → Instruction}
    (blind : ∀ actions, holds (recastAll cast actions) ↔ holds actions) :
    ∀ action : Action, (action.recast cast).CodeHolds holds ↔ action.CodeHolds holds
  | .plain instruction => by
    rw [Action.recast, Action.CodeHolds, Action.CodeHolds]
  | .define signature body => by
    rw [Action.recast, Action.CodeHolds, Action.CodeHolds, blind,
      allCodeHolds_recastAll blind body]
  | .marker marker => by
    rw [Action.recast]

theorem allCodeHolds_recastAll {holds : List Action → Prop} {cast : Instruction → Instruction}
    (blind : ∀ actions, holds (recastAll cast actions) ↔ holds actions) :
    ∀ actions : List Action,
      AllCodeHolds holds (recastAll cast actions) ↔ AllCodeHolds holds actions
  | [] => by rw [recastAll]
  | action :: rest => by
    rw [recastAll, AllCodeHolds, AllCodeHolds, Action.codeHolds_recast blind action,
      allCodeHolds_recastAll blind rest]

end

/-- What a cast does not change holds of a sequence exactly if it holds after the cast. -/
theorem everyLevel_recastAll {holds : List Action → Prop} {cast : Instruction → Instruction}
    (blind : ∀ actions, holds (recastAll cast actions) ↔ holds actions) (actions : List Action) :
    EveryLevel holds (recastAll cast actions) ↔ EveryLevel holds actions :=
  and_congr (blind actions) (allCodeHolds_recastAll blind actions)

mutual

theorem Action.codeHolds_and {first second : List Action → Prop} :
    ∀ action : Action, action.CodeHolds (fun actions => first actions ∧ second actions) ↔
      action.CodeHolds first ∧ action.CodeHolds second
  | .plain instruction => by simp [Action.CodeHolds]
  | .define signature body => by
    rw [Action.CodeHolds, Action.CodeHolds, Action.CodeHolds, allCodeHolds_and body]
    exact and_and_and_comm
  | .marker marker => by simp [Action.CodeHolds]

theorem allCodeHolds_and {first second : List Action → Prop} :
    ∀ actions : List Action,
      AllCodeHolds (fun actions => first actions ∧ second actions) actions ↔
        AllCodeHolds first actions ∧ AllCodeHolds second actions
  | [] => by simp [AllCodeHolds]
  | action :: rest => by
    rw [AllCodeHolds, AllCodeHolds, AllCodeHolds, Action.codeHolds_and action,
      allCodeHolds_and rest]
    exact and_and_and_comm

end

theorem everyLevel_and {first second : List Action → Prop} (actions : List Action) :
    EveryLevel (fun actions => first actions ∧ second actions) actions ↔
      EveryLevel first actions ∧ EveryLevel second actions := by
  unfold EveryLevel
  rw [allCodeHolds_and]
  exact and_and_and_comm

mutual

/-- Two casts at once come one after the other. -/
theorem Action.exists_recast {both first second : Instruction → Instruction}
    (split : ∀ one other, both one = both other →
      ∃ between, first between = first one ∧ second between = second other) :
    ∀ action other : Action, action.recast both = other.recast both →
      ∃ between, Action.recast first between = action.recast first ∧
        Action.recast second between = other.recast second
  | .plain instruction, other, same => by
    cases other with
    | plain other =>
      rw [Action.recast, Action.recast] at same
      obtain ⟨between, before, after⟩ := split _ _ (Action.plain.inj same)
      refine ⟨.plain between, ?_, ?_⟩
      · rw [Action.recast, Action.recast, before]
      · rw [Action.recast, Action.recast, after]
    | _ =>
      rw [Action.recast, Action.recast] at same
      cases same
  | .define signature body, other, same => by
    cases other with
    | define other code =>
      rw [Action.recast, Action.recast] at same
      obtain ⟨rfl, codes⟩ := Action.define.inj same
      obtain ⟨between, before, after⟩ := exists_recastAll split body code codes
      refine ⟨.define signature between, ?_, ?_⟩
      · rw [Action.recast, Action.recast, before]
      · rw [Action.recast, Action.recast, after]
    | _ =>
      rw [Action.recast, Action.recast] at same
      cases same
  | .marker marker, other, same => by
    cases other with
    | marker other =>
      rw [Action.recast, Action.recast] at same
      cases same
      exact ⟨.marker marker, rfl, rfl⟩
    | _ =>
      rw [Action.recast, Action.recast] at same
      cases same

theorem exists_recastAll {both first second : Instruction → Instruction}
    (split : ∀ one other, both one = both other →
      ∃ between, first between = first one ∧ second between = second other) :
    ∀ actions others : List Action, recastAll both actions = recastAll both others →
      ∃ between, recastAll first between = recastAll first actions ∧
        recastAll second between = recastAll second others
  | [], others, same => by
    cases others with
    | nil => exact ⟨[], rfl, rfl⟩
    | cons other others =>
      rw [recastAll, recastAll] at same
      cases same
  | action :: rest, others, same => by
    cases others with
    | nil =>
      rw [recastAll, recastAll] at same
      cases same
    | cons other others =>
      rw [recastAll, recastAll] at same
      obtain ⟨head, tail⟩ := List.cons.inj same
      obtain ⟨between, before, after⟩ := Action.exists_recast split action other head
      obtain ⟨betweens, befores, afters⟩ := exists_recastAll split rest others tail
      refine ⟨between :: betweens, ?_, ?_⟩
      · rw [recastAll, recastAll, before, befores]
      · rw [recastAll, recastAll, after, afters]

end

/-! ### Blank instructions -/

/-- An instruction without the offset of a labelled branch and without the sizes of a block. -/
def Instruction.blank (instruction : Instruction) : Instruction := instruction.unaimed.unsized

theorem Instruction.blank_eq : Instruction.blank = Instruction.unsized ∘ Instruction.unaimed := rfl

theorem Instruction.blank_eq' : Instruction.blank = Instruction.unaimed ∘ Instruction.unsized := by
  funext instruction
  cases instruction <;> rfl

theorem keeps_blank : Keeps Instruction.blank where
  width instruction := (keeps_unsized.width _).trans (keeps_unaimed.width instruction)
  push _ := rfl
  other instruction other := keeps_unsized.other _ (keeps_unaimed.other instruction other)

theorem Instruction.blank_blank (instruction : Instruction) :
    instruction.blank.blank = instruction.blank := by
  cases instruction with
  | branch jump =>
    obtain ⟨conditional, offset, _ | label⟩ := jump <;> rfl
  | block block => cases block <;> rfl
  | _ => rfl

theorem Instruction.block_or_blank_eq (instruction : Instruction) :
    (∃ opened, instruction = .block opened) ∨
      instruction.blank = instruction.unaimed ∧ ∀ opened, instruction.unaimed ≠ .block opened := by
  cases instruction with
  | block opened => exact .inl ⟨opened, rfl⟩
  | _ => exact .inr ⟨rfl, fun opened equal => by cases equal⟩

/-- Instructions with equal blanks differ in a size or in an offset. -/
theorem Instruction.exists_between {one other : Instruction} (same : one.blank = other.blank) :
    ∃ between : Instruction, between.unaimed = one.unaimed ∧ between.unsized = other.unsized := by
  rcases one.block_or_blank_eq with ⟨opened, rfl⟩ | ⟨kept, plain⟩
  · rcases other.block_or_blank_eq with ⟨opened', rfl⟩ | ⟨kept', plain'⟩
    · exact ⟨.block opened, rfl, same⟩
    · exact absurd (kept'.symm.trans same.symm) (plain' _)
  · rcases other.block_or_blank_eq with ⟨opened', rfl⟩ | ⟨kept', plain'⟩
    · exact absurd (kept.symm.trans same) (plain _)
    · exact ⟨other, kept'.symm.trans (same.symm.trans kept), rfl⟩

/-! ### Settled sequences -/

/-- Labelled branches go where their labels are, and blocks have the sizes that their closings ask
for. -/
def Settled (actions : List Action) : Prop := Aimed (Extent.start.pieces actions) ∧ Measured actions

theorem label?_recast (cast : Instruction → Instruction) (action : Action) :
    (action.recast cast).label? = action.label? := by
  cases action <;> rw [Action.recast] <;> rfl

theorem branch?_recast_unsized (action : Action) :
    (action.recast Instruction.unsized).branch? = action.branch? := by
  cases action with
  | plain instruction =>
    rw [Action.recast]
    cases instruction <;> rfl
  | define signature body =>
    rw [Action.recast]
    rfl
  | marker marker => rw [Action.recast]

theorem marksOf_recast {β : Type} {view : Action → Option β} {cast : Instruction → Instruction}
    (blind : ∀ action : Action, view (action.recast cast) = view action) (position : Nat)
    (pieces : List Piece) :
    marksOf view position (pieces.map (Piece.recast cast)) = marksOf view position pieces :=
  marksOf_withAction blind position pieces

/-- Sizes do not change where branches go. -/
theorem aimed_recastAll_unsized (actions : List Action) :
    Aimed (Extent.start.pieces (recastAll Instruction.unsized actions)) ↔
      Aimed (Extent.start.pieces actions) := by
  have labels : labelMarks (Extent.start.pieces (recastAll Instruction.unsized actions)) =
      labelMarks (Extent.start.pieces actions) := by
    rw [labelMarks, Extent.pieces_recastAll keeps_unsized, marksOf_recast (label?_recast _)]
    rfl
  have branches : branchMarks (Extent.start.pieces (recastAll Instruction.unsized actions)) =
      branchMarks (Extent.start.pieces actions) := by
    rw [branchMarks, Extent.pieces_recastAll keeps_unsized, marksOf_recast branch?_recast_unsized]
    rfl
  constructor
  · rintro ⟨once, hits⟩
    rw [labels] at once hits
    rw [branches] at hits
    exact ⟨once, hits⟩
  · rintro ⟨once, hits⟩
    refine ⟨?_, ?_⟩
    · rw [labels]
      exact once
    · rw [labels, branches]
      exact hits

/-- Sequences have equal blanks exactly if another lies between them, which differs from the one in
offsets of labelled branches only and from the other in sizes of blocks only. -/
theorem recastAll_blank_eq_iff {actions result : List Action} :
    recastAll Instruction.blank actions = recastAll Instruction.blank result ↔
      ∃ between, recastAll Instruction.unaimed actions = recastAll Instruction.unaimed between ∧
        recastAll Instruction.unsized between = recastAll Instruction.unsized result := by
  constructor
  · intro same
    obtain ⟨between, before, after⟩ :=
      exists_recastAll (fun _ _ => Instruction.exists_between) _ _ same
    exact ⟨between, before.symm, after⟩
  · rintro ⟨between, same, same'⟩
    rw [Instruction.blank_eq, ← recastAll_recastAll, same, recastAll_recastAll,
      ← Instruction.blank_eq, Instruction.blank_eq', ← recastAll_recastAll, same',
      recastAll_recastAll]

/-- A sequence is resolved by two passes over the merged one, if it does not nest too deep. -/
theorem resolve_ok_iff_passes {settings : AssemblySettings} {actions result : List Action} :
    resolve settings actions = .ok result ↔
      nesting actions ≤ settings.maxDepth ∧ ∃ between,
        resolveBranches (mergePushes actions) = .ok between ∧ measureBlocks between = .ok result := by
  unfold resolve
  by_cases deep : settings.maxDepth < nesting actions
  · rw [if_pos deep]
    exact iff_of_false (by rintro ⟨⟩) fun both => Nat.not_lt.mpr both.1 deep
  · rw [if_neg deep]
    exact except_bind_ok_iff.trans (and_iff_right (Nat.not_lt.mp deep)).symm

/-- **A sequence is resolved as one with equal blanks, settled at every level**, if it does not nest
too deep. -/
theorem resolve_ok_iff {settings : AssemblySettings} {actions result : List Action} :
    resolve settings actions = .ok result ↔
      nesting actions ≤ settings.maxDepth ∧
        recastAll Instruction.blank (mergePushes actions) = recastAll Instruction.blank result ∧
        EveryLevel Settled result := by
  -- Measuring comes last, but it leaves branches aimed as they are.
  have kept : ∀ {between : List Action},
      recastAll Instruction.unsized between = recastAll Instruction.unsized result →
        (EveryLevel (fun actions => Aimed (Extent.start.pieces actions)) between ↔
          EveryLevel (fun actions => Aimed (Extent.start.pieces actions)) result) := by
    intro between same
    rw [← everyLevel_recastAll aimed_recastAll_unsized, same,
      everyLevel_recastAll aimed_recastAll_unsized]
  have settles : EveryLevel Settled result ↔ _ := everyLevel_and result
  rw [resolve_ok_iff_passes, recastAll_blank_eq_iff, settles]
  refine and_congr_right' ⟨?_, ?_⟩
  · rintro ⟨between, resolved, sized⟩
    obtain ⟨same, aimed⟩ := resolveBranches_ok_iff.mp resolved
    obtain ⟨same', measured⟩ := measureBlocks_ok_iff.mp sized
    exact ⟨⟨between, same, same'⟩, (kept same').mp aimed, measured⟩
  · rintro ⟨⟨between, same, same'⟩, aimed, measured⟩
    exact ⟨between, resolveBranches_ok_iff.mpr ⟨same, (kept same').mpr aimed⟩,
      measureBlocks_ok_iff.mpr ⟨same', measured⟩⟩

/-- **A sequence is assembled to the bytes that it is written as once it is resolved.** -/
theorem assemble_ok_iff {settings : AssemblySettings} {actions : List Action}
    {bytes : List UInt8} :
    (assemble settings actions).result = .ok bytes ↔
      ∃ resolved, resolve settings actions = .ok resolved ∧
        imageFrom false resolved = some bytes := by
  unfold assemble
  cases isResolved : resolve settings actions with
  | error fault => exact iff_of_false (by rintro ⟨⟩) fun ⟨_, isOk, _⟩ => by cases isOk
  | ok resolved =>
    have images : (writeSequence resolved).run = (.ok (), bytes) ↔
        imageFrom false resolved = some bytes :=
      Writer.run_ok_iff (writeFrom_images false resolved)
    dsimp only
    constructor
    · intro success
      refine ⟨resolved, rfl, images.mp ?_⟩
      split at success
      · cases success
      · rename_i ran
        cases success
        exact ran
    · rintro ⟨_, ⟨⟩, written⟩
      rw [images.mpr written]

end ActionCode
