/-
**Examination only annotates.**

* `Instruction.uncounted`: an instruction without its count.
* **`examineAround_congr`**: counts that are there already make no difference to those that are found.
  The stack is followed through two such sequences in step, and what is made of each action is the
  same.
* **`examine_annotates`**: nothing but counts is entered, at every level; they depend neither on counts
  that were there nor on what surrounds the code; and neither assembly nor disassembly depends on them.
-/

import ActionCode.Proofs.Counts.Alone
import ActionCode.Proofs.Counts.Examining
import ActionCode.Proofs.Flow.Lockstep

namespace ActionCode

/-! ### Without counts -/

/-- An instruction whose count is left open, if it has one. -/
def Instruction.uncounted : Instruction → Instruction
  | .counted op _ => .counted op none
  | instruction => instruction

theorem dropsCounts_uncounted : DropsCounts Instruction.uncounted := fun _ _ => rfl

/-- Following the stack does not see the count that an action has. -/
theorem simulate_uncounted (slots : Slots) (action : Action) :
    simulate slots (action.recastShell Instruction.uncounted) = simulate slots action := by
  cases action with
  | plain instruction => cases instruction <;> rfl
  | define signature body => rfl
  | marker found => rfl

/-- The same is made of actions that differ in their counts only. -/
theorem simulate_congr {action other : Action}
    (same : action.recastShell Instruction.uncounted = other.recastShell Instruction.uncounted)
    (slots : Slots) : simulate slots action = simulate slots other := by
  rw [← simulate_uncounted, same, simulate_uncounted]

/-! ### One sequence -/

/-- Two actions differ in their counts only, and what code they hold is the same. -/
def Action.Alike (action other : Action) : Prop :=
  action.recastShell Instruction.uncounted = other.recastShell Instruction.uncounted

/-- Two sequences that differ in their counts only are followed in step. -/
theorem inStep_alike {actions others : List Action}
    (alike : List.Forall₂ Action.Alike actions others) :
    InStep simulate simulate (labelIndices actions) (labelIndices others) Eq Action.Alike Eq where
  examined := by
    rintro slots _ action other rfl alike
    exact simulate_congr alike slots
  state := by
    rintro observed _ rfl
    rfl
  flow := by
    rintro observed _ rfl index
    refine successors_congr (getElem?_labelIndices_congr (fun {action other} alike => ?_) alike)
      rfl rfl index
    rw [← label?_recastShell Instruction.uncounted action, alike, label?_recastShell]

/-- Two rows differ in the count of their action only. -/
structure RowsAlike (row other : Action × List Clearing) : Prop where
  action : row.1.Alike other.1
  reports : row.2 = other.2

/-- **Counts that are there already make no difference**, neither to those that are found nor to the
reports. -/
theorem examineAround_congr {rows others : List (Action × List Clearing)}
    (alike : List.Forall₂ RowsAlike rows others) (seedSlots : Nat) :
    examineAround seedSlots rows.toArray = examineAround seedSlots others.toArray := by
  have actions : List.Forall₂ Action.Alike (rows.map Prod.fst) (others.map Prod.fst) :=
    List.rel_map (fun _ _ pair => pair.action) alike
  have reports : rows.map Prod.snd = others.map Prod.snd :=
    List.forall₂_eq_eq_eq ▸ List.rel_map (fun _ _ pair => pair.reports) alike
  have visits := (inStep_alike actions).visits (Eq.refl (Slots.unknowns seedSlots)) actions
  have left : List.Forall₂ Eq _ _ :=
    (inStep_alike actions).traversed (Eq.refl (Slots.unknowns seedSlots)) actions
      (congrArg Observation.action)
  rw [List.forall₂_eq_eq_eq] at left
  have inner (index : Nat) : rows[index]?.map Prod.snd = others[index]?.map Prod.snd := by
    rw [← List.getElem?_map, reports, List.getElem?_map]
  unfold examineAround
  refine congrArg₂ Examined.mk left (List.forall₂_eq_eq_eq ▸ List.rel_flatMap visits ?_)
  intro visit visit' (pair : Visit.Pairs Eq Eq visit visit')
  dsimp only
  rw [List.forall₂_eq_eq_eq, pair.index, pair.made, List.getElem?_toArray, List.getElem?_toArray]
  have same := inner visit'.index
  revert same
  cases rows[visit'.index]? <;> cases others[visit'.index]? <;> intro same
  · rfl
  · cases same
  · cases same
  · exact congrArg (· ++ visit'.observed.notes) (Option.some.inj same)

/-! ### Every level -/

mutual

theorem examineCode_congr (seedSlots : Nat) : ∀ {action other : Action},
    action.recast Instruction.uncounted = other.recast Instruction.uncounted →
      RowsAlike (examineCode seedSlots action) (examineCode seedSlots other)
  | .plain instruction, other => fun same => by
    cases other with
    | plain instruction' =>
      rw [examineCode_plain, examineCode_plain]
      exact ⟨same, rfl⟩
    | _ => cases same
  | .define signature body, other => fun same => by
    cases other with
    | define signature' body' =>
      rw [Action.recast, Action.recast] at same
      obtain ⟨rfl, inner⟩ := Action.define.inj same
      have examined : examine body seedSlots = examine body' seedSlots := by
        rw [examine_eq, examine_eq]
        exact examineAround_congr (examineCode_congr_all seedSlots inner) seedSlots
      rw [examineCode_define, examineCode_define, examined]
      exact ⟨rfl, rfl⟩
    | _ => cases same
  | .marker found, other => fun same => by
    cases other with
    | marker found' =>
      rw [examineCode_marker, examineCode_marker]
      exact ⟨same, rfl⟩
    | _ => cases same

theorem examineCode_congr_all (seedSlots : Nat) : ∀ {actions others : List Action},
    recastAll Instruction.uncounted actions = recastAll Instruction.uncounted others →
      List.Forall₂ RowsAlike (actions.map (examineCode seedSlots))
        (others.map (examineCode seedSlots))
  | [], others => fun same => by
    cases others with
    | nil => exact .nil
    | cons other others => cases same
  | action :: rest, others => fun same => by
    cases others with
    | nil => cases same
    | cons other others =>
      rw [recastAll, recastAll] at same
      obtain ⟨first, later⟩ := List.cons.inj same
      exact .cons (examineCode_congr seedSlots first) (examineCode_congr_all seedSlots later)

end

/-- **Sequences that differ in their counts only are given the same ones.** -/
theorem examine_congr {actions others : List Action}
    (same : recastAll Instruction.uncounted actions = recastAll Instruction.uncounted others)
    (seedSlots : Nat) : examine actions seedSlots = examine others seedSlots := by
  rw [examine_eq, examine_eq]
  exact examineAround_congr (examineCode_congr_all seedSlots same) seedSlots

/-! ### Annotated sequences -/

/-- Disassembly looks for counts last, in what it finds without them. -/
theorem result_disassemble_raw (settings : DisassemblySettings) (bytes : List UInt8) :
    (disassemble settings bytes).result =
      (disassemble { settings with examineStack := false } bytes).result.map settings.examined := by
  rw [result_disassemble, result_disassemble]
  cases disassembleBlock settings.maxDepth 0 (Cursor.start 0 bytes) ⟨0, #[]⟩ <;> rfl

/-- **Examination only annotates.** A sequence that is examined stays as it is, but for its counts, at
every level. Counts that were there make no difference to what is found and reported, so that a second
examination changes nothing. The code that a path leads to is left as it is left alone. What has been
examined is assembled as if it had not been; and a buffer is disassembled with counts exactly if it is
without, into sequences that differ in these only. -/
theorem examine_annotates (seedSlots : Nat) :
    (∀ actions, recastAll Instruction.uncounted (examine actions seedSlots).actions =
      recastAll Instruction.uncounted actions) ∧
    (∀ actions others,
      recastAll Instruction.uncounted actions = recastAll Instruction.uncounted others →
        examine actions seedSlots = examine others seedSlots) ∧
    (∀ actions, examine (examine actions seedSlots).actions seedSlots = examine actions seedSlots) ∧
    (∀ path actions, codeAt? path (examine actions seedSlots).actions =
      (codeAt? path actions).map fun code => (examine code seedSlots).actions) ∧
    (∀ settings actions, assemble settings (examine actions seedSlots).actions =
      assemble settings actions) ∧
    ∀ maxDepth bytes,
      (disassemble ⟨true, maxDepth, seedSlots⟩ bytes).result =
        (disassemble ⟨false, maxDepth, seedSlots⟩ bytes).result.map (fun actions =>
          (examine actions seedSlots).actions) ∧
      (disassemble ⟨true, maxDepth, seedSlots⟩ bytes).result.map (recastAll Instruction.uncounted) =
        (disassemble ⟨false, maxDepth, seedSlots⟩ bytes).result.map
          (recastAll Instruction.uncounted) := by
  have only := fun actions => recastAll_examine dropsCounts_uncounted actions seedSlots
  refine ⟨only, fun actions others same => examine_congr same seedSlots,
    fun actions => examine_congr (only actions) seedSlots,
    fun path actions => codeAt?_examine path actions seedSlots,
    fun settings actions => assemble_examined ⟨true, 0, seedSlots⟩ settings actions,
    fun maxDepth bytes => ?_⟩
  have whole := result_disassemble_raw ⟨true, maxDepth, seedSlots⟩ bytes
  refine ⟨whole, ?_⟩
  rw [whole]
  cases (disassemble ⟨false, maxDepth, seedSlots⟩ bytes).result with
  | error fault => rfl
  | ok actions => exact congrArg Except.ok (only actions)

/-- The code of a definition calls a function with a stale count; around it, an array is built of what
is not known. -/
def staleCounts (called built : Option Nat) : List Action :=
  [.define (.simple "f" []) [.plain (.push (.integer 0)), .plain (.push (.text "g")),
    .plain (.counted .callFunction called)], .plain (.counted .initArray built)]

/-- The call is given its own count, and the array none, whatever they had before. -/
theorem examine_annotates_stale :
    recastAll Instruction.uncounted (staleCounts (some 7) (some 9)) =
      recastAll Instruction.uncounted (staleCounts none (some 1)) ∧
    examine (staleCounts (some 7) (some 9)) 4 = examine (staleCounts none (some 1)) 4 ∧
    (examine (staleCounts none (some 1)) 4).actions = staleCounts (some 0) none := by
  have same : recastAll Instruction.uncounted (staleCounts (some 7) (some 9)) =
      recastAll Instruction.uncounted (staleCounts none (some 1)) := rfl
  exact ⟨same, (examine_annotates 4).2.1 _ _ same, by decide +kernel⟩

end ActionCode
