/-
**Where the text of an action breaks its line.**

* `newlines`: how many newlines a text has. Numerals have none, and neither has quoted text, whatever
  is quoted (`newlines_quoted`).
* **`Action.newlines_shown`**: an action is shown with the newlines of its parameter names and no
  others. These names alone are shown as they are.
-/

import ActionCode.Listing
import ActionCode.Proofs.Emission.Records

namespace ActionCode

/-! ### Newlines -/

/-- How many newlines a text has. -/
def newlines (text : String) : Nat := text.toList.count '\n'

@[simp] theorem newlines_append (front back : String) :
    newlines (front ++ back) = newlines front + newlines back := by
  simp [newlines]

@[simp] theorem newlines_toString (text : String) : newlines (toString text) = newlines text := rfl

theorem newlines_eq_zero_iff {text : String} : newlines text = 0 ↔ '\n' ∉ text.toList :=
  List.count_eq_zero

@[simp] theorem newlines_ofList_eq_zero_iff {chars : List Char} :
    newlines (String.ofList chars) = 0 ↔ '\n' ∉ chars := by
  simp [newlines_eq_zero_iff]

theorem sum_newlines_eq_zero_iff {texts : List String} :
    (texts.map newlines).sum = 0 ↔ ∀ text ∈ texts, '\n' ∉ text.toList := by
  simp [List.sum_eq_zero_iff_forall_eq_nat, newlines_eq_zero_iff]

/-- Texts written one after another have the newlines of each. -/
theorem newlines_foldl {α : Type} (shown : α → String) (start : String) (items : List α) :
    newlines (items.foldl (fun text item => text ++ shown item) start) =
      newlines start + (items.map fun item => newlines (shown item)).sum := by
  induction items generalizing start with
  | nil => simp
  | cons item rest ih => simp [ih, Nat.add_assoc]

theorem newlines_commaSeparated (items : List String) :
    newlines (Text.commaSeparated items) = (items.map newlines).sum := by
  induction items with
  | nil => rfl
  | cons item rest ih =>
    cases rest with
    | nil => simp [Text.commaSeparated]
    | cons next rest =>
      have comma : newlines ", " = 0 := rfl
      rw [List.map_cons, List.sum_cons, ← ih, Text.commaSeparated, String.intercalate_cons_cons,
        newlines_append, newlines_append, comma, Nat.add_zero]
      rfl

/-- Between commas, nothing but the items has newlines. -/
theorem newlines_commaSeparated_map {α : Type} {shown : α → String} {items : List α}
    (whole : ∀ item, newlines (shown item) = 0) :
    newlines (Text.commaSeparated (items.map shown)) = 0 := by
  simp [newlines_commaSeparated, Function.comp_def, whole]

/-! ### Numerals -/

theorem exists_digit_of_mem_toDigits {base value : Nat} (wide : 1 < base) {char : Char}
    (inside : char ∈ Nat.toDigits base value) : ∃ digit < base, char = digit.digitChar := by
  induction value using Nat.strongRecOn with
  | ind value ih =>
    rw [Nat.toDigits_eq_if wide] at inside
    split_ifs at inside with small
    · exact ⟨value, small, List.mem_singleton.mp inside⟩
    · rcases List.mem_append.mp inside with higher | last
      · exact ih _ (Nat.div_lt_self (by omega) wide) higher
      · exact ⟨value % base, Nat.mod_lt _ (by omega), List.mem_singleton.mp last⟩

theorem newline_notMem_toDigits {base : Nat} (wide : 1 < base) (value : Nat) :
    '\n' ∉ Nat.toDigits base value := by
  intro inside
  obtain ⟨digit, _, isDigit⟩ := exists_digit_of_mem_toDigits wide inside
  simp at isDigit

@[simp] theorem newlines_natural (value : Nat) : newlines value.repr = 0 := by
  rw [Nat.repr_eq_ofList_toDigits, newlines_ofList_eq_zero_iff]
  exact newline_notMem_toDigits (by decide) value

@[simp] theorem newlines_integer (value : Int) : newlines value.repr = 0 := by
  rw [Int.repr_eq_if]
  split_ifs <;> simp +decide

theorem newlines_signed (value : Int) : newlines (signed value) = 0 := by
  unfold signed
  split_ifs <;> simp +decide

namespace Text

@[simp] theorem newlines_hexLower (value : Nat) : newlines (hexLower value) = 0 := by
  rw [hexLower, newlines_ofList_eq_zero_iff]
  exact newline_notMem_toDigits (by decide) value

@[simp] theorem newlines_hexUpper (width value : Nat) : newlines (hexUpper width value) = 0 := by
  have upper : ∀ digit < 16, digit.digitChar.toUpper ≠ '\n' := by decide
  have digits : '\n' ∉ (Nat.toDigits 16 value).map Char.toUpper := by
    intro inside
    obtain ⟨char, isDigit, isNewline⟩ := List.mem_map.mp inside
    obtain ⟨digit, small, rfl⟩ := exists_digit_of_mem_toDigits (by decide) isDigit
    exact upper digit small isNewline
  rw [hexUpper, newlines_ofList_eq_zero_iff, List.mem_append, not_or]
  exact ⟨by simp, digits⟩

end Text

namespace Floating

theorem newlines_positional {integralEnd : String} (whole : newlines integralEnd = 0)
    (decimal : Decimal) : newlines (decimal.positional integralEnd) = 0 := by
  have digits := newline_notMem_toDigits (by decide : 1 < 10) decimal.digits
  unfold Decimal.positional
  split
  · simp [digits, whole]
  · have padded : ∀ zeros, '\n' ∉ List.replicate zeros '0' ++ Nat.toDigits 10 decimal.digits := by
      simp [digits]
    have point : newlines "." = 0 := rfl
    simp only [newlines_append, point, Nat.add_zero, Nat.add_eq_zero_iff,
      newlines_ofList_eq_zero_iff]
    exact ⟨fun inside => padded _ (List.mem_of_mem_take inside),
      fun inside => padded _ (List.mem_of_mem_drop inside)⟩

theorem newlines_scientific (decimal : Decimal) : newlines decimal.scientific = 0 := by
  have digits := newline_notMem_toDigits (by decide : 1 < 10) decimal.digits
  have first : '\n' ∉ (Nat.toDigits 10 decimal.digits).take 1 :=
    fun inside => digits (List.mem_of_mem_take inside)
  have others : '\n' ∉ (Nat.toDigits 10 decimal.digits).tail :=
    fun inside => digits (List.mem_of_mem_tail inside)
  simp only [Decimal.scientific]
  split_ifs <;> simp +decide [first, others]

theorem newlines_numeral {style : NumeralStyle} (whole : newlines style.integralEnd = 0)
    (format : BinaryFormat) (word : Nat) : newlines (numeral format style word) = 0 := by
  have decimal : ∀ decimal, newlines (style.decimal decimal) = 0 := by
    intro decimal
    unfold NumeralStyle.decimal
    split
    · exact newlines_positional whole decimal
    · split_ifs
      · exact newlines_positional whole decimal
      · exact newlines_scientific decimal
  simp only [numeral]
  split
  · rfl
  all_goals split_ifs <;> simp +decide [whole, decimal]

end Floating

/-! ### Quoted text -/

theorem newlines_shownChar (char : Char) : newlines (Text.shownChar char) = 0 := by
  unfold Text.shownChar
  split
  any_goals rfl
  -- What has no short escape is no newline, so it may be shown as itself.
  rename_i other _ _ _
  split_ifs
  · simp +decide
  · rw [newlines_eq_zero_iff]
    simpa [eq_comm] using other

/-- **A quoted text is on one line.** -/
@[simp] theorem newlines_quoted (text : String) : newlines (Text.quoted text) = 0 := by
  rw [Text.quoted, String.foldl_eq_foldl_toList, newlines_append, newlines_foldl]
  simp +decide [newlines_shownChar]

/-! ### Operands -/

theorem Opcode.newlines_name (op : Opcode) : newlines op.name = 0 := by
  rw [newlines_eq_zero_iff]
  cases op <;> simp [name]

theorem Register.newlines_text (register : Register) : newlines register.text = 0 := by
  simp +decide [text]

theorem Label.newlines_text (label : Label) : newlines label.text = 0 := by
  simp +decide [text]

theorem Marker.newlines_shown (marker : Marker) : newlines marker.shown = 0 := by
  cases marker with
  | label id => simp +decide [shown, Label.newlines_text]
  | _ => rfl

theorem PushValue.newlines_shown (value : PushValue) : newlines value.shown = 0 := by
  cases value with
  | text value => exact newlines_quoted value
  | single word => simp +decide [shown, Floating.newlines_numeral, Floating.plainStyle]
  | double word => exact Floating.newlines_numeral rfl _ _
  | register source => exact source.newlines_text
  | boolean value => cases value <;> rfl
  | _ => simp +decide [shown]

theorem Branch.newlines_shown (branch : Branch) : newlines branch.shown = 0 := by
  unfold shown
  split <;> simp +decide [Opcode.newlines_name, Label.newlines_text, newlines_signed]

theorem CatchTarget.newlines_shown (target : CatchTarget) : newlines target.shown = 0 := by
  unfold shown
  split
  · exact newlines_quoted _
  · exact Register.newlines_text _

theorem Block.newlines_shown (block : Block) : newlines block.shown = 0 := by
  unfold shown
  split <;> simp +decide [Opcode.newlines_name, CatchTarget.newlines_shown]

theorem Instruction.newlines_shownOperands (instruction : Instruction) :
    newlines instruction.shownOperands = 0 := by
  unfold shownOperands
  split <;>
    simp +decide [Register.newlines_text, PushValue.newlines_shown, newlines_commaSeparated_map]

/-- An instruction is on one line. -/
theorem Instruction.newlines_shown (instruction : Instruction) :
    newlines instruction.shown = 0 := by
  unfold shown
  split
  · exact Block.newlines_shown _
  · exact Branch.newlines_shown _
  · split <;> simp +decide [Opcode.newlines_name, newlines_shownOperands]

/-! ### Actions -/

/-- The names of the parameters that an action declares. -/
def Action.paramNames : Action → List String
  | .define signature _ => signature.paramNames
  | _ => []

theorem Signature.newlines_shown (signature : Signature) :
    newlines signature.shown = (signature.paramNames.map newlines).sum := by
  have marks : newlines " " = 0 ∧ newlines " (" = 0 ∧ newlines ")" = 0 ∧ newlines "=" = 0 ∧
      newlines ") registers " = 0 ∧ newlines " flags 0x" = 0 := by decide
  cases signature with
  | simple name params =>
    simp [shown, paramNames, Opcode.newlines_name, newlines_commaSeparated, marks]
  | withRegisters name registerCount flags params =>
    simp [shown, paramNames, Opcode.newlines_name, newlines_commaSeparated, marks,
      Register.newlines_text, Function.comp_def]

/-- **An action has the newlines of its parameter names and no others.** -/
theorem Action.newlines_shown (action : Action) :
    newlines action.shown = (action.paramNames.map newlines).sum := by
  cases action with
  | plain instruction => exact instruction.newlines_shown
  | define signature body =>
    simp +decide [shown, paramNames, signature.newlines_shown]
  | marker found => exact found.newlines_shown

end ActionCode
