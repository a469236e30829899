/-
**Which counts literals stand for.**

* `PushValue.number?`: the number that a literal stands for. `integralCount?`: the count that is a
  rational number, by its fraction and its range.
* **`count?_eq_some_iff`**: a literal stands for a count exactly if it stands for that number and the
  count has 32 bits. `count?_eq_integralCount?`: so it does by fraction and range.
* **`literal_counts_exact`**: literals of the same number stand for the same count, and single words
  have double words of the same number.
-/

import ActionCode.PushValue
import ActionCode.Proofs.Floating.Rationals
import Mathlib.Data.Rat.Floor

namespace ActionCode

/-! ### The number of a literal -/

/-- The number that a literal stands for, if it stands for a finite one. -/
def PushValue.number? : PushValue → Option ℚ
  | .integer value => some value.toInt
  | .single word => Floating.single.rational? word.toNat
  | .double word => Floating.double.rational? word.toNat
  | _ => none

/-- The count that is a rational number: it has no fraction, and 32 bits are enough for it. -/
def integralCount? (number : ℚ) : Option Nat :=
  if Int.fract number = 0 ∧ 0 ≤ number ∧ number ≤ 4294967295 then some ⌊number⌋.toNat else none

theorem integralCount?_eq_some_iff {number : ℚ} {count : Nat} :
    integralCount? number = some count ↔ count < UInt32.size ∧ number = count := by
  have size : UInt32.size = 4294967296 := rfl
  rw [integralCount?, size]
  constructor
  · intro found
    obtain ⟨⟨whole, nonnegative, bounded⟩, isCount⟩ := Option.ite_none_right_eq_some.mp found
    obtain ⟨integer, rfl⟩ := Int.fract_eq_zero_iff.mp whole
    rw [Int.floor_intCast, Option.some.injEq] at isCount
    have lower : 0 ≤ integer := by exact_mod_cast nonnegative
    have upper : integer ≤ 4294967295 := by exact_mod_cast bounded
    subst isCount
    refine ⟨by omega, ?_⟩
    have same : ((integer.toNat : Int) : ℚ) = integer := by rw [Int.toNat_of_nonneg lower]
    exact same.symm
  · rintro ⟨bounded, rfl⟩
    have upper : (count : ℚ) ≤ 4294967295 := by
      have le : count ≤ 4294967295 := by omega
      exact_mod_cast le
    rw [if_pos ⟨Int.fract_natCast count, Nat.cast_nonneg count, upper⟩, Int.floor_natCast,
      Int.toNat_natCast]

/-! ### Counts of literals -/

namespace PushValue

/-- A natural number is a count if it has 32 bits. -/
theorem filter_eq_some_iff {natural? : Option Nat} {count : Nat} :
    (natural?.filter fun count => decide (count < UInt32.size)) = some count ↔
      count < UInt32.size ∧ natural? = some count := by
  rw [Option.filter_eq_some_iff, decide_eq_true_iff, and_comm]

/-- An integer is a natural number exactly if it is found to be. -/
theorem naturalOfInteger_eq_some_iff {integer : Int} {count : Nat} :
    (if 0 ≤ integer then some integer.toNat else none) = some count ↔
      some (integer : ℚ) = some (count : ℚ) := by
  have natural : (integer : ℚ) = count ↔ integer = (count : Int) := by
    rw [← Int.cast_natCast, Int.cast_inj]
  rw [Option.some.injEq, natural]
  by_cases nonnegative : 0 ≤ integer
  · rw [if_pos nonnegative, Option.some.injEq]
    omega
  · rw [if_neg nonnegative]
    exact iff_of_false nofun (by omega)

/-- **A literal stands for a count exactly if it stands for that number** and the count has 32
bits. -/
theorem count?_eq_some_iff {value : PushValue} {count : Nat} :
    value.count? = some count ↔ count < UInt32.size ∧ value.number? = some (count : ℚ) := by
  refine filter_eq_some_iff.trans (and_congr_right fun _ => ?_)
  cases value with
  | integer value => exact naturalOfInteger_eq_some_iff
  | single word =>
    rw [number?, Floating.BinaryFormat.rational?_eq_decode]
    exact Floating.Decoded.natural?_eq_some_iff _ count
  | double word =>
    rw [number?, Floating.BinaryFormat.rational?_eq_decode]
    exact Floating.Decoded.natural?_eq_some_iff _ count
  | _ => exact iff_of_false nofun nofun

/-- The count of a literal is that of its number. -/
theorem count?_eq_integralCount? (value : PushValue) :
    value.count? = value.number?.bind integralCount? := by
  ext count
  rw [count?_eq_some_iff, Option.bind_eq_some_iff]
  constructor
  · rintro ⟨bounded, isNumber⟩
    exact ⟨count, isNumber, integralCount?_eq_some_iff.mpr ⟨bounded, rfl⟩⟩
  · rintro ⟨number, isNumber, isCount⟩
    obtain ⟨bounded, rfl⟩ := integralCount?_eq_some_iff.mp isCount
    exact ⟨bounded, isNumber⟩

/-- Every single word has a double word that stands for the same number. -/
theorem exists_double_number (word : UInt32) :
    ∃ wide : UInt64, (PushValue.double wide).number? = (PushValue.single word).number? := by
  obtain ⟨wide, isWord, same⟩ := Floating.exists_double word.toNat
  refine ⟨UInt64.ofNat wide, ?_⟩
  rw [number?, number?, UInt64.toNat_ofNat_of_lt' isWord, same]

end PushValue

/-- **Counts are read exactly.** A literal stands for a count exactly if that is the number it stands
for and 32 bits are enough for it, and for no count otherwise. The tests on the fraction and the range
of the number find the same. Every single word has a double word that stands for the same number, and
words that do so have the same count. -/
theorem literal_counts_exact (value : PushValue) :
    (∀ count, value.count? = some count ↔
      count ≤ 2 ^ 32 - 1 ∧ value.number? = some (count : ℚ)) ∧
    (value.count? = none ↔ ¬ ∃ count : Nat, count ≤ 2 ^ 32 - 1 ∧ value.number? = some (count : ℚ)) ∧
    value.count? = value.number?.bind integralCount? ∧
    ∀ word : UInt32,
      (∃ wide, (PushValue.double wide).number? = (PushValue.single word).number?) ∧
      ∀ wide, (PushValue.double wide).number? = (PushValue.single word).number? →
        (PushValue.double wide).count? = (PushValue.single word).count? := by
  have isExact (count : Nat) : value.count? = some count ↔
      count ≤ 2 ^ 32 - 1 ∧ value.number? = some (count : ℚ) := by
    have bound : count < UInt32.size ↔ count ≤ 2 ^ 32 - 1 := Nat.lt_iff_le_pred (by decide)
    rw [PushValue.count?_eq_some_iff, bound]
  refine ⟨isExact, ?_, value.count?_eq_integralCount?, ?_⟩
  · simp only [Option.eq_none_iff_forall_ne_some, ne_eq, isExact, not_exists]
  · intro word
    refine ⟨PushValue.exists_double_number word, ?_⟩
    intro wide same
    rw [PushValue.count?_eq_integralCount?, PushValue.count?_eq_integralCount?, same]

/-- Two, as a single and as a double word. -/
theorem literal_counts_exact_two :
    (PushValue.double 0x4000000000000000).number? = (PushValue.single 0x40000000).number? ∧
      (PushValue.double 0x4000000000000000).count? = (PushValue.single 0x40000000).count? := by
  have wide : (0x4000000000000000 : UInt64).toNat = 0x4000000000000000 := rfl
  have word : (0x40000000 : UInt32).toNat = 0x40000000 := rfl
  have same : (PushValue.double 0x4000000000000000).number? =
      (PushValue.single 0x40000000).number? := by
    norm_num [wide, word, PushValue.number?, Floating.BinaryFormat.rational?,
      Floating.BinaryFormat.rationalOf?, Floating.BinaryFormat.fractionOf, Floating.BinaryFormat.fieldOf,
      Floating.BinaryFormat.signOf, Floating.BinaryFormat.bias, Floating.double, Floating.single]
  exact ⟨same, (literal_counts_exact (.integer 2)).2.2.2 0x40000000 |>.2 0x4000000000000000 same⟩

end ActionCode
