/-
**The rational numbers that floating-point words stand for.**

* `BinaryFormat.rational?`: the number of a word, by its sign, its exponent field and its fraction.
* `Decoded.rational?`: the number of a word taken apart. **`rational?_eq_decode`**: it is the same.
* **`natural?_eq_some_iff`**: a word stands for a natural number exactly if its number is that.
* `BinaryFormat.compose`: a word from its fields. **`exists_double`**: every single word has a double
  word of the same number.
-/

import ActionCode.Floating.Binary
import Mathlib.Algebra.Order.Field.Power
import Mathlib.Algebra.Field.Rat
import Mathlib.Algebra.Order.Ring.Rat
import Mathlib.Tactic.FieldSimp
import Mathlib.Tactic.Linarith
import Mathlib.Tactic.Positivity
import Mathlib.Tactic.Ring

namespace ActionCode.Floating

/-! ### The number of a word -/

namespace BinaryFormat

/-- What the exponent field is greater by than the exponent. -/
def bias (format : BinaryFormat) : Int := 2 ^ (format.exponentBits - 1) - 1

/-- The fraction field of a word. -/
def fractionOf (format : BinaryFormat) (word : Nat) : Nat := word % 2 ^ format.fractionBits

/-- The exponent field of a word. -/
def fieldOf (format : BinaryFormat) (word : Nat) : Nat :=
  word / 2 ^ format.fractionBits % 2 ^ format.exponentBits

/-- The sign bit of a word. -/
def signOf (format : BinaryFormat) (word : Nat) : Nat :=
  word / 2 ^ format.fractionBits / 2 ^ format.exponentBits % 2

/-- The number that a sign bit, an exponent field and a fraction field stand for. The fraction is
part of one, and **one is added to it unless the exponent field is zero**. The greatest exponent field
marks infinities and words that are not numbers. -/
def rationalOf? (format : BinaryFormat) (sign field fraction : Nat) : Option ℚ :=
  if field = 2 ^ format.exponentBits - 1 then none
  else if field = 0 then
    some ((-1) ^ sign * 2 ^ (1 - format.bias) * (fraction / 2 ^ format.fractionBits))
  else
    some ((-1) ^ sign * 2 ^ (field - format.bias) * (1 + fraction / 2 ^ format.fractionBits))

/-- The number that a word stands for, if it stands for a finite one. -/
def rational? (format : BinaryFormat) (word : Nat) : Option ℚ :=
  format.rationalOf? (format.signOf word) (format.fieldOf word) (format.fractionOf word)

end BinaryFormat

/-- The number that a word taken apart stands for. -/
def Decoded.rational? (decoded : Decoded) : Option ℚ :=
  match decoded.magnitude with
  | .notANumber | .infinite => none
  | .finite significand exponent =>
    some ((if decoded.negative then -1 else 1) * (significand * 2 ^ exponent))

/-! ### Numbers in units -/

/-- A part of one is that many units of its size. -/
theorem zpow_mul_part (exponent : Int) (bits : Nat) (part : ℚ) :
    2 ^ exponent * (part / 2 ^ bits) = part * 2 ^ (exponent - bits) := by
  rw [zpow_sub₀ two_ne_zero, zpow_natCast]
  ring

/-- Units of a greater size. -/
theorem units_scaled (count more : Nat) (exponent : Int) :
    ((count * 2 ^ more : Nat) : ℚ) * 2 ^ (exponent - more) = count * 2 ^ exponent := by
  have positive : (2 : ℚ) ^ more ≠ 0 := by positivity
  rw [zpow_sub₀ two_ne_zero, zpow_natCast]
  push_cast
  field_simp

namespace BinaryFormat

variable {format : BinaryFormat} {field : Nat}

theorem rationalOf?_special (sign fraction : Nat) :
    format.rationalOf? sign (2 ^ format.exponentBits - 1) fraction = none := if_pos rfl

theorem rationalOf?_least (finite : field ≠ 2 ^ format.exponentBits - 1) (least : field = 0)
    (sign fraction : Nat) :
    format.rationalOf? sign field fraction =
      some ((-1 : ℚ) ^ sign * (fraction * 2 ^ (1 - format.bias - format.fractionBits))) := by
  rw [rationalOf?, if_neg finite, if_pos least, mul_assoc, zpow_mul_part]

theorem rationalOf?_normal (finite : field ≠ 2 ^ format.exponentBits - 1) (normal : field ≠ 0)
    (sign fraction : Nat) :
    format.rationalOf? sign field fraction =
      some ((-1 : ℚ) ^ sign * ((2 ^ format.fractionBits + fraction : Nat) *
        2 ^ (field - format.bias - format.fractionBits))) := by
  have positive : (2 : ℚ) ^ format.fractionBits ≠ 0 := by positivity
  have unit : (1 : ℚ) + fraction / 2 ^ format.fractionBits =
      (2 ^ format.fractionBits + fraction : Nat) / 2 ^ format.fractionBits := by
    push_cast
    field_simp
  rw [rationalOf?, if_neg finite, if_neg normal, unit, mul_assoc, zpow_mul_part]

end BinaryFormat

/-! ### Words taken apart -/

theorem sign_eq (bit : Nat) :
    (if decide (bit % 2 = 1) then -1 else 1 : ℚ) = (-1) ^ (bit % 2) := by
  rcases Nat.mod_two_eq_zero_or_one bit with even | odd
  · simp [even]
  · simp [odd]

namespace BinaryFormat

theorem leastExponent_eq (format : BinaryFormat) :
    format.leastExponent = 1 - format.bias - format.fractionBits := by
  simp only [leastExponent, bias, Nat.pow_eq]
  push_cast
  ring

/-- **A word taken apart stands for the same number.** -/
theorem rational?_eq_decode (format : BinaryFormat) (word : Nat) :
    format.rational? word = (format.decode word).rational? := by
  have isField : word / format.fractions % format.exponentFields = format.fieldOf word := rfl
  have isFraction : word % format.fractions = format.fractionOf word := rfl
  have greatest : format.exponentFields - 1 = 2 ^ format.exponentBits - 1 := rfl
  have isSign : word / format.fractions / format.exponentFields % 2 = format.signOf word := rfl
  simp only [rational?, decode, Decoded.rational?, isField, isFraction, greatest]
  rw [sign_eq, isSign]
  generalize format.fieldOf word = field
  generalize format.fractionOf word = fraction
  by_cases special : field = 2 ^ format.exponentBits - 1
  · rw [if_pos special, special, rationalOf?_special]
    by_cases zero : fraction = 0 <;> simp [zero]
  · by_cases least : field = 0
    · rw [if_neg special, if_pos least, rationalOf?_least special least, leastExponent_eq]
    · have exponent : format.leastExponent + (field - 1 : Nat) =
          field - format.bias - format.fractionBits := by
        rw [leastExponent_eq]
        omega
      rw [if_neg special, if_neg least, rationalOf?_normal special least, exponent]
      rfl

end BinaryFormat

/-! ### Natural numbers -/

/-- A number of units of any size is natural exactly if it is found to be. -/
theorem scaledNatural?_eq_some_iff (significand : Nat) (exponent : Int) (count : Nat) :
    scaledNatural? significand exponent = some count ↔
      (significand * 2 ^ exponent : ℚ) = count := by
  cases exponent with
  | ofNat exponent =>
    rw [scaledNatural?, Nat.pow_eq, Option.some.injEq, Int.ofNat_eq_natCast, zpow_natCast]
    norm_cast
  | negSucc exponent =>
    have positive : (2 : ℚ) ^ (exponent + 1) ≠ 0 := by positivity
    have divided : (significand * 2 ^ Int.negSucc exponent : ℚ) = count ↔
        significand = count * 2 ^ (exponent + 1) := by
      rw [zpow_negSucc, ← div_eq_mul_inv, div_eq_iff positive]
      norm_cast
    rw [divided, scaledNatural?, Nat.pow_eq]
    have pos : 0 < 2 ^ (exponent + 1) := by positivity
    constructor
    · intro found
      obtain ⟨divides, quotient⟩ := Option.ite_none_right_eq_some.mp found
      obtain rfl := Option.some.inj quotient
      exact (Nat.div_mul_cancel (Nat.dvd_of_mod_eq_zero divides)).symm
    · rintro rfl
      rw [if_pos (Nat.mul_mod_left _ _), Nat.mul_div_cancel _ pos]

/-- **A word stands for a natural number exactly if its number is that.** -/
theorem Decoded.natural?_eq_some_iff (decoded : Decoded) (count : Nat) :
    decoded.natural? = some count ↔ decoded.rational? = some (count : ℚ) := by
  obtain ⟨negative, magnitude⟩ := decoded
  cases magnitude with
  | notANumber => simp [natural?, Decoded.rational?]
  | infinite => simp [natural?, Decoded.rational?]
  | finite significand exponent =>
    rw [natural?, Decoded.rational?]
    by_cases zero : significand = 0
    · simp [zero, eq_comm]
    · have positive : (0 : ℚ) < significand * 2 ^ exponent := by positivity
      cases negative with
      | false => simp [zero, scaledNatural?_eq_some_iff]
      | true =>
        have below : ¬ -1 * (significand * 2 ^ exponent : ℚ) = count := by
          have natural : (0 : ℚ) ≤ count := by positivity
          intro same
          linarith
        simpa [zero] using below

/-! ### Wider words -/

namespace BinaryFormat

/-- A word from its sign bit, its exponent field and its fraction field. -/
def compose (format : BinaryFormat) (sign field fraction : Nat) : Nat :=
  (sign * 2 ^ format.exponentBits + field) * 2 ^ format.fractionBits + fraction

section Compose

variable {format : BinaryFormat} {sign field fraction : Nat}

theorem compose_lt (isBit : sign < 2) (isField : field < 2 ^ format.exponentBits)
    (isFraction : fraction < 2 ^ format.fractionBits) :
    format.compose sign field fraction < 2 * 2 ^ format.exponentBits * 2 ^ format.fractionBits := by
  have upper : sign * 2 ^ format.exponentBits + field + 1 ≤ 2 * 2 ^ format.exponentBits := by
    have one : sign * 2 ^ format.exponentBits ≤ 1 * 2 ^ format.exponentBits :=
      Nat.mul_le_mul_right _ (by omega)
    omega
  have scaled := Nat.mul_le_mul_right (2 ^ format.fractionBits) upper
  rw [Nat.succ_mul] at scaled
  rw [compose]
  omega

/-- A word from its fields stands for what they do. -/
theorem rational?_compose (isBit : sign < 2) (isField : field < 2 ^ format.exponentBits)
    (isFraction : fraction < 2 ^ format.fractionBits) :
    format.rational? (format.compose sign field fraction) =
      format.rationalOf? sign field fraction := by
  have above : format.compose sign field fraction / 2 ^ format.fractionBits =
      sign * 2 ^ format.exponentBits + field := by
    rw [compose, Nat.add_comm, Nat.add_mul_div_right _ _ (by positivity),
      Nat.div_eq_of_lt isFraction, Nat.zero_add]
  have fractionSame : format.fractionOf (format.compose sign field fraction) = fraction := by
    rw [fractionOf, compose, Nat.mul_add_mod', Nat.mod_eq_of_lt isFraction]
  have fieldSame : format.fieldOf (format.compose sign field fraction) = field := by
    rw [fieldOf, above, Nat.mul_add_mod', Nat.mod_eq_of_lt isField]
  have signSame : format.signOf (format.compose sign field fraction) = sign := by
    rw [signOf, above, Nat.add_comm, Nat.add_mul_div_right _ _ (by positivity),
      Nat.div_eq_of_lt isField, Nat.zero_add, Nat.mod_eq_of_lt isBit]
  rw [rational?, fractionSame, fieldSame, signSame]

end Compose

end BinaryFormat

/-- A fraction that is not zero is a leading bit and a part below it. -/
theorem exists_leading_bit {fraction : Nat} (nonzero : fraction ≠ 0) :
    ∃ leading part, part < 2 ^ leading ∧ fraction = 2 ^ leading + part := by
  have least := Nat.log2_self_le nonzero
  have most : fraction < 2 ^ (fraction.log2 + 1) := Nat.lt_log2_self
  rw [Nat.pow_succ] at most
  exact ⟨fraction.log2, fraction - 2 ^ fraction.log2, by omega, by omega⟩

/-- A leading bit and a part below it as the fraction of a double word, where the bit is implicit. -/
theorem exists_double_fraction (sign field : Nat) {leading part : Nat} (within : leading ≤ 52)
    (below : part < 2 ^ leading) (positive : field ≠ 0) (finite : field < 2047) :
    ∃ fraction < 2 ^ 52, double.rationalOf? sign field fraction =
      some ((-1 : ℚ) ^ sign * ((2 ^ leading + part : Nat) * 2 ^ (field - 1023 - leading : Int))) := by
  have split : leading + (52 - leading) = 52 := by omega
  have significand : 2 ^ 52 + part * 2 ^ (52 - leading) =
      (2 ^ leading + part) * 2 ^ (52 - leading) := by
    rw [Nat.add_mul, ← Nat.pow_add, split]
  refine ⟨part * 2 ^ (52 - leading), ?_, ?_⟩
  · have scaled := Nat.mul_lt_mul_of_pos_right below (Nat.two_pow_pos (52 - leading))
    rwa [← Nat.pow_add, split] at scaled
  · have isBias : double.bias = 1023 := rfl
    have isWidth : double.fractionBits = 52 := rfl
    have exponent : (field - 1023 - (52 : Nat) : Int) =
        field - 1023 - leading - (52 - leading : Nat) := by
      omega
    have normal : field ≠ 2 ^ double.exponentBits - 1 := Nat.ne_of_lt finite
    rw [BinaryFormat.rationalOf?_normal normal positive, isBias, isWidth, significand, exponent,
      units_scaled]

/-- The number of the fields of a single word is that of fields of a double word. **A fraction without
an implicit bit begins with a bit that becomes implicit.** -/
theorem exists_double_fields (sign : Nat) {field fraction : Nat} (isField : field < 2 ^ 8)
    (isFraction : fraction < 2 ^ 23) :
    ∃ wideField wideFraction, wideField < 2 ^ 11 ∧ wideFraction < 2 ^ 52 ∧
      double.rationalOf? sign wideField wideFraction =
        single.rationalOf? sign field fraction := by
  have isBias : single.bias = 127 := rfl
  have isWidth : single.fractionBits = 23 := rfl
  by_cases special : field = 2 ^ single.exponentBits - 1
  · refine ⟨2 ^ double.exponentBits - 1, 0, by decide, by decide, ?_⟩
    rw [special, BinaryFormat.rationalOf?_special, BinaryFormat.rationalOf?_special]
  have finite : field ≠ 255 := special
  by_cases least : field = 0
  · rw [BinaryFormat.rationalOf?_least special least, isBias, isWidth]
    by_cases zero : fraction = 0
    · refine ⟨0, 0, by decide, by decide, ?_⟩
      rw [BinaryFormat.rationalOf?_least (by decide) rfl, zero]
      simp
    · obtain ⟨leading, part, below, rfl⟩ := exists_leading_bit zero
      have short : leading < 23 := (Nat.pow_lt_pow_iff_right (by decide)).mp
        (Nat.lt_of_le_of_lt (Nat.le_add_right _ _) isFraction)
      obtain ⟨wide, isWide, same⟩ := exists_double_fraction sign (leading + 874)
        (by omega) below (by omega) (by omega)
      refine ⟨leading + 874, wide, by omega, isWide, same.trans ?_⟩
      have exponent : ((leading + 874 : Nat) - 1023 - leading : Int) = 1 - 127 - (23 : Nat) := by
        omega
      rw [exponent]
  · obtain ⟨wide, isWide, same⟩ := exists_double_fraction sign (field + 896)
      (by decide) isFraction (by omega) (by omega)
    refine ⟨field + 896, wide, by omega, isWide, same.trans ?_⟩
    have exponent : ((field + 896 : Nat) - 1023 - (23 : Nat) : Int) = field - 127 - (23 : Nat) := by
      omega
    rw [BinaryFormat.rationalOf?_normal special least, isBias, isWidth, exponent]

/-- **Every single word has a double word of the same number.** -/
theorem exists_double (word : Nat) :
    ∃ wide < 2 ^ 64, double.rational? wide = single.rational? word := by
  obtain ⟨field, fraction, isField, isFraction, same⟩ :=
    exists_double_fields (single.signOf word) (Nat.mod_lt _ (Nat.two_pow_pos 8))
      (Nat.mod_lt word (Nat.two_pow_pos 23))
  have isBit : single.signOf word < 2 := Nat.mod_lt _ Nat.two_pos
  exact ⟨_, BinaryFormat.compose_lt isBit isField isFraction,
    (BinaryFormat.rational?_compose isBit isField isFraction).trans same⟩

end ActionCode.Floating
