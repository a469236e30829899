/-
**Binary floating-point words and the numbers they stand for.**

* `BinaryFormat`: a format by its field widths; `single` and `double` are the two of the bytecode.
* `BinaryFormat.decode`: the sign and the magnitude of a word. **A finite magnitude is exact**: a
  significand times a power of two.
* `Decoded.natural?`: the natural number that a word stands for, if it stands for one.
-/

namespace ActionCode.Floating

/-- A binary format: a sign bit, an exponent field and a fraction field. -/
structure BinaryFormat where
  exponentBits : Nat
  fractionBits : Nat

/-- The 32-bit format. -/
def single : BinaryFormat := ⟨8, 23⟩

/-- The 64-bit format. -/
def double : BinaryFormat := ⟨11, 52⟩

/-- What a word stands for, apart from its sign. -/
inductive Magnitude where
  | notANumber
  | infinite
  /-- Stands for `significand * 2 ^ exponent`. -/
  | finite (significand : Nat) (exponent : Int)
deriving DecidableEq

/-- A word taken apart. -/
structure Decoded where
  negative : Bool
  magnitude : Magnitude
deriving DecidableEq

namespace BinaryFormat

/-- How many fractions there are. -/
def fractions (format : BinaryFormat) : Nat := Nat.pow 2 format.fractionBits

/-- How many values the exponent field has. -/
def exponentFields (format : BinaryFormat) : Nat := Nat.pow 2 format.exponentBits

/-- The exponent that the field value one stands for, with the significand taken as an integer. -/
def leastExponent (format : BinaryFormat) : Int :=
  2 - (Nat.pow 2 (format.exponentBits - 1) : Nat) - format.fractionBits

/-- The number a word stands for. Field value zero has no implicit leading bit; the greatest field
value marks infinities and, with a fraction, words that are not numbers. -/
def decode (format : BinaryFormat) (word : Nat) : Decoded :=
  let fraction := word % format.fractions
  let field := word / format.fractions % format.exponentFields
  { negative := decide (word / format.fractions / format.exponentFields % 2 = 1)
    magnitude :=
      if field = format.exponentFields - 1 then
        if fraction = 0 then .infinite else .notANumber
      else if field = 0 then
        .finite fraction format.leastExponent
      else
        .finite (format.fractions + fraction) (format.leastExponent + (field - 1 : Nat)) }

end BinaryFormat

/-- The natural number equal to `significand * 2 ^ exponent`, if there is one. -/
def scaledNatural? (significand : Nat) : Int → Option Nat
  | .ofNat exponent => some (significand * Nat.pow 2 exponent)
  | .negSucc exponent =>
    let divisor := Nat.pow 2 (exponent + 1)
    if significand % divisor = 0 then some (significand / divisor) else none

/-- The natural number equal to a decoded word, if there is one. **Both zeros count as zero**; no
other negative number is natural. -/
def Decoded.natural? (decoded : Decoded) : Option Nat :=
  match decoded.magnitude with
  | .notANumber | .infinite => none
  | .finite significand exponent =>
    if significand = 0 then some 0
    else if decoded.negative then none
    else scaledNatural? significand exponent

end ActionCode.Floating
