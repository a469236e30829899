/-
**How floating-point words are written.**

* `NumeralStyle`: the decisions of a written form; `plainStyle` never uses an exponent, and
  `markedStyle` always shows a point or an exponent.
* `numeral`: the text of a word in a style. **A word that is no number is `NaN` without a sign**;
  infinities and zeros keep theirs.
-/

import ActionCode.Floating.Shortest

namespace ActionCode.Floating

/-- The decisions of a written form. -/
structure NumeralStyle where
  /-- Written after an integral number in positional form. -/
  integralEnd : String
  /-- The leading exponents written in positional form, from the first below the second; every
  exponent if absent. -/
  positional : Option (Int × Int)

/-- Positional always, and nothing after an integral number. -/
def plainStyle : NumeralStyle := ⟨"", none⟩

/-- Positional from `1e-4` below `1e16`, and `.0` after an integral number. -/
def markedStyle : NumeralStyle := ⟨".0", some (-4, 16)⟩

/-- The exponent of the leading digit. -/
def Decimal.leadingExponent (decimal : Decimal) : Int :=
  decimal.exponent + ((Nat.toDigits 10 decimal.digits).length - 1 : Nat)

/-- Digits with the point where it belongs. -/
def Decimal.positional (integralEnd : String) (decimal : Decimal) : String :=
  let digits := Nat.toDigits 10 decimal.digits
  match decimal.exponent with
  | .ofNat zeros => String.ofList (digits ++ List.replicate zeros '0') ++ integralEnd
  | .negSucc places =>
    let places := places + 1
    let padded := List.replicate (places + 1 - digits.length) '0' ++ digits
    String.ofList (padded.take (padded.length - places)) ++ "." ++
      String.ofList (padded.drop (padded.length - places))

/-- One digit, the others after a point, and the exponent of the leading digit. -/
def Decimal.scientific (decimal : Decimal) : String :=
  let tail := (Nat.toDigits 10 decimal.digits).drop 1
  String.ofList ((Nat.toDigits 10 decimal.digits).take 1) ++
    (if tail.isEmpty then "" else "." ++ String.ofList tail) ++
    "e" ++ toString decimal.leadingExponent

/-- A decimal in a style. -/
def NumeralStyle.decimal (style : NumeralStyle) (decimal : Decimal) : String :=
  match style.positional with
  | none => decimal.positional style.integralEnd
  | some (first, limit) =>
    if first ≤ decimal.leadingExponent ∧ decimal.leadingExponent < limit then
      decimal.positional style.integralEnd
    else decimal.scientific

/-- The text of a word of a format. -/
def numeral (format : BinaryFormat) (style : NumeralStyle) (word : Nat) : String :=
  let decoded := format.decode word
  let sign := if decoded.negative then "-" else ""
  match decoded.magnitude with
  | .notANumber => "NaN"
  | .infinite => sign ++ "inf"
  | .finite significand exponent =>
    if significand = 0 then sign ++ "0" ++ style.integralEnd
    else sign ++ style.decimal (format.shortest significand exponent)

end ActionCode.Floating
