/-
**Hexadecimal numerals.**

* `hexLower`: the digits of a number without padding, in lower case.
* `hexUpper`: the digits of a number in upper case, padded with zeros to a width.
-/

namespace ActionCode.Text

/-- The numeral of a number in base sixteen, with lower-case digits and no padding. -/
def hexLower (value : Nat) : String :=
  String.ofList (Nat.toDigits 16 value)

/-- The numeral of a number in base sixteen, with upper-case digits and at least `width` of them. -/
def hexUpper (width value : Nat) : String :=
  let digits := (Nat.toDigits 16 value).map Char.toUpper
  String.ofList (List.replicate (width - digits.length) '0' ++ digits)

end ActionCode.Text
