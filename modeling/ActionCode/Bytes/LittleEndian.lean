/-
**Numbers as bytes, the least significant first.**

* `ofBytes`: the number that a list of bytes stands for.
* `toBytes width value`: the low `width` bytes of a number.
-/

namespace ActionCode.Bytes

/-- The number that bytes stand for, the least significant byte first. -/
def ofBytes : List UInt8 → Nat
  | [] => 0
  | byte :: rest => byte.toNat + 256 * ofBytes rest

/-- The low `width` bytes of a number, the least significant first. -/
def toBytes : Nat → Nat → List UInt8
  | 0, _ => []
  | width + 1, value => UInt8.ofNat value :: toBytes width (value / 256)

@[simp]
theorem length_toBytes (width value : Nat) : (toBytes width value).length = width := by
  induction width generalizing value with
  | zero => rfl
  | succ width ih => simp [toBytes, ih]

end ActionCode.Bytes
