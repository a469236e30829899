/-
**Texts as bytes.**

* `ofText`: the UTF-8 bytes of a text.
* `toText?`: the text that bytes encode, if they are valid UTF-8.

**`toText?_eq_some_iff`**: bytes encode a text exactly if they are its UTF-8 bytes.
-/

namespace ActionCode.Bytes

/-- The UTF-8 bytes of a text. -/
def ofText (text : String) : List UInt8 := text.toByteArray.data.toList

/-- The text that bytes encode; none if they are not valid UTF-8. -/
def toText? (bytes : List UInt8) : Option String := String.fromUTF8? ⟨bytes.toArray⟩

theorem length_ofText (text : String) : (ofText text).length = text.utf8ByteSize := by
  rw [ofText, Array.length_toList]
  rfl

/-- **Bytes encode a text exactly if they are its UTF-8 bytes.** -/
theorem toText?_eq_some_iff {bytes : List UInt8} {text : String} :
    toText? bytes = some text ↔ bytes = ofText text := by
  unfold toText? ofText String.fromUTF8?
  constructor
  · intro encoded
    split at encoded
    · cases encoded
      simp [String.fromUTF8]
    · cases encoded
  · intro equal
    subst equal
    have same : (⟨text.toByteArray.data.toList.toArray⟩ : ByteArray) = text.toByteArray := by simp
    rw [same, dif_pos text.isValidUTF8]
    rfl

end ActionCode.Bytes
