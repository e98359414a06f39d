/-!
# Text as bytes

The UTF-8 form of a text, and the text with a given UTF-8 form. Not every sequence of bytes is
the form of a text; the main statement is that those which are give their text back.
-/

namespace LetScript.Utf8

/-- The bytes of a text. -/
def encode (text : String) : List UInt8 := text.toByteArray.data.toList

/-- The text with these bytes, if there is one. -/
def decode? (bytes : List UInt8) : Option String := String.fromUTF8? ⟨bytes.toArray⟩

theorem encode_append (first second : String) :
    encode (first ++ second) = encode first ++ encode second := by
  simp [encode, String.toByteArray_append]

theorem decode?_eq_some_iff {bytes : List UInt8} {text : String} :
    decode? bytes = some text ↔ bytes = encode text := by
  unfold decode? String.fromUTF8? encode
  constructor
  · intro h
    split at h
    · obtain rfl := Option.some.inj h
      rfl
    · contradiction
  · rintro rfl
    exact dif_pos text.isValidUTF8

/-- The bytes of a text give the text back. -/
theorem decode?_encode (text : String) : decode? (encode text) = some text :=
  decode?_eq_some_iff.mpr rfl

end LetScript.Utf8
