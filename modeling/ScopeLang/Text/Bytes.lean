-- SUMMARY: Texts as UTF-8 byte sequences, and byte sequences as texts.

/-! # Texts and bytes

A text and its UTF-8 bytes determine each other: `Text.ofBytes?` reads back
exactly what `Text.bytes` writes. A single byte may also be shown as the
character with its number, which is what a fault does with a byte that starts
no lexeme.
-/

namespace ScopeLang.Text

/-- The UTF-8 bytes of a text. -/
def bytes (s : String) : List UInt8 :=
  s.toByteArray.data.toList

/-- The text with the given UTF-8 bytes, if they are valid UTF-8. -/
def ofBytes? (bs : List UInt8) : Option String :=
  String.fromUTF8? ⟨bs.toArray⟩

/-- Each byte as the character with its number. -/
def ofCodes (bs : List UInt8) : String :=
  String.ofList (bs.map Char.ofUInt8)

/-! ## Reading back -/

@[simp] theorem bytes_empty : bytes "" = [] := rfl

@[simp] theorem bytes_append (s t : String) : bytes (s ++ t) = bytes s ++ bytes t := by
  simp [bytes, String.toByteArray_append]

@[simp] theorem ofBytes?_bytes (s : String) : ofBytes? (bytes s) = some s := by
  have h : (⟨(bytes s).toArray⟩ : ByteArray) = s.toByteArray := by
    simp [bytes]
  simp only [ofBytes?, h]
  simp [String.fromUTF8?, s.isValidUTF8]
  rfl

end ScopeLang.Text
