import TreeQuery.Store.Basic

/-!
# Bytes as text

Decoding and encoding of UTF-8. Besides the decoded text a reader of documents
needs to know how far a run of bytes is well formed (`validLength`): a message
about bytes that are not points at the end of that part.
-/

namespace TreeQuery.Text

/-- The bytes of a text. -/
def utf8 (s : String) : Bytes :=
  s.toByteArray.data.toList

/-- The text that bytes encode, if they are well formed. -/
def ofUtf8? (bytes : Bytes) : Option String :=
  String.fromUTF8? ⟨bytes.toArray⟩

/-- The end of the longest well-formed run of characters from position `i` on.
The first argument bounds the number of characters. -/
def validEnd (bytes : ByteArray) : Nat → Nat → Nat
  | 0, i => i
  | fuel + 1, i =>
    match bytes.utf8DecodeChar? i with
    | some c => validEnd bytes fuel (i + c.utf8Size)
    | none => i

/-- How many of the bytes, from the first on, are well formed. -/
def validLength (bytes : Bytes) : Nat :=
  validEnd ⟨bytes.toArray⟩ bytes.length 0

/-- Encoding is undone by decoding. -/
@[simp] theorem ofUtf8?_utf8 (s : String) : ofUtf8? (utf8 s) = some s := by
  simp [ofUtf8?, utf8, String.fromUTF8?, s.isValidUTF8, String.fromUTF8]

end TreeQuery.Text
