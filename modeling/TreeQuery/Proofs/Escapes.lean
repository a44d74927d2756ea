import TreeQuery.Json.Printer
import TreeQuery.Json.StringReader

/-!
# Strings are read as they were written

What the reader gets of a string is bytes, and it goes through them by a machine of its own;
the writer goes through characters. They meet at the single character, for there are only two
ways to write one. Escaped, its bytes take the machine once around, from plain text back to
plain text, with the bytes of that character decoded. Written as it is, each of its bytes
stands for itself: it is neither a quote nor a backslash nor a control character, and a byte
that is only part of a character is above all of these. So whatever was decoded before is only
added to, and one induction on the characters takes the machine to the closing quote. That the
decoded bytes are UTF-8 need not be asked again, because they are those of the text.
-/

namespace TreeQuery

namespace Text

/-! ## The bytes of a text -/

/-- The bytes of a text are those of its characters. -/
theorem utf8_eq_flatMap (s : String) : utf8 s = s.toList.flatMap String.utf8EncodeChar := by
  rw [utf8, ← String.utf8Encode_toList, List.utf8Encode, List.data_toByteArray]

@[simp] theorem utf8_ofList (cs : List Char) :
    utf8 (String.ofList cs) = cs.flatMap String.utf8EncodeChar := by
  rw [utf8_eq_flatMap, String.toList_ofList]

@[simp] theorem utf8_append (s t : String) : utf8 (s ++ t) = utf8 s ++ utf8 t := by
  simp only [utf8_eq_flatMap, String.toList_append, List.flatMap_append]

end Text

namespace Json

/-- A byte that stands for itself inside a string. -/
def StandsAlone (b : UInt8) : Prop :=
  b ≠ 34 ∧ b ≠ 92 ∧ 32 ≤ b

/-- A number that is neither that of a control character, a quote nor a backslash. -/
theorem standsAlone_ofNat {n : Nat} (fits : n < 256) (quote : n ≠ 34) (backslash : n ≠ 92)
    (visible : 32 ≤ n) : StandsAlone (UInt8.ofNat n) := by
  have hvalue : (UInt8.ofNat n).toNat = n := UInt8.toNat_ofNat_of_lt' fits
  refine ⟨fun h => quote ?_, fun h => backslash ?_, ?_⟩
  · rw [← hvalue, h]; rfl
  · rw [← hvalue, h]; rfl
  · rw [UInt8.le_iff_toNat_le, hvalue]
    exact visible

/-- The bytes of a character that is not escaped stand for themselves: all bytes but those of
the first 128 characters are above those. -/
theorem standsAlone_of_mem {c : Char} (quote : c ≠ '"') (backslash : c ≠ '\\')
    (visible : 0x20 ≤ c.toNat) : ∀ b ∈ String.utf8EncodeChar c, StandsAlone b := by
  have hne : ∀ d : Char, c ≠ d → c.val.toNat ≠ d.toNat := fun d hd h =>
    hd (Char.toNat_inj.mp h)
  have hquote : c.val.toNat ≠ 34 := hne '"' quote
  have hbackslash : c.val.toNat ≠ 92 := hne '\\' backslash
  have hvisible : 32 ≤ c.val.toNat := visible
  unfold String.utf8EncodeChar
  dsimp only
  have habove : ∀ n, 128 ≤ n → n < 256 → StandsAlone (UInt8.ofNat n) := fun n hlower hupper =>
    standsAlone_ofNat hupper (by omega) (by omega) (by omega)
  split
  · rw [List.forall_mem_singleton]
    exact standsAlone_ofNat (by omega) hquote hbackslash hvisible
  · split
    · simp only [List.mem_cons, List.not_mem_nil, or_false]
      rintro b (rfl | rfl) <;> exact habove _ (by omega) (by omega)
    · split
      · simp only [List.mem_cons, List.not_mem_nil, or_false]
        rintro b (rfl | rfl | rfl) <;> exact habove _ (by omega) (by omega)
      · simp only [List.mem_cons, List.not_mem_nil, or_false]
        rintro b (rfl | rfl | rfl | rfl) <;> exact habove _ (by omega) (by omega)

/-- Bytes that stand for themselves are taken as they are. -/
theorem scanString_standsAlone {bs : Bytes} (h : ∀ b ∈ bs, StandsAlone b) (decoded rest : Bytes) :
    scanString .plain decoded (bs ++ rest) = scanString .plain (bs.reverse ++ decoded) rest := by
  induction bs generalizing decoded with
  | nil => rfl
  | cons b bs ih =>
    obtain ⟨⟨hquote, hbackslash, hvisible⟩, hbs⟩ := List.forall_mem_cons.mp h
    have hstep : StringState.plain.step b = .next .plain [b] := by
      rw [StringState.step, if_neg hquote, if_neg hbackslash, if_neg (UInt8.not_lt.mpr hvisible)]
    rw [List.cons_append, scanString, hstep]
    dsimp only
    rw [ih hbs]
    simp

/-- A hexadecimal digit is one byte, and its value is read off it. -/
theorem exists_hexDigit (n : Nat) :
    ∃ b, String.utf8EncodeChar (hexDigit n) = [b] ∧ hexValue? b = some (n % 16) := by
  have hall : ∀ d < 16, ∃ b, String.utf8EncodeChar (Nat.digitChar d) = [b] ∧
      hexValue? b = some d := by
    intro d hd
    refine ⟨UInt8.ofNat (Nat.digitChar d).toNat, ?_⟩
    revert d
    decide
  exact hall (n % 16) (Nat.mod_lt n (by decide))

/-- A control character is read as its four digits. -/
theorem scanString_control {c : Char} (control : c.toNat < 0x20) (decoded rest : Bytes) :
    scanString .plain decoded
        (['\\', 'u', '0', '0', hexDigit (c.toNat / 16), hexDigit c.toNat].flatMap
          String.utf8EncodeChar ++ rest)
      = scanString .plain ((String.utf8EncodeChar c).reverse ++ decoded) rest := by
  obtain ⟨high, hhigh, hhighValue⟩ := exists_hexDigit (c.toNat / 16)
  obtain ⟨low, hlow, hlowValue⟩ := exists_hexDigit c.toNat
  have hbytes : ['\\', 'u', '0', '0', hexDigit (c.toNat / 16), hexDigit c.toNat].flatMap
      String.utf8EncodeChar = [92, 117, 48, 48, high, low] := by
    simp only [List.flatMap_cons, List.flatMap_nil, hhigh, hlow]
    rfl
  have hunit : unitOf? [low, high, 48, 48] = some c.toNat := by
    have hzero : hexValue? 48 = some 0 := by decide
    simp only [unitOf?, hzero, hhighValue, hlowValue, bind, Option.bind]
    rw [Option.some_inj]
    omega
  have hstep : (StringState.unit none [high, 48, 48]).step low
      = .next .plain (String.utf8EncodeChar c) := by
    show unitStep none [low, high, 48, 48] = _
    unfold unitStep
    rw [hunit]
    dsimp only
    rw [if_neg (by omega), if_neg (by omega), Char.ofNat_toNat]
  rw [hbytes]
  show scanString (.unit none [high, 48, 48]) decoded (low :: rest) = _
  rw [scanString, hstep]

/-- **A character is read as it was written**, whether it is escaped or not. -/
theorem scanString_escapedChar (c : Char) (decoded rest : Bytes) :
    scanString .plain decoded ((escapedChar c).flatMap String.utf8EncodeChar ++ rest)
      = scanString .plain ((String.utf8EncodeChar c).reverse ++ decoded) rest := by
  unfold escapedChar
  -- the seven short escapes
  iterate 7 (split; next h => (subst h; rfl))
  split
  · next hcontrol => exact scanString_control hcontrol decoded rest
  · next hquote hbackslash _ _ _ _ _ hvisible =>
    rw [List.flatMap_singleton]
    exact scanString_standsAlone
      (standsAlone_of_mem hquote hbackslash (Nat.not_lt.mp hvisible)) decoded rest

/-- Characters are read as they were written, up to the closing quote. -/
theorem scanString_escaped (cs : List Char) (decoded rest : Bytes) :
    scanString .plain decoded
        ((cs.flatMap escapedChar).flatMap String.utf8EncodeChar ++ 34 :: rest)
      = .ok ((cs.flatMap String.utf8EncodeChar).reverse ++ decoded, rest) := by
  induction cs generalizing decoded with
  | nil => rfl
  | cons c cs ih =>
    rw [List.flatMap_cons, List.flatMap_append, List.append_assoc, scanString_escapedChar, ih,
      List.flatMap_cons, List.reverse_append, List.append_assoc]

/-- The bytes of a string that is written, behind its opening quote. -/
def quotedBytes (s : String) : Bytes :=
  (s.toList.flatMap escapedChar).flatMap String.utf8EncodeChar ++ [34]

/-- What is written begins with a quote. -/
theorem utf8_stringText (s : String) : Text.utf8 (stringText s) = 34 :: quotedBytes s := by
  rw [stringText, Text.utf8_ofList, List.cons_append, List.flatMap_cons, List.flatMap_append]
  rfl

/-- **A string is read as it was written**, up to its closing quote and no further. -/
theorem readString_quotedBytes (s : String) (rest : Bytes) :
    readString (quotedBytes s ++ rest) = .ok (s, rest) := by
  unfold readString
  rw [quotedBytes, List.append_assoc, List.singleton_append, scanString_escaped]
  simp only [bind, Except.bind, List.append_nil, List.reverse_reverse, ← Text.utf8_eq_flatMap,
    Text.ofUtf8?_utf8]

end Json

end TreeQuery
