import TreeQuery.Proofs.Escapes
import TreeQuery.Json.NumberReader

/-!
# Integers are read as they were written

A number has no closing quote: it is over when its digits are, and only what stands behind it
tells. Behind a value of a written document that is nothing, a comma or a closing bracket
(`Ends`), so neither a further digit nor a fraction nor an exponent is found there. Up to that
point nothing is lost, for two reasons. Digits are gathered while they fit into 64 bits, and
whatever begins a number that fits, fits itself. And a zero in front, which has to stand alone,
is written for zero only.
-/

namespace TreeQuery

namespace Json

/-- **What may stand behind a value**: nothing, a comma or a closing bracket. -/
def Ends (rest : Bytes) : Prop :=
  ∀ b ∈ rest.head?, b = 44 ∨ b = 93 ∨ b = 125

/-! ## Digits -/

/-- The code points of digits. -/
theorem toNat_of_isDigit {c : Char} (h : c.isDigit = true) : 48 ≤ c.toNat ∧ c.toNat ≤ 57 := by
  simpa [Char.isDigit, UInt32.le_iff_toNat_le] using h

/-- The byte of a digit, and its value. -/
theorem digit?_of_isDigit {c : Char} (h : c.isDigit = true) :
    ∃ b, String.utf8EncodeChar c = [b] ∧ digit? b = some (c.toNat - 48) := by
  obtain ⟨hlower, hupper⟩ := toNat_of_isDigit h
  refine ⟨UInt8.ofNat c.toNat, ?_, ?_⟩
  · exact if_pos (by show c.toNat ≤ 127; omega)
  · have hvalue : (UInt8.ofNat c.toNat).toNat = c.toNat :=
      UInt8.toNat_ofNat_of_lt' (show c.toNat < 256 by omega)
    have hdigit : 48 ≤ UInt8.ofNat c.toNat ∧ UInt8.ofNat c.toNat ≤ 57 := by
      simp only [UInt8.le_iff_toNat_le, hvalue]
      exact ⟨hlower, hupper⟩
    rw [digit?, if_pos hdigit, hvalue]

/-- Nothing that may stand behind a value goes on with a number. -/
theorem Ends.of_head {b : UInt8} {rest : Bytes} (h : Ends (b :: rest)) :
    digit? b = none ∧ b ≠ 46 ∧ isExponentMark b = false := by
  obtain rfl | rfl | rfl := h b rfl <;> decide

/-- Digits are read up to what ends them. -/
theorem digitRun_digits {cs : List Char} {rest : Bytes} (h : ∀ c ∈ cs, c.isDigit = true)
    (ends : Ends rest) :
    digitRun (cs.flatMap String.utf8EncodeChar ++ rest) = (cs.map (·.toNat - 48), rest) := by
  induction cs with
  | nil =>
    cases rest with
    | nil => rfl
    | cons b rest => simp [digitRun, ends.of_head.1]
  | cons c cs ih =>
    obtain ⟨hc, hcs⟩ := List.forall_mem_cons.mp h
    obtain ⟨b, hbytes, hvalue⟩ := digit?_of_isDigit hc
    rw [List.flatMap_cons, hbytes, List.append_assoc, List.singleton_append, digitRun, hvalue]
    simp only [ih hcs, List.map_cons]

/-- More digits do not make a number smaller. -/
theorem le_ofDigitChars (n : Nat) (cs : List Char) : n ≤ Nat.ofDigitChars 10 cs n := by
  rw [Nat.ofDigitChars_eq_ofDigitChars_zero]
  exact Nat.le_trans (Nat.le_mul_of_pos_left n (Nat.pow_pos (by decide))) (Nat.le_add_right _ _)

/-- Digits are gathered to the number that they spell, as long as this is within the limit. -/
theorem gather_digits {limit n : Nat} {cs : List Char} (h : Nat.ofDigitChars 10 cs n ≤ limit) :
    gather limit n (cs.map (·.toNat - 48)) = (Nat.ofDigitChars 10 cs n, []) := by
  induction cs generalizing n with
  | nil => simp [gather]
  | cons c cs ih =>
    rw [Nat.ofDigitChars_cons, show '0'.toNat = 48 from rfl] at h ⊢
    have hfirst := Nat.le_trans (le_ofDigitChars _ cs) h
    rw [Nat.mul_comm] at h hfirst ⊢
    rw [List.map_cons, gather, if_pos hfirst]
    exact ih h

/-- No number but zero is written with a zero in front. -/
theorem exists_toDigits_cons {n : Nat} (h : 0 < n) :
    ∃ c cs, Nat.toDigits 10 n = c :: cs ∧ c.toNat - 48 ≠ 0 := by
  induction n using Nat.strongRecOn with
  | ind n ih =>
    by_cases hsmall : n < 10
    · refine ⟨n.digitChar, [], Nat.toDigits_of_lt_base hsmall, ?_⟩
      rw [Nat.toNat_digitChar_sub_48_of_lt_ten hsmall]
      omega
    · obtain ⟨c, cs, hdigits, hc⟩ := ih (n / 10) (by omega) (by omega)
      refine ⟨c, cs ++ [(n % 10).digitChar], ?_, hc⟩
      rw [Nat.toDigits_of_base_le (by decide) (by omega), hdigits, List.cons_append]

/-! ## Numbers -/

/-- The bytes of the digits of a number. -/
def digitBytes (n : Nat) : Bytes :=
  (Nat.toDigits 10 n).flatMap String.utf8EncodeChar

/-- The first of the digits. -/
theorem exists_digitBytes_cons (n : Nat) :
    ∃ b more d, digitBytes n = b :: more ∧ digit? b = some d := by
  cases hdigits : Nat.toDigits 10 n with
  | nil => exact absurd hdigits Nat.toDigits_ne_nil
  | cons c cs =>
    obtain ⟨b, hbytes, hvalue⟩ := digit?_of_isDigit
      (Nat.isDigit_of_mem_toDigits (by decide) (by decide) (hdigits ▸ List.mem_cons_self))
    exact ⟨b, cs.flatMap String.utf8EncodeChar, _,
      by rw [digitBytes, hdigits, List.flatMap_cons, hbytes, List.singleton_append], hvalue⟩

/-- **A number is read as it was written**, up to what ends it. -/
theorem readNumber_digits {n : Nat} {rest : Bytes} (fits : n ≤ maxSignificand)
    (ends : Ends rest) (negative : Bool) :
    readNumber negative (digitBytes n ++ rest) = .ok (integerOf negative n, rest) := by
  have htail : readTail negative n 0 rest = .ok (integerOf negative n, rest) := by
    cases rest with
    | nil => rfl
    | cons b rest =>
      obtain ⟨_, hpoint, hmark⟩ := ends.of_head
      simp [readTail, hpoint, hmark]
  have hrun := digitRun_digits
    (fun c hc => Nat.isDigit_of_mem_toDigits (b := 10) (n := n) (by decide) (by decide) hc) ends
  have hgather : gather maxSignificand 0 ((Nat.toDigits 10 n).map (·.toNat - 48)) = (n, []) := by
    rw [gather_digits (by rwa [Nat.ofDigitChars_ten_toDigits]), Nat.ofDigitChars_ten_toDigits]
  unfold readNumber
  rw [digitBytes, hrun]
  rcases Nat.eq_zero_or_pos n with rfl | hpos
  · exact htail
  · obtain ⟨c, cs, hdigits, hc⟩ := exists_toDigits_cons hpos
    rw [hdigits, List.map_cons] at hgather ⊢
    generalize c.toNat - 48 = d at hc hgather
    generalize cs.map (·.toNat - 48) = ds at hgather
    split
    · next h => cases h
    · next h => cases h
    · next h => cases h; exact absurd rfl hc
    · next h => cases h; exact absurd rfl hc
    · next h =>
      cases h
      rw [hgather]
      exact htail

/-! ## Integers -/

/-- An integer is written as its digits, behind a minus sign if it is negative. -/
theorem utf8_text_integer (n : Int) :
    Text.utf8 (Number.integer n).text
      = if 0 ≤ n then digitBytes n.toNat else 45 :: digitBytes (-n).toNat := by
  have hdigits (k : Nat) : Text.utf8 k.repr = digitBytes k := by
    rw [Nat.repr_eq_ofList_toDigits, Text.utf8_ofList, digitBytes]
  rw [Number.text, Int.toString_eq_repr, Int.repr_eq_if]
  split
  · exact hdigits n.toNat
  · rw [Text.utf8_append, hdigits]
    rfl

/-- Digits behind a minus sign make a negative integer, down to the least one. -/
theorem integerOf_negative {n : Nat} (positive : n ≠ 0) (least : n ≤ twoTo 63) :
    integerOf true n = .integer (-n) := by
  rw [integerOf, if_neg (by decide), if_neg (by omega)]

end Json

end TreeQuery
