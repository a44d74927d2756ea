import TreeQuery.Glob.Wildcard
import TreeQuery.Proofs.Paths

/-!
# What a text with stars is fitted by

A text with `k` stars has `k + 1` pieces, and it is fitted by the pieces in order with any
text in each gap. `Wildcard.fits` does not try the gaps out: it takes every piece between
the first and the last one at its leftmost occurrence and never goes back.

That loses nothing, since the leftmost occurrence leaves the longest rest. Whatever rest
another occurrence leaves is the end of that one (`Wildcard.exists_afterFirst?`), and the
text in front of it is taken up by the gap that comes next.
-/

namespace TreeQuery

namespace Wildcard

variable {p : List Char} {ps : List (List Char)} {s r : List Char}

/-! ## Gaps -/

/-- A single piece is fitted by itself. -/
theorem fits_singleton_iff : Fits [p] s ↔ s = p := by
  constructor
  · intro h
    cases h with
    | last => rfl
    | gap _ w rest => nomatch rest
  · rintro rfl
    exact .last s

/-- Behind a piece with others after it comes any text, and then what fits those. -/
theorem fits_cons_iff (hps : ps ≠ []) :
    Fits (p :: ps) s ↔ ∃ w t, s = p ++ w ++ t ∧ Fits ps t := by
  constructor
  · intro h
    cases h with
    | last => exact absurd rfl hps
    | gap _ w rest => exact ⟨w, _, rfl, rest⟩
  · rintro ⟨w, t, rfl, rest⟩
    exact .gap p w rest

/-- **What fits are the pieces with texts in the gaps**, one text for each piece after the
first. -/
theorem fits_iff_exists_gaps :
    Fits (p :: ps) s ↔ ∃ ws : List (List Char), ws.length = ps.length ∧
      s = p ++ (List.zipWith (· ++ ·) ws ps).flatten := by
  induction ps generalizing p s with
  | nil => simp [fits_singleton_iff]
  | cons q ps ih =>
    rw [fits_cons_iff (List.cons_ne_nil q ps)]
    constructor
    · rintro ⟨w, t, rfl, rest⟩
      obtain ⟨ws, hlength, rfl⟩ := ih.mp rest
      exact ⟨w :: ws, congrArg (· + 1) hlength, by simp⟩
    · rintro ⟨_ | ⟨w, ws⟩, hlength, rfl⟩
      · cases hlength
      · exact ⟨w, _, by simp, ih.mpr ⟨ws, Nat.succ.inj hlength, rfl⟩⟩

/-! ## Leftmost occurrences -/

/-- What is found at its leftmost occurrence occurs there. -/
theorem exists_of_afterFirst? (h : afterFirst? p s = some r) : ∃ w, s = w ++ p ++ r := by
  induction s with
  | nil => exact ⟨[], by simpa using after?_eq_some_iff.mp h⟩
  | cons d s ih =>
    rw [afterFirst?] at h
    split at h
    · next hd =>
      cases h
      exact ⟨[], after?_eq_some_iff.mp hd⟩
    · obtain ⟨w, rfl⟩ := ih h
      exact ⟨d :: w, rfl⟩

/-- **The leftmost occurrence leaves the longest rest**: it is found if there is any
occurrence, and what another one leaves is the end of what it leaves. -/
theorem exists_afterFirst? {w t : List Char} (h : s = w ++ p ++ t) :
    ∃ r, afterFirst? p s = some r ∧ t <:+ r := by
  induction s generalizing w with
  | nil =>
    obtain ⟨hwp, rfl⟩ := List.append_eq_nil_iff.mp h.symm
    obtain ⟨_, rfl⟩ := List.append_eq_nil_iff.mp hwp
    exact ⟨[], rfl, List.suffix_rfl⟩
  | cons d s ih =>
    rw [afterFirst?]
    split
    · next r hr =>
      -- of two ends of one text the one behind the earlier occurrence is the longer one
      have hleft : d :: s = p ++ r := after?_eq_some_iff.mp hr
      have hlength := congrArg List.length (h.symm.trans hleft)
      simp only [List.length_append] at hlength
      exact ⟨r, rfl, List.suffix_of_suffix_length_le ⟨w ++ p, h.symm⟩ ⟨p, hleft.symm⟩ (by omega)⟩
    · next hnone =>
      cases w with
      | nil => exact absurd (after?_eq_some_iff.mpr h) (by simp [hnone])
      | cons c w => exact ih (List.cons.inj h).2

/-- **Taking pieces at their leftmost occurrence loses nothing**: a text ends in pieces with
gaps exactly if it does so when they are taken like this. -/
theorem trails_iff : trails p ps s = true ↔ ∃ w t, s = w ++ t ∧ Fits (p :: ps) t := by
  induction ps generalizing p s with
  | nil =>
    rw [trails, List.isSuffixOf_iff_suffix]
    constructor
    · rintro ⟨w, rfl⟩
      exact ⟨w, p, rfl, .last p⟩
    · rintro ⟨w, t, rfl, h⟩
      rw [fits_singleton_iff.mp h]
      exact List.suffix_append w p
  | cons q ps ih =>
    rw [trails]
    constructor
    · intro h
      split at h
      · next r hr =>
        obtain ⟨w, rfl⟩ := exists_of_afterFirst? hr
        obtain ⟨w', t, rfl, ht⟩ := ih.mp h
        exact ⟨w, p ++ w' ++ t, by simp, .gap p w' ht⟩
      · cases h
    · rintro ⟨w, t, rfl, h⟩
      obtain ⟨w', t', rfl, ht⟩ := (fits_cons_iff (List.cons_ne_nil q ps)).mp h
      obtain ⟨r, hr, u, rfl⟩ := exists_afterFirst? (p := p) (s := w ++ (p ++ w' ++ t'))
        (w := w) (t := w' ++ t') (by simp)
      rw [hr]
      exact ih.mpr ⟨u ++ w', t', (List.append_assoc _ _ _).symm, ht⟩

/-- **Deciding without backtracking is right.** -/
theorem fits_iff {pieces : List (List Char)} : fits pieces s = true ↔ Fits pieces s := by
  match pieces with
  | [] => exact ⟨fun h => (nomatch h), fun h => (nomatch h)⟩
  | [p] => rw [fits, beq_iff_eq, fits_singleton_iff, eq_comm]
  | p :: q :: ps =>
    rw [fits, fits_cons_iff (List.cons_ne_nil q ps)]
    constructor
    · intro h
      split at h
      · next r hr =>
        obtain ⟨w, t, rfl, ht⟩ := trails_iff.mp h
        exact ⟨w, t, by rw [after?_eq_some_iff.mp hr, List.append_assoc], ht⟩
      · cases h
    · rintro ⟨w, t, rfl, ht⟩
      rw [after?_eq_some_iff.mpr (List.append_assoc p w t)]
      exact trails_iff.mpr ⟨w, t, rfl, ht⟩

/-! ## Pieces of a text -/

/-- The pieces with stars between them are the text again. -/
theorem intercalate_pieces (text : List Char) : ['*'].intercalate (pieces text) = text :=
  List.intercalate_splitOn '*'

/-- No piece has a star in it. -/
theorem noStar_of_mem_pieces (text : List Char) : ∀ p ∈ pieces text, '*' ∉ p :=
  not_mem_of_mem_splitOn '*' text

/-- There is one piece more than there are stars. -/
theorem length_pieces (text : List Char) : (pieces text).length = text.count '*' + 1 := by
  unfold pieces List.splitOn
  induction text with
  | nil => rfl
  | cons c text ih =>
    rw [List.splitOnP_cons_eq_if_modifyHead]
    split
    · next hc => rw [List.length_cons, ih, beq_iff_eq.mp hc, List.count_cons_self]
    · next hc => rw [List.length_modifyHead, ih, List.count_cons_of_ne (by simpa using hc)]

/-- A text without a star is its own only piece. -/
theorem pieces_of_noStar {text : List Char} (h : '*' ∉ text) : pieces text = [text] := by
  refine List.splitOnP_eq_singleton fun c hc => beq_eq_false_iff_ne.mpr ?_
  rintro rfl
  exact h hc

end Wildcard

end TreeQuery
