import TreeQuery.Glob.Segment
import TreeQuery.Proofs.Stars

/-!
# What a token accepts

A token with stars is compiled to an expression, and an engine matches names against it.
All that is known about the engine is what is documented (`Engine.Documented`): what an
escaped text stands for, what `.*` stands for where a dot is any character, and that between
`^` and `$` a text is matched as a whole. From this it follows that a name is accepted if it
is the pieces of the token with any texts in the gaps – by induction on the pieces, each of
which is escaped and has a `.*` behind it but for the last one (`Engine.Documented.means_ofPieces`).

Tokens without an expression are instances of the same rule. A token without a star is its
own only piece, and the pieces of `*` and `**` are all empty.

The standard engine is one of those that are documented so (`Engine.documented_standard`). It
reads the pieces back from an expression, character by character. What it has read stands for
the same texts as the expression, and this is shown of a part of an expression with anything
behind it, so that parts can be joined.
-/

namespace TreeQuery

open Expression

/-! ## What is documented -/

/-- **Expressions that are built** of escaped texts and of gaps. -/
inductive Expression.Built : List Char → Prop
  | escaped (text : List Char) : Built (escape text)
  | anything : Built anything
  | joined {e e' : List Char} (first : Built e) (last : Built e') : Built (e ++ e')

/-- **What is documented about an engine**, for the expressions that are built here.
`Means e w` says that the expression `e` stands for the text `w`, if a dot is any character,
a line break included. -/
structure Engine.Documented (engine : Engine) (Means : (e w : List Char) → Prop) : Prop where
  /-- An escaped text stands for itself alone. -/
  escaped : ∀ text w, Means (escape text) w ↔ w = text
  /-- `.*` stands for every text. -/
  anything : ∀ w, Means anything w
  /-- One expression behind another stands for one text behind another. -/
  joined : ∀ {e e'}, Built e → Built e' → ∀ w,
    Means (e ++ e') w ↔ ∃ u v, w = u ++ v ∧ Means e u ∧ Means e' v
  /-- Between `^` and `$` an expression that is taken stands for whole texts only. -/
  anchored : ∀ {e}, Built e → engine.takes (anchored e) = true → ∀ text,
    engine.finds (anchored e) text = true ↔ Means e text

namespace Engine.Documented

variable {engine : Engine} {Means : (e w : List Char) → Prop} {p : List Char}
  {ps : List (List Char)} {s : List Char}

/-- The expression of pieces, one piece in front of the others. -/
theorem ofPieces_cons_cons (p q : List Char) (ps : List (List Char)) :
    ofPieces (p :: q :: ps) = escape p ++ (Expression.anything ++ ofPieces (q :: ps)) := by
  simp [ofPieces, List.intercalate]

theorem ofPieces_singleton (p : List Char) : ofPieces [p] = escape p := by
  simp [ofPieces, List.intercalate]

/-- The expression of pieces is built. -/
theorem built_ofPieces (p : List Char) (ps : List (List Char)) : Built (ofPieces (p :: ps)) := by
  induction ps generalizing p with
  | nil => exact ofPieces_singleton p ▸ .escaped p
  | cons q ps ih => exact ofPieces_cons_cons p q ps ▸ .joined (.escaped p) (.joined .anything (ih q))

/-- **The expression of pieces stands for what fits them.** -/
theorem means_ofPieces (documented : engine.Documented Means) :
    Means (ofPieces (p :: ps)) s ↔ Wildcard.Fits (p :: ps) s := by
  induction ps generalizing p s with
  | nil => rw [ofPieces_singleton, documented.escaped, Wildcard.fits_singleton_iff]
  | cons q ps ih =>
    have hrest : Built (ofPieces (q :: ps)) := built_ofPieces q ps
    rw [ofPieces_cons_cons, documented.joined (.escaped p) (.joined .anything hrest),
      Wildcard.fits_cons_iff (List.cons_ne_nil q ps)]
    simp only [documented.escaped, documented.joined .anything hrest, ih]
    constructor
    · rintro ⟨_, _, rfl, rfl, w, t, rfl, _, ht⟩
      exact ⟨w, t, (List.append_assoc _ _ _).symm, ht⟩
    · rintro ⟨w, t, rfl, ht⟩
      exact ⟨p, w ++ t, List.append_assoc _ _ _, rfl, w, t, rfl, documented.anything w, ht⟩

/-- **An engine finds what fits the pieces of a text**, if it takes the expression. -/
theorem finds_ofText_iff (documented : engine.Documented Means) {text : List Char}
    (takes : engine.takes (ofText text) = true) (name : List Char) :
    engine.finds (ofText text) name = true ↔ Wildcard.Fits (Wildcard.pieces text) name := by
  obtain ⟨p, ps, hpieces⟩ := List.exists_cons_of_length_eq_add_one (Wildcard.length_pieces text)
  rw [ofText, hpieces] at takes ⊢
  rw [documented.anchored (built_ofPieces p ps) takes, documented.means_ofPieces]

end Engine.Documented

/-! ## The standard engine -/

/-- **What an expression stands for**, read from its first character on. -/
inductive Expression.Stands : (e w : List Char) → Prop
  | nil : Stands [] []
  | plain {c : Char} {e w : List Char} (means : c ∉ metacharacters) (rest : Stands e w) :
      Stands (c :: e) (c :: w)
  | escaped {c : Char} {e w : List Char} (means : c ∈ metacharacters) (rest : Stands e w) :
      Stands ('\\' :: c :: e) (c :: w)
  | gap {e w : List Char} (u : List Char) (rest : Stands e w) : Stands ('.' :: '*' :: e) (u ++ w)

namespace Expression

variable {c : Char} {e e' w : List Char}

theorem stands_nil_iff : Stands [] w ↔ w = [] :=
  ⟨fun h => by cases h; rfl, fun h => h ▸ .nil⟩

theorem stands_plain_iff (hc : c ∉ metacharacters) :
    Stands (c :: e) w ↔ ∃ v, w = c :: v ∧ Stands e v := by
  constructor
  · intro h
    generalize hx : c :: e = x at h
    cases h with
    | nil => cases hx
    | plain _ rest => cases hx; exact ⟨_, rfl, rest⟩
    | escaped | gap => exact absurd ((List.cons.inj hx).1 ▸ by decide) hc
  · rintro ⟨v, rfl, rest⟩
    exact .plain hc rest

theorem stands_escaped_iff (hc : c ∈ metacharacters) :
    Stands ('\\' :: c :: e) w ↔ ∃ v, w = c :: v ∧ Stands e v := by
  constructor
  · intro h
    generalize hx : '\\' :: c :: e = x at h
    cases h with
    | nil => cases hx
    | plain means => exact absurd ((List.cons.inj hx).1 ▸ by decide) means
    | escaped _ rest => cases hx; exact ⟨_, rfl, rest⟩
    | gap => exact absurd (List.cons.inj hx).1 (by decide)
  · rintro ⟨v, rfl, rest⟩
    exact .escaped hc rest

theorem stands_gap_iff : Stands (anything ++ e) w ↔ ∃ u v, w = u ++ v ∧ Stands e v := by
  constructor
  · intro h
    generalize hx : anything ++ e = x at h
    cases h with
    | nil => cases hx
    | plain means => exact absurd ((List.cons.inj hx).1 ▸ by decide) means
    | escaped => exact absurd (List.cons.inj hx).1 (by decide)
    | gap u rest => cases hx; exact ⟨u, _, rfl, rest⟩
  · rintro ⟨u, v, rfl, rest⟩
    exact .gap u rest

/-- An escaped text in front stands for that text. -/
theorem stands_escape_append_iff (text : List Char) :
    Stands (escape text ++ e) w ↔ ∃ v, w = text ++ v ∧ Stands e v := by
  induction text generalizing w with
  | nil => simp [escape]
  | cons c text ih =>
    have hnext : Stands (escape (c :: text) ++ e) w ↔
        ∃ v, w = c :: v ∧ Stands (escape text ++ e) v := by
      rw [escape, List.flatMap_cons, List.append_assoc]
      by_cases hc : c ∈ metacharacters
      · rw [if_pos hc]
        exact stands_escaped_iff hc
      · rw [if_neg hc]
        exact stands_plain_iff hc
    rw [hnext]
    constructor
    · rintro ⟨_, rfl, h⟩
      obtain ⟨v, rfl, hv⟩ := ih.mp h
      exact ⟨v, rfl, hv⟩
    · rintro ⟨v, rfl, hv⟩
      exact ⟨text ++ v, rfl, ih.mpr ⟨v, rfl, hv⟩⟩

theorem stands_escape_iff (text : List Char) : Stands (escape text) w ↔ w = text := by
  have hescape := stands_escape_append_iff (e := []) (w := w) text
  simpa [stands_nil_iff] using hescape

theorem stands_anything (w : List Char) : Stands anything w := by
  have hany := stands_gap_iff (e := []) (w := w)
  exact hany.mpr ⟨w, [], (List.append_nil w).symm, .nil⟩

/-- **What is built in front of an expression** stands for a text in front. -/
theorem stands_append_iff (built : Built e) :
    Stands (e ++ e') w ↔ ∃ u v, w = u ++ v ∧ Stands e u ∧ Stands e' v := by
  induction built generalizing e' w with
  | escaped text =>
    simp only [stands_escape_append_iff, stands_escape_iff]
    constructor
    · rintro ⟨v, rfl, hv⟩
      exact ⟨text, v, rfl, rfl, hv⟩
    · rintro ⟨_, v, rfl, rfl, hv⟩
      exact ⟨v, rfl, hv⟩
  | anything => simp only [stands_gap_iff, stands_anything, true_and]
  | joined first last ihFirst ihLast =>
    rw [List.append_assoc, ihFirst]
    constructor
    · rintro ⟨u, _, rfl, hu, h⟩
      obtain ⟨u', v, rfl, hu', hv⟩ := ihLast.mp h
      exact ⟨u ++ u', v, (List.append_assoc _ _ _).symm, ihFirst.mpr ⟨u, u', rfl, hu, hu'⟩, hv⟩
    · rintro ⟨_, v, rfl, h, hv⟩
      obtain ⟨u, u', rfl, hu, hu'⟩ := ihFirst.mp h
      exact ⟨u, u' ++ v, List.append_assoc _ _ _, hu, ihLast.mpr ⟨u', v, rfl, hu', hv⟩⟩

end Expression

namespace Engine

variable {c : Char} {e rest w : List Char} {ps : List (List Char)}

/-- A character in front of pieces is one in front of what fits them. -/
theorem fits_extend_iff :
    Wildcard.Fits (extend c ps) w ↔ ∃ v, w = c :: v ∧ Wildcard.Fits ps v := by
  match ps with
  | [] => exact ⟨(nomatch ·), fun ⟨_, _, h⟩ => nomatch h⟩
  | [p] => simp [extend, Wildcard.fits_singleton_iff]
  | p :: q :: ps =>
    simp only [extend, Wildcard.fits_cons_iff (List.cons_ne_nil q ps)]
    constructor
    · rintro ⟨u, t, rfl, ht⟩
      exact ⟨p ++ u ++ t, rfl, u, t, rfl, ht⟩
    · rintro ⟨_, rfl, u, t, rfl, ht⟩
      exact ⟨u, t, rfl, ht⟩

theorem extend_ne_nil (h : ps ≠ []) : extend c ps ≠ [] := by
  cases ps with
  | nil => exact absurd rfl h
  | cons p ps => exact List.cons_ne_nil _ _

theorem readPieces?_plain (hc : c ∉ metacharacters) :
    readPieces? (c :: e) = (readPieces? e).map (extend c) := by
  have hne : ∀ m ∈ metacharacters, c ≠ m := fun m hm heq => hc (heq ▸ hm)
  rw [readPieces?, if_neg hc]
  · exact fun heq => absurd heq (hne '$' (by decide))
  · exact fun _ _ heq => absurd heq (hne '\\' (by decide))
  · exact fun _ heq => absurd heq (hne '.' (by decide))

theorem readPieces?_escaped : readPieces? ('\\' :: c :: e) = (readPieces? e).map (extend c) := by
  rw [readPieces?]

theorem readPieces?_anything :
    readPieces? (anything ++ e) = (readPieces? e).map ([] :: ·) := by
  rw [anything, List.cons_append, List.singleton_append, readPieces?]

/-- **An escaped text is read back**, in front of the first of the pieces behind it. -/
theorem readPieces?_escape_append (text : List Char) :
    readPieces? (escape text ++ e) = (readPieces? e).map fun ps => text.foldr extend ps := by
  induction text with
  | nil => simp [escape]
  | cons c text ih =>
    have hnext : readPieces? (escape (c :: text) ++ e)
        = (readPieces? (escape text ++ e)).map (extend c) := by
      rw [escape, List.flatMap_cons, List.append_assoc]
      by_cases hc : c ∈ metacharacters
      · rw [if_pos hc]
        exact readPieces?_escaped
      · rw [if_neg hc]
        exact readPieces?_plain hc
    rw [hnext, ih, Option.map_map]
    rfl

theorem fits_foldr_extend_iff (text : List Char) :
    Wildcard.Fits (text.foldr extend ps) w ↔ ∃ v, w = text ++ v ∧ Wildcard.Fits ps v := by
  induction text generalizing w with
  | nil => simp
  | cons c text ih =>
    simp only [List.foldr_cons, fits_extend_iff, ih]
    constructor
    · rintro ⟨_, rfl, v, rfl, hv⟩
      exact ⟨v, rfl, hv⟩
    · rintro ⟨v, rfl, hv⟩
      exact ⟨text ++ v, rfl, v, rfl, hv⟩

theorem foldr_extend_ne_nil (h : ps ≠ []) (text : List Char) : text.foldr extend ps ≠ [] := by
  induction text with
  | nil => exact h
  | cons c text ih => exact extend_ne_nil ih

/-- **What is built is read**: in front of something that is read as some pieces, it is read
as pieces which are fitted by what it stands for, with what fits those pieces behind it. -/
theorem exists_readPieces? (built : Built e) (hne : ps ≠ []) (hrest : readPieces? rest = some ps) :
    ∃ ps', ps' ≠ [] ∧ readPieces? (e ++ rest) = some ps' ∧ ∀ w, Wildcard.Fits ps' w ↔
      ∃ u v, w = u ++ v ∧ Stands e u ∧ Wildcard.Fits ps v := by
  induction built generalizing rest ps with
  | escaped text =>
    refine ⟨text.foldr extend ps, foldr_extend_ne_nil hne text, ?_, fun w => ?_⟩
    · rw [readPieces?_escape_append, hrest]
      rfl
    · simp only [fits_foldr_extend_iff, stands_escape_iff]
      constructor
      · rintro ⟨v, rfl, hv⟩
        exact ⟨text, v, rfl, rfl, hv⟩
      · rintro ⟨_, v, rfl, rfl, hv⟩
        exact ⟨v, rfl, hv⟩
  | anything =>
    refine ⟨[] :: ps, List.cons_ne_nil _ _, ?_, fun w => ?_⟩
    · rw [readPieces?_anything, hrest]
      rfl
    · simp only [Wildcard.fits_cons_iff hne, List.nil_append, stands_anything, true_and]
  | joined first last ihFirst ihLast =>
    obtain ⟨mid, hmid, hread, hfits⟩ := ihLast hne hrest
    obtain ⟨ps', hps', hread', hfits'⟩ := ihFirst hmid hread
    refine ⟨ps', hps', by rw [List.append_assoc, hread'], fun w => ?_⟩
    rw [hfits']
    constructor
    · rintro ⟨u, _, rfl, hu, h⟩
      obtain ⟨u', v, rfl, hu', hv⟩ := (hfits _).mp h
      exact ⟨u ++ u', v, (List.append_assoc _ _ _).symm,
        (stands_append_iff first).mpr ⟨u, u', rfl, hu, hu'⟩, hv⟩
    · rintro ⟨_, v, rfl, h, hv⟩
      obtain ⟨u, u', rfl, hu, hu'⟩ := (stands_append_iff first).mp h
      exact ⟨u, u' ++ v, List.append_assoc _ _ _, hu, (hfits _).mpr ⟨u', v, rfl, hu', hv⟩⟩

/-- **The standard engine does what is documented.** -/
theorem documented_standard : standard.Documented Stands where
  escaped text w := stands_escape_iff text
  anything := stands_anything
  joined built _ w := stands_append_iff built
  anchored {e} built _ text := by
    have hend : readPieces? ['$'] = some [[]] := rfl
    obtain ⟨ps, _, hread, hfits⟩ := exists_readPieces? built (List.cons_ne_nil [] []) hend
    have hfinds : standard.finds (anchored e) text = Wildcard.fits ps text := by
      show (readPieces? (e ++ ['$'])).any _ = _
      rw [hread, Option.any_some]
    rw [hfinds, Wildcard.fits_iff, hfits]
    simp only [Wildcard.fits_singleton_iff]
    constructor
    · rintro ⟨u, _, rfl, hu, rfl⟩
      rwa [List.append_nil]
    · exact fun h => ⟨text, [], (List.append_nil text).symm, h, rfl⟩

end Engine

/-! ## Segments -/

namespace Segment

variable {engine : Engine} {Means : (e w : List Char) → Prop} {token : String} {segment : Segment}

/-- **All four kinds of segment have one meaning**: they accept the names that fit the pieces
of their token. -/
theorem accepts_iff_fits (documented : engine.Documented Means)
    (compiled : compileWith engine token = .ok segment) (name : String) :
    segment.acceptsWith engine name = true ↔
      Wildcard.Fits (Wildcard.pieces token.toList) name.toList := by
  unfold compileWith at compiled
  split at compiled
  · next h =>
    cases compiled
    have hpieces : Wildcard.pieces token.toList = [[], [], []] := by rw [h]; decide
    rw [hpieces]
    refine ⟨fun _ => ?_, fun _ => rfl⟩
    simpa using Wildcard.Fits.gap [] name.toList (.gap [] [] (.last []))
  · split at compiled
    · next h =>
      cases compiled
      have hpieces : Wildcard.pieces token.toList = [[], []] := by rw [h]; decide
      rw [hpieces]
      refine ⟨fun _ => ?_, fun _ => rfl⟩
      simpa using Wildcard.Fits.gap [] name.toList (.last [])
    · split at compiled
      · next h =>
        cases compiled
        rw [acceptsWith, decide_eq_true_iff, Wildcard.pieces_of_noStar h,
          Wildcard.fits_singleton_iff, String.toList_inj, eq_comm]
      · split at compiled
        · next takes =>
          cases compiled
          exact documented.finds_ofText_iff takes name.toList
        · cases compiled

/-- **A token accepts its pieces with any texts in the gaps.** Let an engine do what is
documented: an escaped text stands for itself, `.*` for any text, expressions one behind the
other for texts one behind the other, and between `^` and `$` texts are matched as a whole.
Whatever kind of segment a token compiles to, and whatever characters it has: the token is a
first piece and one more for each star, with these stars between them and none in them; and a
name is accepted exactly if it is the first piece and then, for each of the others, any text
and that piece. -/
theorem accepts_iff_exists_gaps (documented : engine.Documented Means)
    (compiled : compileWith engine token = .ok segment) :
    ∃ first rest, ['*'].intercalate (first :: rest) = token.toList ∧
      (∀ piece ∈ first :: rest, '*' ∉ piece) ∧ rest.length = token.toList.count '*' ∧
      ∀ name : String, segment.acceptsWith engine name = true ↔
        ∃ gaps : List (List Char), gaps.length = rest.length ∧
          name.toList = first ++ (List.zipWith (· ++ ·) gaps rest).flatten := by
  have hlength := Wildcard.length_pieces token.toList
  obtain ⟨first, rest, hpieces⟩ := List.exists_cons_of_length_eq_add_one hlength
  rw [hpieces] at hlength
  refine ⟨first, rest, hpieces ▸ Wildcard.intercalate_pieces token.toList,
    hpieces ▸ Wildcard.noStar_of_mem_pieces token.toList, Nat.succ.inj hlength, fun name => ?_⟩
  have hfits := accepts_iff_fits documented compiled name
  rw [hpieces] at hfits
  exact hfits.trans Wildcard.fits_iff_exists_gaps

/-- The two pieces may not overlap: a name is accepted that has a line break between them, and
not one in which a character would have to stand for both. -/
theorem accepts_iff_exists_gaps_overlapping :
    Engine.standard.Documented Stands ∧ compile "ab*b" = .ok (.wildcard "ab*b") ∧
      (wildcard "ab*b").accepts "ab\nb" = true ∧ (wildcard "ab*b").accepts "ab" = false := by
  have compiled : compile "ab*b" = .ok (.wildcard "ab*b") := rfl
  obtain ⟨first, rest, hjoined, hfree, _, haccepts⟩ :=
    accepts_iff_exists_gaps Engine.documented_standard compiled
  obtain ⟨rfl, rfl⟩ : first = ['a', 'b'] ∧ rest = [['b']] := by
    have hsplit := List.splitOn_intercalate '*' hfree (List.cons_ne_nil first rest)
    rw [hjoined, show "ab*b".toList.splitOn '*' = [['a', 'b'], ['b']] by decide] at hsplit
    exact List.cons.inj hsplit.symm
  refine ⟨Engine.documented_standard, compiled, (haccepts _).mpr ⟨[['\n']], rfl, by decide⟩,
    Bool.eq_false_iff.mpr fun h => ?_⟩
  obtain ⟨gaps, hgaps, hname⟩ := (haccepts _).mp h
  obtain ⟨gap, rfl⟩ := List.length_eq_one_iff.mp hgaps
  have hsize := congrArg List.length hname
  simp at hsize

end Segment

end TreeQuery
