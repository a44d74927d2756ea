import TreeQuery.Proofs.Alternation
import TreeQuery.Proofs.Descents

/-!
# Parsing keeps what a query asks for

Between the tokens of a query and the segments of its pattern two things happen: a run of
`**` becomes one, and a `*` is put behind a `**` at the end. What the tokens ask for (`Asks`)
has a clause of its own for a final `**`, which stands for one name or more, while what the
segments denote (`Denotes`) has none.

Neither step changes the lists of names. A `**` takes up names for any others behind it, so
one of them is as good as a run, also at the end, where only the last one needs a name
(`asks_collapse_iff`). And one name or more is any names and then one for the `*`
(`asks_iff_denotes_close`). The first step is looked at in terms of `Asks` alone, because
closing comes after it.
-/

namespace TreeQuery

/-! ## What tokens ask for -/

theorem asks_nil_iff {names : List String} : Asks [] names ↔ names = [] := by
  constructor
  · intro h
    cases h
    rfl
  · rintro rfl
    exact .done

variable {s : Segment} {ss : List Segment} {names : List String}

/-- A single token asks for one name. -/
theorem asks_cons_iff (single : s ≠ .globstar) :
    Asks (s :: ss) names ↔
      ∃ n rest, names = n :: rest ∧ s.accepts n = true ∧ Asks ss rest := by
  constructor
  · intro h
    cases h with
    | name _ accepted rest => exact ⟨_, _, rfl, accepted, rest⟩
    | final | skip | more => exact absurd rfl single
  · rintro ⟨n, rest, rfl, accepted, h⟩
    exact .name single accepted h

/-- A final `**` asks for a name at least. -/
theorem asks_final_iff : Asks [.globstar] names ↔ names ≠ [] := by
  constructor
  · intro h
    cases h with
    | final n ns => exact List.cons_ne_nil n ns
    | name single => exact absurd rfl single
    | skip more | more _ more => exact absurd rfl more
  · intro hne
    obtain ⟨n, ns, rfl⟩ := List.exists_cons_of_ne_nil hne
    exact .final n ns

/-- Any other `**` asks for what the tokens behind it ask for, with any names in front. -/
theorem asks_globstar_iff (more : ss ≠ []) :
    Asks (.globstar :: ss) names ↔ ∃ above below, names = above ++ below ∧ Asks ss below := by
  constructor
  · intro h
    generalize htokens : Segment.globstar :: ss = tokens at h
    induction h with
    | done => cases htokens
    | name single _ _ _ => cases htokens; exact absurd rfl single
    | final => cases htokens; exact absurd rfl more
    | skip _ rest _ => cases htokens; exact ⟨[], _, rfl, rest⟩
    | more n _ _ ih =>
      obtain ⟨above, below, rfl, h⟩ := ih htokens
      exact ⟨n :: above, below, rfl, h⟩
  · rintro ⟨above, below, rfl, h⟩
    induction above with
    | nil => exact .skip more h
    | cons n above ih => exact .more n more ih

namespace Pattern

/-! ## Closing -/

/-- Closing goes past all but a final `**`. -/
theorem close_cons (h : s = .globstar → ss ≠ []) : close (s :: ss) = s :: close ss := by
  rw [close]
  rintro rfl rfl
  exact h rfl rfl

/-- **Closing makes what is asked for what is denoted.** -/
theorem asks_iff_denotes_close : Asks ss names ↔ Denotes (close ss) names := by
  induction ss generalizing names with
  | nil => exact asks_nil_iff.trans denotes_nil_iff.symm
  | cons s ss ih =>
    by_cases hs : s = .globstar
    · subst hs
      by_cases more : ss = []
      · -- one name or more is any names and then one
        subst more
        rw [asks_final_iff, close, denotes_globstar_iff]
        constructor
        · intro hne
          obtain ⟨init, last, rfl⟩ := (List.eq_nil_or_concat names).resolve_left hne
          exact ⟨init, [last], List.concat_eq_append, .name (by decide) rfl .done⟩
        · rintro ⟨above, below, rfl, h⟩
          obtain ⟨n, rest, rfl, _⟩ := (denotes_cons_iff (by decide)).mp h
          exact List.append_ne_nil_of_right_ne_nil above (List.cons_ne_nil n rest)
      · rw [close_cons fun _ => more]
        simp only [asks_globstar_iff more, denotes_globstar_iff, ih]
    · rw [close_cons fun h => absurd h hs]
      simp only [asks_cons_iff hs, denotes_cons_iff hs, ih]

/-! ## Collapsing -/

/-- More names may stand in front of what a `**` asks for. -/
theorem asks_above {above below : List String} (h : Asks (.globstar :: ss) below) :
    Asks (.globstar :: ss) (above ++ below) := by
  obtain ⟨later, hclose⟩ := exists_close_cons .globstar ss
  rw [asks_iff_denotes_close, hclose] at h ⊢
  exact h.above above

/-- A `**` in front of another one asks for nothing more. -/
theorem asks_globstar_globstar_iff :
    Asks (.globstar :: .globstar :: ss) names ↔ Asks (.globstar :: ss) names := by
  rw [asks_globstar_iff (List.cons_ne_nil _ _)]
  constructor
  · rintro ⟨above, below, rfl, h⟩
    exact asks_above h
  · intro h
    exact ⟨[], names, rfl, h⟩

/-- Collapsing leaves something of something. -/
theorem collapse_eq_nil_iff : collapse ss = [] ↔ ss = [] := by
  cases ss with
  | nil => simp [collapse]
  | cons s ss =>
    unfold collapse
    split <;> simp

/-- What tokens ask for depends only on what those behind the first one ask for. -/
theorem asks_cons_congr {ts : List Segment} (hnil : ss = [] ↔ ts = [])
    (h : ∀ names, Asks ss names ↔ Asks ts names) :
    Asks (s :: ss) names ↔ Asks (s :: ts) names := by
  by_cases hs : s = .globstar
  · subst hs
    by_cases more : ss = []
    · rw [more, hnil.mp more]
    · rw [asks_globstar_iff more, asks_globstar_iff fun he => more (hnil.mpr he)]
      simp only [h]
  · simp only [asks_cons_iff hs, h]

/-- **Collapsing keeps what is asked for.** -/
theorem asks_collapse_iff : Asks (collapse ss) names ↔ Asks ss names := by
  induction ss generalizing names with
  | nil => rfl
  | cons s ss ih =>
    have hrest : Asks (s :: collapse ss) names ↔ Asks (s :: ss) names :=
      asks_cons_congr collapse_eq_nil_iff fun _ => ih
    unfold collapse
    split
    · next r hr =>
      rw [hr, asks_globstar_globstar_iff] at hrest
      exact hrest
    · exact hrest

/-! ## Tokens that compile -/

/-- Tokens compile together if each of them does. -/
theorem mapM_compile_eq_ok_iff {tokens : List String} :
    tokens.mapM Segment.compile = .ok ss ↔
      List.Forall₂ (fun token segment => Segment.compile token = .ok segment) tokens ss := by
  induction tokens generalizing ss with
  | nil => simp [pure, Except.pure, eq_comm]
  | cons token tokens ih =>
    rw [List.mapM_cons, List.forall₂_cons_left_iff]
    cases Segment.compile token with
    | error e => simp [bind, Except.bind]
    | ok first =>
      simp only [← ih]
      cases tokens.mapM Segment.compile <;>
        simp [bind, Except.bind, pure, Except.pure, eq_comm]

/-- Where each token compiles there are segments for all of them. -/
theorem exists_forall₂_compile {tokens : List String}
    (compile : ∀ token ∈ tokens, ∃ segment, Segment.compile token = .ok segment) :
    ∃ asked, List.Forall₂ (fun token segment => Segment.compile token = .ok segment)
      tokens asked := by
  induction tokens with
  | nil => exact ⟨[], .nil⟩
  | cons token tokens ih =>
    obtain ⟨⟨first, hfirst⟩, hrest⟩ := List.forall_mem_cons.mp compile
    obtain ⟨rest, h⟩ := ih hrest
    exact ⟨first :: rest, .cons hfirst h⟩

/-- **Parsing keeps the meaning of a query.** Let every token of a query compile. The query is
refused as empty exactly if it has no token. Otherwise it is parsed, and the names that its
tokens ask for are those that the segments of the pattern denote. There is a segment, no `**`
stands right behind another one, and none at the end. -/
theorem parse_keeps_meaning {query : String}
    (compile : ∀ token ∈ tokens query, ∃ segment, Segment.compile token = .ok segment) :
    (parse query = .error .empty ↔ tokens query = []) ∧
      (tokens query ≠ [] → ∃ asked p,
        List.Forall₂ (fun token segment => Segment.compile token = .ok segment)
          (tokens query) asked ∧
        parse query = .ok p ∧ (∀ names, Asks asked names ↔ Denotes p.segments names) ∧
        p.segments ≠ [] ∧
        (p.segments.IsChain fun s t => ¬ (s = .globstar ∧ t = .globstar)) ∧
        p.segments.getLast? ≠ some .globstar) := by
  obtain ⟨asked, hasked⟩ := exists_forall₂_compile compile
  have hcompiled := mapM_compile_eq_ok_iff.mpr hasked
  have hparsed : ∀ q : Pattern, close (collapse asked) = q.segments → parse query = .ok q :=
    fun q hq => parse_eq_ok_iff.mpr ⟨asked, hcompiled, hq⟩
  by_cases hnone : tokens query = []
  · refine ⟨⟨fun _ => hnone, fun _ => ?_⟩, fun hsome => absurd hnone hsome⟩
    rw [parse, hnone]
    rfl
  · have hsome : collapse asked ≠ [] := fun he => hnone (by
      rw [collapse_eq_nil_iff.mp he] at hasked
      exact List.forall₂_nil_right_iff.mp hasked)
    obtain ⟨s, rest, hcollapsed⟩ := List.exists_cons_of_ne_nil hsome
    obtain ⟨later, hclosed⟩ := exists_close_cons s rest
    rw [← hcollapsed] at hclosed
    have hparse : parse query = .ok ⟨s, later⟩ := hparsed ⟨s, later⟩ hclosed
    refine ⟨⟨fun he => ?_, fun he => absurd he hnone⟩, fun _ => ?_⟩
    · rw [hparse] at he
      cases he
    · have hnormal := normal_of_parse hparse
      refine ⟨asked, ⟨s, later⟩, hasked, hparse, fun names => ?_, segments_ne_nil _,
        (noRuns_of_normal hnormal).imp fun _ _ h hboth => h hboth.1 hboth.2,
        getLast?_ne_of_normal hnormal⟩
      rw [segments_mk, ← hclosed, ← asks_iff_denotes_close, asks_collapse_iff]

/-- A query with slashes at both ends, an empty token between two `**`, and a `**` at its end:
this one asks for a name of its own. -/
theorem parse_keeps_meaning_slashes :
    let query := "/**//**/a*/**/"
    (∀ token ∈ tokens query, ∃ segment, Segment.compile token = .ok segment) ∧
      ∃ asked p, List.Forall₂ (fun token segment => Segment.compile token = .ok segment)
          ["**", "**", "a*", "**"] asked ∧
        parse query = .ok p ∧ p.text = "**/a*/**/*" ∧
        Asks asked ["x", "ab", "y"] ∧ ¬ Asks asked ["x", "ab"] := by
  intro query
  have htokens : tokens query = ["**", "**", "a*", "**"] := by decide
  have hparse : parse query = .ok ⟨.globstar, [.wildcard "a*", .globstar, .any]⟩ := by decide
  have hcompile : ∀ token ∈ tokens query, ∃ segment, Segment.compile token = .ok segment := by
    rw [htokens]
    have hglobstar : ∃ segment, Segment.compile "**" = .ok segment := ⟨.globstar, by decide⟩
    have hwildcard : ∃ segment, Segment.compile "a*" = .ok segment := ⟨.wildcard "a*", by decide⟩
    simp [hglobstar, hwildcard]
  obtain ⟨_, hmeaning⟩ := parse_keeps_meaning hcompile
  obtain ⟨asked, p, hasked, hparsed, hnames, _⟩ := hmeaning (by rw [htokens]; simp)
  obtain rfl : p = ⟨.globstar, [.wildcard "a*", .globstar, .any]⟩ :=
    Except.ok.inj (hparsed.symm.trans hparse)
  rw [htokens] at hasked
  refine ⟨hcompile, asked, _, hasked, hparse, by decide, ?_, ?_⟩
  · exact (hnames _).mpr (.more "x" (.skip (.name (by decide) (by decide)
      (.skip (.name (by decide) rfl .done)))))
  · -- the first name has to be left to the `**` in front, and then none is left for the last
    rw [hnames]
    intro h
    obtain ⟨above, below, hsplit, hbelow⟩ := denotes_globstar_iff.mp h
    obtain ⟨n, rest, rfl, accepted, hrest⟩ := (denotes_cons_iff (by decide)).mp hbelow
    obtain ⟨above', below', rfl, hbelow'⟩ := denotes_globstar_iff.mp hrest
    obtain ⟨m, rest, rfl, _, _⟩ := (denotes_cons_iff (by decide)).mp hbelow'
    match above with
    | [] =>
      obtain ⟨rfl, _⟩ := List.cons.inj hsplit
      exact absurd accepted (by decide)
    | [_] => simp at hsplit
    | _ :: _ :: _ => simp at hsplit

end Pattern

end TreeQuery
