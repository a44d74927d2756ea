import TreeQuery.Proofs.Meaning

/-!
# The text of a pattern is its canonical query

Many queries give the same pattern. One of them is the text that the pattern is shown as, and
parsing comes back to the pattern from there. So the text stands for the pattern: two patterns
are the same exactly if their texts are.

Each part of parsing has to leave the text of a parsed pattern as it is. Cutting at slashes
gives the tokens of the segments back, because these are plain (`Segment.Canonical`); each
token compiles to its segment again; and normal segments are neither collapsed nor closed. That
`*` and `**` are kinds of their own and no wildcards matters here: their texts could not be told
from those of wildcards otherwise.
-/

namespace TreeQuery

/-- **A canonical segment**: its text is one token, and compiles to it. -/
structure Segment.Canonical (s : Segment) : Prop where
  plain : PlainName s.text
  compiles : compile s.text = .ok s

namespace Pattern

variable {ss : List Segment} {s : Segment}

/-! ## What parsing leaves as it is -/

/-- Where there are no runs, nothing is collapsed. -/
theorem collapse_of_noRuns (h : NoRuns ss) : collapse ss = ss := by
  induction ss with
  | nil => rfl
  | cons s rest ih =>
    unfold collapse
    rw [ih h.tail]
    split
    · exact absurd rfl (h.rel rfl)
    · rfl

/-- **Normal segments are neither collapsed nor closed.** -/
theorem close_collapse_of_normal (h : Normal ss) : close (collapse ss) = ss := by
  rw [collapse_of_noRuns (noRuns_of_normal h)]
  induction ss with
  | nil => rfl
  | cons s rest ih =>
    have hmore : s = .globstar → rest ≠ [] := fun hs => by
      obtain ⟨t, later, rfl, _⟩ := h.1 hs
      exact List.cons_ne_nil t later
    rw [close_cons hmore, ih h.tail]

/-! ## Canonical segments -/

/-- Collapsing only leaves out segments. -/
theorem collapse_sublist (ss : List Segment) : (collapse ss).Sublist ss := by
  induction ss with
  | nil => exact .slnil
  | cons s rest ih =>
    unfold collapse
    split
    · next r hr =>
      rw [← hr]
      exact ih.cons _
    · exact ih.cons_cons _

/-- Closing adds `*` at most. -/
theorem mem_close (h : s ∈ close ss) : s ∈ ss ∨ s = .any := by
  induction ss with
  | nil => cases h
  | cons t rest ih =>
    by_cases hfinal : t = .globstar ∧ rest = []
    · obtain ⟨rfl, rfl⟩ := hfinal
      simpa [close] using h
    · rw [close_cons fun ht hrest => hfinal ⟨ht, hrest⟩] at h
      rcases List.mem_cons.mp h with rfl | hlater
      · exact .inl List.mem_cons_self
      · exact (ih hlater).imp_left (List.mem_cons_of_mem t)

/-- The tokens of a query are plain. -/
theorem plain_of_mem_tokens {query token : String} (h : token ∈ tokens query) :
    PlainName token := by
  rw [tokens_eq_names] at h
  obtain ⟨hmem, hne⟩ := List.mem_filter.mp h
  exact ⟨of_decide_eq_true hne, Path.noSlash_of_mem_pieces hmem⟩

/-- Each of the segments that tokens compile to comes from one of them. -/
theorem exists_token_of_mem {tokens : List String}
    (h : List.Forall₂ (fun token segment => Segment.compile token = .ok segment) tokens ss)
    (hs : s ∈ ss) : ∃ token ∈ tokens, Segment.compile token = .ok s := by
  induction h with
  | nil => cases hs
  | cons hfirst _ ih =>
    rcases List.mem_cons.mp hs with rfl | hs
    · exact ⟨_, List.mem_cons_self, hfirst⟩
    · obtain ⟨token, hmem, hcompiles⟩ := ih hs
      exact ⟨token, List.mem_cons_of_mem _ hmem, hcompiles⟩

/-- **The segments of a parsed pattern are canonical.** -/
theorem canonical_of_parse {query : String} {p : Pattern} (h : parse query = .ok p) :
    ∀ s ∈ p.segments, s.Canonical := by
  obtain ⟨compiled, hcompiled, hsegments⟩ := parse_eq_ok_iff.mp h
  have heach := mapM_compile_eq_ok_iff.mp hcompiled
  intro s hs
  rw [← hsegments] at hs
  rcases mem_close hs with hs | rfl
  · obtain ⟨token, htoken, hcompiles⟩ :=
      exists_token_of_mem heach ((collapse_sublist compiled).subset hs)
    have htext := Segment.text_of_compile hcompiles
    exact ⟨htext ▸ plain_of_mem_tokens htoken, htext ▸ hcompiles⟩
  · exact ⟨by decide, by decide⟩

/-- Canonical segments compile from their texts. -/
theorem mapM_compile_of_canonical (h : ∀ s ∈ ss, s.Canonical) :
    (ss.map Segment.text).mapM Segment.compile = .ok ss := by
  rw [mapM_compile_eq_ok_iff, List.forall₂_map_left_iff, List.forall₂_same]
  exact fun s hs => (h s hs).compiles

/-- The tokens of a text are those of its segments, if they are canonical. -/
theorem tokens_text {p : Pattern} (h : ∀ s ∈ p.segments, s.Canonical) :
    tokens p.text = p.segments.map Segment.text := by
  have hplain : ∀ n ∈ p.segments.map Segment.text, PlainName n :=
    List.forall_mem_map.mpr fun s hs => (h s hs).plain
  rw [tokens_eq_names]
  exact Path.names_ofNames hplain

/-- **Parsing the text of a pattern gives the pattern**, if this has been parsed. -/
theorem parse_text {query : String} {p : Pattern} (h : parse query = .ok p) :
    parse p.text = .ok p := by
  have hcanonical := canonical_of_parse h
  refine parse_eq_ok_iff.mpr ⟨p.segments, ?_, close_collapse_of_normal (normal_of_parse h)⟩
  rw [tokens_text hcanonical]
  exact mapM_compile_of_canonical hcanonical

/-- **The text of a pattern is its canonical query.** Parsing the text of a parsed pattern
gives the same pattern, and so the same text, again. Two parsed patterns are the same exactly
if their texts are, and then their segments accept the same names, level by level. -/
theorem text_is_canonical {query other : String} {p q : Pattern} (hp : parse query = .ok p)
    (hq : parse other = .ok q) :
    parse p.text = .ok p ∧ (parse p.text).map text = .ok p.text ∧ (p = q ↔ p.text = q.text) ∧
      (p.text = q.text →
        List.Forall₂ (fun s t => ∀ name, s.accepts name = t.accepts name)
          p.segments q.segments) := by
  have hback := parse_text hp
  have hsame : p.text = q.text → p = q := fun htext =>
    Except.ok.inj (hback.symm.trans (htext ▸ parse_text hq))
  refine ⟨hback, by rw [hback]; rfl, ⟨congrArg text, hsame⟩, fun htext => ?_⟩
  rw [hsame htext, List.forall₂_same]
  exact fun _ _ _ => rfl

/-- Two queries with one pattern. `***` is no `**`, and compiles to a wildcard again. -/
theorem text_is_canonical_starred :
    ∃ p q, parse "/a//***/**" = .ok p ∧ parse "a/***/**/**/*/" = .ok q ∧
      p.text = "a/***/**/*" ∧ q.text = "a/***/**/*" ∧ parse "a/***/**/*" = .ok p ∧ p = q := by
  have hp : parse "/a//***/**" = .ok ⟨.literal "a", [.wildcard "***", .globstar, .any]⟩ := by
    decide
  have hq : parse "a/***/**/**/*/" = .ok ⟨.literal "a", [.wildcard "***", .globstar, .any]⟩ := by
    decide
  obtain ⟨hback, _, hsame, _⟩ := text_is_canonical hp hq
  have htext : text ⟨.literal "a", [.wildcard "***", .globstar, .any]⟩ = "a/***/**/*" := by decide
  exact ⟨_, _, hp, hq, htext, htext, htext ▸ hback, hsame.mpr rfl⟩

end Pattern

end TreeQuery
