import TreeQuery.Path

/-!
# Names, and the paths that they spell

A store may list any texts as names. Where they are *plain* – not empty and
without a slash, as on every real disk – a path spells its names: joining adds
one name at the end, and the pieces of a path are the names that it was joined
from. Nothing that a walk reports is then ambiguous.
-/

namespace TreeQuery

/-- **A plain name**: a text that is one piece of a path. -/
structure PlainName (name : String) : Prop where
  ne_empty : name ≠ ""
  noSlash : '/' ∉ name.toList

instance : DecidablePred PlainName := fun name =>
  decidable_of_iff (name ≠ "" ∧ '/' ∉ name.toList) ⟨fun h => ⟨h.1, h.2⟩, fun h => ⟨h.1, h.2⟩⟩

/-- A plain name has a last character, and it is no slash. -/
theorem PlainName.getLast? {name : String} (h : PlainName name) :
    ∃ c, c ≠ '/' ∧ name.toList.getLast? = some c := by
  have hne : name.toList ≠ [] := fun he => h.ne_empty (String.toList_eq_nil_iff.mp he)
  refine ⟨name.toList.getLast hne, ?_, List.getLast?_eq_some_getLast hne⟩
  intro hc
  exact h.noSlash (hc ▸ List.getLast_mem hne)

namespace Path

/-- The path `n₁/…/nₖ`. -/
def ofNames (names : List String) : Path :=
  ⟨String.intercalate "/" names⟩

@[simp] theorem ofNames_nil : ofNames [] = root := by
  rw [ofNames, String.intercalate_nil, root]

/-- A plain name is a relative path. -/
theorem isAbsolute_of_plain {name : String} (h : PlainName name) :
    isAbsolute ⟨name⟩ = false := by
  unfold isAbsolute
  cases hl : name.toList with
  | nil => rfl
  | cons c cs =>
    have hc : c ≠ '/' := fun he => h.noSlash (by rw [hl, he]; exact List.mem_cons_self)
    simpa using hc

/-- A path that ends in a plain name needs a slash before the next one. -/
theorem needsSlash_of_getLast? {p : Path} {c : Char} (hc : c ≠ '/')
    (h : p.text.toList.getLast? = some c) : p.needsSlash = true := by
  unfold needsSlash
  rw [h]
  simpa using hc

/-- One more name stands behind one more slash. -/
theorem ofNames_concat {names : List String} (hne : names ≠ []) (name : String) :
    ofNames (names ++ [name]) = ⟨(ofNames names).text ++ "/" ++ name⟩ := by
  rw [ofNames, String.intercalate_append_of_ne_nil hne (List.cons_ne_nil name []),
    String.intercalate_singleton, ofNames]

theorem needsSlash_ofNames {names : List String} {name : String} (h : PlainName name) :
    (ofNames (names ++ [name])).needsSlash = true := by
  obtain ⟨c, hc, hlast⟩ := h.getLast?
  refine needsSlash_of_getLast? hc ?_
  by_cases hne : names = []
  · rw [hne, List.nil_append, ofNames, String.intercalate_singleton, hlast]
  · rw [ofNames_concat hne, String.toList_append, List.getLast?_append, hlast, Option.some_or]

/-- **Entering a directory adds its name**: under plain names, the path of an
entry spells the names of the directory and then the entry's own. -/
theorem entry_ofNames {names : List String} {name : String}
    (hnames : ∀ n ∈ names, PlainName n) (h : PlainName name) :
    (ofNames names).entry name = ofNames (names ++ [name]) := by
  rcases List.eq_nil_or_concat names with rfl | ⟨init, last, rfl⟩
  · rw [ofNames_nil, entry, root_join, List.nil_append, ofNames, String.intercalate_singleton]
  · rw [List.concat_eq_append] at hnames ⊢
    have hlast : PlainName last := hnames last (List.mem_append_right init (List.mem_singleton_self last))
    rw [entry, join_of_relative (isAbsolute_of_plain h), needsSlash_ofNames hlast, if_pos rfl,
      ofNames_concat (List.append_ne_nil_of_right_ne_nil init (List.cons_ne_nil last []))]

/-- An entry has a longer path than its directory. -/
theorem length_lt_entry {p : Path} {name : String} (h : PlainName name) :
    p.text.length < (p.entry name).text.length := by
  have hpos : 0 < name.length :=
    Nat.pos_of_ne_zero (fun h0 => h.ne_empty (String.length_eq_zero_iff.mp h0))
  rw [entry, join_of_relative (isAbsolute_of_plain h)]
  simp only [String.length_append]
  omega

/-- Texts without slashes are the pieces of what they make with slashes between them. -/
theorem pieces_intercalate {texts : List String} (hne : texts ≠ [])
    (noSlash : ∀ t ∈ texts, '/' ∉ t.toList) : pieces ⟨String.intercalate "/" texts⟩ = texts := by
  have hsplit : (String.intercalate "/" texts).toList.splitOn '/' = texts.map String.toList := by
    rw [String.toList_intercalate]
    refine List.splitOn_intercalate '/' ?_ (by simpa using hne)
    intro l hl
    obtain ⟨t, ht, rfl⟩ := List.mem_map.mp hl
    exact noSlash t ht
  rw [pieces, hsplit, List.map_map]
  exact (List.map_congr_left fun t _ => String.ofList_toList).trans (List.map_id _)

/-- **The pieces of a path are its names.** -/
theorem pieces_ofNames {names : List String} (hne : names ≠ [])
    (hnames : ∀ n ∈ names, PlainName n) : (ofNames names).pieces = names :=
  pieces_intercalate hne fun n hn => (hnames n hn).noSlash

/-- Names do not come to the empty path. -/
theorem ofNames_ne_root {names : List String} (hne : names ≠ [])
    (hnames : ∀ n ∈ names, PlainName n) : ofNames names ≠ root := by
  intro h
  have hpieces := pieces_ofNames hne hnames
  rw [h, show root.pieces = [""] from by decide] at hpieces
  exact (hnames "" (hpieces ▸ List.mem_singleton_self "")).ne_empty rfl

/-- A plain name is its only piece. -/
theorem pieces_of_plain {name : String} (h : PlainName name) : pieces ⟨name⟩ = [name] := by
  have hpieces := pieces_ofNames (List.cons_ne_nil name []) (List.forall_mem_singleton.mpr h)
  rwa [ofNames, String.intercalate_singleton] at hpieces

/-- The names of a path: its pieces, but for the empty one that the empty path consists
of. -/
def names (p : Path) : List String :=
  p.pieces.filter (· ≠ "")

/-- **A path has the names that it spells**, also if there are none. -/
theorem names_ofNames {ns : List String} (hns : ∀ n ∈ ns, PlainName n) :
    (ofNames ns).names = ns := by
  by_cases hne : ns = []
  · rw [hne, ofNames_nil]
    decide
  · rw [names, pieces_ofNames hne hns]
    exact List.filter_eq_self.mpr fun n hn => decide_eq_true (hns n hn).ne_empty

/-- Plain names can be told apart by the paths that they spell. -/
theorem ofNames_inj {ns ms : List String} (hns : ∀ n ∈ ns, PlainName n)
    (hms : ∀ m ∈ ms, PlainName m) (hn : ns ≠ []) (hm : ms ≠ []) (h : ofNames ns = ofNames ms) :
    ns = ms := by
  rw [← pieces_ofNames hn hns, h, pieces_ofNames hm hms]

end Path

end TreeQuery
