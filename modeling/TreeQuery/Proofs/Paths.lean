import TreeQuery.Proofs.Names

/-!
# Pieces of joined paths

Joining is defined on texts, and its meaning on pieces: the pieces of the path come
first, but for an empty one that a slash at its end has left open, and then the pieces of
what is joined to it (`Path.pieces_join`). This holds of relative paths only, since an
absolute one takes the place of the whole path. Taking an absolute path from the top
makes it relative and leaves out only pieces that do not move (`Path.components_fromTop`),
so that nothing that has been taken from the top can take the place of anything.
-/

namespace TreeQuery

/-- Splitting at a character leaves none. -/
theorem not_mem_of_mem_splitOn (sep : Char) (cs : List Char) :
    ∀ part ∈ cs.splitOn sep, sep ∉ part := by
  unfold List.splitOn
  induction cs with
  | nil => simp
  | cons c cs ih =>
    obtain ⟨first, rest, hsplit⟩ :=
      List.exists_cons_of_ne_nil (List.splitOnP_ne_nil (· == sep) cs)
    rw [hsplit] at ih
    obtain ⟨hfirst, hrest⟩ := List.forall_mem_cons.mp ih
    rw [List.splitOnP_cons_eq_if_modifyHead, hsplit]
    by_cases hc : c = sep
    · rw [if_pos (beq_iff_eq.mpr hc)]
      exact List.forall_mem_cons.mpr ⟨List.not_mem_nil, ih⟩
    · rw [if_neg (fun h => hc (beq_iff_eq.mp h)), List.modifyHead_cons]
      refine List.forall_mem_cons.mpr ⟨fun hmem => ?_, hrest⟩
      rcases List.mem_cons.mp hmem with h | h
      · exact hc h.symm
      · exact hfirst h

/-- The parts between slashes have the characters of the whole, but for the slashes. -/
theorem exists_mem_splitOn_iff {c : Char} (hc : c ≠ '/') (cs : List Char) :
    (∃ part ∈ cs.splitOn '/', c ∈ part) ↔ c ∈ cs := by
  induction cs with
  | nil => simp
  | cons b cs ih =>
    obtain ⟨first, rest, hsplit⟩ := List.exists_cons_of_ne_nil (List.splitOn_ne_nil '/' cs)
    rw [hsplit] at ih
    rw [List.splitOn_cons_eq_if_modifyHead, hsplit, List.mem_cons, ← ih]
    by_cases hb : b = '/'
    · simp [hb, hc]
    · simp [hb, or_assoc]

/-- What is dropped from the front because of a property has it. -/
theorem filter_dropWhile {α : Type} (drops : α → Bool) (items : List α) :
    (items.dropWhile drops).filter (fun a => !drops a) = items.filter fun a => !drops a := by
  induction items with
  | nil => rfl
  | cons a items ih =>
    rw [List.dropWhile_cons]
    split
    · next ha => rw [ih, List.filter_cons_of_neg (by simp [ha])]
    · rfl

namespace Path

variable {p child : Path}

/-! ## Pieces -/

theorem pieces_ne_nil (p : Path) : p.pieces ≠ [] :=
  fun h => List.splitOn_ne_nil '/' p.text.toList (List.map_eq_nil_iff.mp h)

/-- A slash in a text parts its pieces. -/
theorem pieces_append_slash (before after : String) :
    pieces ⟨before ++ "/" ++ after⟩ = pieces ⟨before⟩ ++ pieces ⟨after⟩ := by
  unfold pieces List.splitOn
  rw [String.toList_append, String.toList_append, List.append_assoc, ← List.map_append]
  exact congrArg _ (List.splitOnP_append_cons before.toList after.toList (by decide))

/-- No piece has a slash. -/
theorem noSlash_of_mem_pieces {piece : String} (h : piece ∈ p.pieces) : '/' ∉ piece.toList := by
  obtain ⟨chars, hmem, rfl⟩ := List.mem_map.mp h
  rw [String.toList_ofList]
  exact not_mem_of_mem_splitOn '/' _ chars hmem

/-- The pieces have the characters of the path, but for the slashes. -/
theorem exists_mem_pieces_iff {c : Char} (hc : c ≠ '/') :
    (∃ piece ∈ p.pieces, c ∈ piece.toList) ↔ c ∈ p.text.toList := by
  rw [← exists_mem_splitOn_iff hc]
  constructor
  · rintro ⟨_, hpiece, h⟩
    obtain ⟨part, hpart, rfl⟩ := List.mem_map.mp hpiece
    exact ⟨part, hpart, by rwa [String.toList_ofList] at h⟩
  · rintro ⟨part, hpart, h⟩
    exact ⟨_, List.mem_map_of_mem hpart, by rwa [String.toList_ofList]⟩

/-- **The pieces that stay** in front of what is joined to a path. Behind a slash at its
end the last piece is still open. -/
def stem (p : Path) : List String :=
  if p.needsSlash then p.pieces else p.pieces.dropLast

/-- A path without need of a slash is empty, or ends in one. -/
theorem eq_of_needsSlash_eq_false (h : p.needsSlash = false) :
    p = root ∨ ∃ before, p = ⟨before ++ "/"⟩ := by
  unfold needsSlash at h
  split at h
  · next hlast =>
    refine .inl (congrArg mk (String.toList_eq_nil_iff.mp ?_))
    exact List.getLast?_eq_none_iff.mp hlast
  · next c hlast =>
    obtain ⟨init, hinit⟩ := List.getLast?_eq_some_iff.mp hlast
    obtain rfl : c = '/' := by simpa using h
    refine .inr ⟨String.ofList init, congrArg mk (String.toList_inj.mp ?_)⟩
    rw [hinit, String.toList_append, String.toList_ofList]
    rfl

theorem stem_root : stem root = [] := by decide

theorem stem_append_slash (before : String) :
    stem ⟨before ++ "/"⟩ = pieces ⟨before⟩ := by
  have hempty : pieces ⟨""⟩ = [""] := by decide
  have hsplit := pieces_append_slash before ""
  rw [String.append_empty, hempty] at hsplit
  have hneeds : needsSlash ⟨before ++ "/"⟩ = false := by
    unfold needsSlash
    simp
  rw [stem, hneeds, if_neg Bool.false_ne_true, hsplit, List.dropLast_concat]

/-- **Joining puts pieces behind pieces.** -/
theorem pieces_join (relative : child.isAbsolute = false) :
    (p.join child).pieces = p.stem ++ child.pieces := by
  rw [join_of_relative relative]
  cases hneeds : p.needsSlash with
  | true =>
    rw [if_pos rfl, pieces_append_slash, stem, hneeds, if_pos rfl]
  | false =>
    rw [if_neg Bool.false_ne_true, String.append_empty]
    rcases eq_of_needsSlash_eq_false hneeds with rfl | ⟨before, rfl⟩
    · rw [stem_root, root, String.empty_append, List.nil_append]
    · rw [stem_append_slash, pieces_append_slash]

/-! ## Pieces that move -/

/-- The pieces that are left open do not move. -/
theorem components_eq_stem (p : Path) :
    p.components = p.stem.filter fun piece => !isIdle piece := by
  unfold components
  cases hneeds : p.needsSlash with
  | true => rw [stem, hneeds, if_pos rfl]
  | false =>
    rcases eq_of_needsSlash_eq_false hneeds with rfl | ⟨before, rfl⟩
    · decide
    · have hsplit := pieces_append_slash before ""
      rw [String.append_empty] at hsplit
      rw [stem_append_slash, hsplit, List.filter_append]
      refine (List.append_right_eq_self.mpr ?_)
      decide

/-- **Joining puts what moves behind what moves.** -/
theorem components_join (relative : child.isAbsolute = false) :
    (p.join child).components = p.components ++ child.components := by
  rw [components, pieces_join relative, List.filter_append, ← components_eq_stem]
  rfl

/-- The path of an entry has one component more, its name. -/
theorem components_entry {dir : Path} {name : String} (h : PlainName name) (hdot : name ≠ ".") :
    (dir.entry name).components = dir.components ++ [name] := by
  have hname : components ⟨name⟩ = [name] := by
    rw [components, pieces_of_plain h]
    simp [isIdle, h.ne_empty, hdot]
  rw [entry, components_join (isAbsolute_of_plain h), hname]

theorem mem_components {piece : String} (moves : isIdle piece = false) :
    piece ∈ p.components ↔ piece ∈ p.pieces := by
  rw [components, List.mem_filter, moves]
  simp

/-- Going up is a piece that moves. -/
theorem goesUp_iff : p.goesUp = true ↔ ".." ∈ p.components := by
  rw [mem_components (by decide), goesUp, List.contains_iff_mem]

/-! ## From the top -/

/-- The pieces from the first to the last one that moves. -/
def trimmed (p : Path) : List String :=
  ((p.pieces.dropWhile isIdle).reverse.dropWhile isIdle).reverse

theorem mem_pieces_of_mem_trimmed {piece : String} (h : piece ∈ p.trimmed) : piece ∈ p.pieces := by
  have hback := (List.dropWhile_sublist _).subset (List.mem_reverse.mp h)
  exact (List.dropWhile_sublist _).subset (List.mem_reverse.mp hback)

/-- Trimming leaves out only pieces that do not move. -/
theorem filter_trimmed (p : Path) :
    (p.trimmed.filter fun piece => !isIdle piece) = p.components := by
  rw [trimmed, List.filter_reverse, filter_dropWhile, List.filter_reverse, List.reverse_reverse,
    filter_dropWhile, components]

/-- What has been trimmed begins, if at all, with a piece that moves. -/
theorem moves_of_head_trimmed {piece : String} (h : p.trimmed.head? = some piece) :
    isIdle piece = false := by
  obtain ⟨rest, htrimmed⟩ := List.head?_eq_some_iff.mp h
  have hprefix : p.trimmed <+: p.pieces.dropWhile isIdle := by
    rw [trimmed, ← List.reverse_suffix, List.reverse_reverse]
    exact List.dropWhile_suffix _
  obtain ⟨more, hmore⟩ := hprefix
  have hfirst := List.head?_dropWhile_not isIdle p.pieces
  rw [← hmore, htrimmed] at hfirst
  simpa using hfirst

/-- What begins with a text that is not empty is as absolute as that text is. -/
theorem isAbsolute_append {before : String} (hne : before ≠ "") (after : String) :
    isAbsolute ⟨before ++ after⟩ = isAbsolute ⟨before⟩ := by
  obtain ⟨c, cs, hbefore⟩ :=
    List.exists_cons_of_ne_nil (fun h => hne (String.toList_eq_nil_iff.mp h))
  unfold isAbsolute
  rw [String.toList_append, hbefore]
  rfl

theorem fromTop_of_absolute (h : p.isAbsolute = true) :
    p.fromTop = ⟨String.intercalate "/" p.trimmed⟩ := by
  rw [fromTop, if_pos h, trimmed]

theorem fromTop_of_relative (h : p.isAbsolute = false) : p.fromTop = p := by
  rw [fromTop, h, if_neg Bool.false_ne_true]

/-- Texts with slashes between them make a relative path, if the first one is plain. -/
theorem isAbsolute_intercalate {first : String} (h : PlainName first) (rest : List String) :
    isAbsolute ⟨String.intercalate "/" (first :: rest)⟩ = false := by
  by_cases hrest : rest = []
  · rw [hrest, String.intercalate_singleton, isAbsolute_of_plain h]
  · rw [String.intercalate_cons_of_ne_nil hrest, String.append_assoc,
      isAbsolute_append h.ne_empty, isAbsolute_of_plain h]

theorem isAbsolute_ofNames {names : List String} (h : ∀ n ∈ names, PlainName n) :
    (ofNames names).isAbsolute = false := by
  cases names with
  | nil => rfl
  | cons n names => exact isAbsolute_intercalate (h n List.mem_cons_self) names

/-- Joined to any path, names come to one that is not empty. -/
theorem text_join_ofNames_ne_empty (p : Path) {names : List String} (hne : names ≠ [])
    (h : ∀ n ∈ names, PlainName n) : (p.join (ofNames names)).text ≠ "" := by
  rw [join_of_relative (isAbsolute_ofNames h)]
  intro hempty
  exact ofNames_ne_root hne h (congrArg Path.mk (String.append_eq_empty_iff.mp hempty).2)

/-- **A path from the top is relative.** -/
theorem isAbsolute_fromTop (p : Path) : p.fromTop.isAbsolute = false := by
  cases h : p.isAbsolute with
  | false => rw [fromTop_of_relative h, h]
  | true =>
    rw [fromTop_of_absolute h]
    cases htrimmed : p.trimmed with
    | nil => rfl
    | cons piece rest =>
      have hmoves := moves_of_head_trimmed (htrimmed ▸ List.head?_cons)
      refine isAbsolute_intercalate ⟨?_, ?_⟩ rest
      · rintro rfl
        exact absurd hmoves (by decide)
      · exact noSlash_of_mem_pieces (mem_pieces_of_mem_trimmed (htrimmed ▸ List.mem_cons_self))

/-- **From the top nothing moves differently.** -/
theorem components_fromTop (p : Path) : p.fromTop.components = p.components := by
  cases h : p.isAbsolute with
  | false => rw [fromTop_of_relative h]
  | true =>
    rw [fromTop_of_absolute h, components]
    by_cases hne : p.trimmed = []
    · rw [hne, ← filter_trimmed, hne, String.intercalate_nil]
      decide
    · rw [pieces_intercalate hne fun piece hpiece =>
        noSlash_of_mem_pieces (mem_pieces_of_mem_trimmed hpiece)]
      exact filter_trimmed p

/-- From the top a path has no character that it does not have, but for slashes. -/
theorem mem_of_mem_fromTop {c : Char} (hc : c ≠ '/') (h : c ∈ p.fromTop.text.toList) :
    c ∈ p.text.toList := by
  cases habs : p.isAbsolute with
  | false => rwa [fromTop_of_relative habs] at h
  | true =>
    rw [fromTop_of_absolute habs] at h
    by_cases hne : p.trimmed = []
    · rw [hne, String.intercalate_nil] at h
      cases h
    · rw [← exists_mem_pieces_iff hc, pieces_intercalate hne fun piece hpiece =>
        noSlash_of_mem_pieces (mem_pieces_of_mem_trimmed hpiece)] at h
      obtain ⟨piece, hmem, hpiece⟩ := h
      exact (exists_mem_pieces_iff hc).mp ⟨piece, mem_pieces_of_mem_trimmed hmem, hpiece⟩

/-- Taking a path from the top again changes nothing. -/
theorem fromTop_fromTop (p : Path) : p.fromTop.fromTop = p.fromTop :=
  fromTop_of_relative p.isAbsolute_fromTop

end Path

end TreeQuery
