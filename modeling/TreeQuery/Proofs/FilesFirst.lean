import Mathlib.Data.Multiset.Basic
import TreeQuery.Proofs.Alternation
import TreeQuery.Proofs.Order

/-!
# Files first

Without further options the matches come as the store lists them. If the files of each
directory are taken first, and names in their order, they come in one order only,
whatever the order of the listings: two paths are compared at the first names that
differ, and a name that ends its path comes before one that does not
(`filesComeFirst`).

What a walk finds is known, each file once (`Findings.Exact`), and does not depend on
the order of the listings; in what order it finds them is known from the order in which
the entries of each directory are taken (`Walker.found_of_ordered`). A list of which
the elements and their order are known is known.
-/

namespace TreeQuery

/-! ## The order -/

/-- **The order of paths in which files come first.** The first names that differ
decide: one that ends its path comes before one that does not, and otherwise the lesser
one comes first. -/
def filesComeFirst : List String → List String → Bool
  | n :: ns, m :: ms =>
    if n = m then filesComeFirst ns ms
    else if ns.isEmpty = ms.isEmpty then n < m
    else ns.isEmpty
  | _, _ => false

/-- Common names in front make no difference. -/
theorem filesComeFirst_append (above xs ys : List String) :
    filesComeFirst (above ++ xs) (above ++ ys) = filesComeFirst xs ys := by
  induction above with
  | nil => rfl
  | cons n above ih => rw [List.cons_append, List.cons_append, filesComeFirst, if_pos rfl, ih]

/-- Behind a common name the file comes first, though its name is the greater one. -/
example : filesComeFirst ["x", "b.json"] ["x", "a", "c.json"] = true := by decide

/-- Of two paths at most one comes before the other. -/
theorem filesComeFirst_asymm {xs ys : List String} (h : filesComeFirst xs ys = true) :
    filesComeFirst ys xs = false := by
  induction xs generalizing ys with
  | nil => cases h
  | cons n ns ih =>
    cases ys with
    | nil => cases h
    | cons m ms =>
      rw [filesComeFirst] at h ⊢
      by_cases heq : n = m
      · rw [if_pos heq] at h
        rw [if_pos heq.symm, ih h]
      · rw [if_neg heq] at h
        rw [if_neg (Ne.symm heq)]
        by_cases hkind : ns.isEmpty = ms.isEmpty
        · rw [if_pos hkind] at h
          rw [if_pos hkind.symm]
          exact decide_eq_false (String.lt_asymm (of_decide_eq_true h))
        · rw [if_neg hkind] at h
          rw [if_neg (Ne.symm hkind)]
          exact Bool.eq_false_iff.mpr fun hm => hkind (h.trans hm.symm)

namespace Entry

/-- The order of entries: names within one kind, and files before directories. -/
theorem precedes_iff {a b : Entry} :
    a.precedes b = true ↔
      (a.metadata.isDir = b.metadata.isDir ∧ a.name ≤ b.name) ∨
        (a.metadata.isDir = false ∧ b.metadata.isDir = true) := by
  unfold precedes
  cases a.metadata.isDir <;> cases b.metadata.isDir <;> simp

theorem precedes_trans (a b c : Entry) (hab : a.precedes b = true) (hbc : b.precedes c = true) :
    a.precedes c = true := by
  rw [precedes_iff] at hab hbc ⊢
  rcases hab with ⟨hkind, hle⟩ | ⟨ha, hb⟩
  · rcases hbc with ⟨hkind', hle'⟩ | ⟨hb, hc⟩
    · exact .inl ⟨hkind.trans hkind', String.le_trans hle hle'⟩
    · exact .inr ⟨hkind.trans hb, hc⟩
  · rcases hbc with ⟨hkind', _⟩ | ⟨hb', _⟩
    · exact .inr ⟨ha, hkind'.symm.trans hb⟩
    · exact absurd (hb.symm.trans hb') (by decide)

theorem precedes_total (a b : Entry) : (a.precedes b || b.precedes a) = true := by
  rw [Bool.or_eq_true, precedes_iff, precedes_iff]
  rcases String.le_total a.name b.name with h | h <;>
    cases a.metadata.isDir <;> cases b.metadata.isDir <;> simp [h]

/-- **What goes before another entry of its directory leads to what comes first.** -/
theorem before_of_precedes {a b : Entry} (h : a.precedes b = true) (hne : a.name ≠ b.name)
    (above : List String) : a.Before (filesComeFirst · ·) above b := by
  rintro _ _ ⟨xs, rfl, hxs⟩ ⟨ys, rfl, hys⟩
  rw [filesComeFirst_append, filesComeFirst, if_neg hne]
  have hxs : xs.isEmpty = !a.metadata.isDir := by
    rw [Bool.eq_iff_iff, List.isEmpty_iff, hxs, Bool.not_eq_true']
  have hys : ys.isEmpty = !b.metadata.isDir := by
    rw [Bool.eq_iff_iff, List.isEmpty_iff, hys, Bool.not_eq_true']
  rw [hxs, hys]
  rcases precedes_iff.mp h with ⟨hkind, hle⟩ | ⟨ha, hb⟩
  · rw [if_pos (congrArg (! ·) hkind)]
    exact decide_eq_true (Std.lt_of_le_of_ne hle hne)
  · rw [ha, hb]
    rfl

end Entry

/-- Taking files first brings the entries of every directory into this order. -/
theorem Store.ListsDistinct.sorts {s : Store} (h : s.ListsDistinct) {o : WalkOptions}
    (filesFirst : o.filesFirst = true) : s.Sorts (filesComeFirst · ·) o := by
  intro f entries calls loaded above
  have hnodup := Frame.nodup_load h loaded
  obtain ⟨names, known, _, _, _, rfl, _⟩ := Frame.run_load_ok loaded
  have hprecedes : (o.arrange known).Pairwise fun a b => a.precedes b = true := by
    rw [WalkOptions.arrange, if_pos filesFirst]
    exact List.pairwise_mergeSort Entry.precedes_trans Entry.precedes_total known
  exact (hprecedes.and (List.pairwise_map.mp hnodup)).imp fun hab =>
    Entry.before_of_precedes hab.1 hab.2 above

/-! ## Stores that list in another order -/

namespace Store

/-- **The same store, but for the order of its listings.** -/
structure Reordered (s s' : Store) : Prop where
  stat : ∀ path, s' (.stat path) = s (.stat path)
  read : ∀ path, s' (.read path) = s (.read path)
  list : ∀ dir, (s' (.list dir)).map Multiset.ofList = (s (.list dir)).map Multiset.ofList

namespace Reordered

variable {s s' : Store}

theorem refl (s : Store) : s.Reordered s := ⟨fun _ => rfl, fun _ => rfl, fun _ => rfl⟩

theorem symm (h : s.Reordered s') : s'.Reordered s :=
  ⟨fun path => (h.stat path).symm, fun path => (h.read path).symm, fun dir => (h.list dir).symm⟩

/-- A directory that can be listed can still be listed, and its names are the same. -/
theorem exists_perm (h : s.Reordered s') {dir : Path} {names : List String}
    (hlist : s (.list dir) = .ok names) :
    ∃ names', s' (.list dir) = .ok names' ∧ names'.Perm names := by
  have hmap := h.list dir
  rw [hlist] at hmap
  cases hlist' : s' (.list dir) with
  | error e => rw [hlist'] at hmap; cases hmap
  | ok names' =>
    rw [hlist'] at hmap
    exact ⟨names', rfl, Multiset.coe_eq_coe.mp (Except.ok.inj hmap)⟩

theorem hasEntry (h : s.Reordered s') {dir : Path} {name : String} {m : Metadata}
    (he : s.HasEntry dir name m) : s'.HasEntry dir name m := by
  obtain ⟨names, hlist, hmem, hstat⟩ := he
  obtain ⟨names', hlist', hperm⟩ := h.exists_perm hlist
  exact ⟨names', hlist', hperm.mem_iff.mpr hmem, (h.stat _).trans hstat⟩

/-- The tree behind the store is the same. -/
theorem holds (h : s.Reordered s') {dir : Path} {names : List String} {m : Metadata}
    (hm : s.Holds dir names m) : s'.Holds dir names m := by
  induction hm with
  | here entry => exact .here (h.hasEntry entry)
  | deeper entry isDir _ ih => exact .deeper (h.hasEntry entry) isDir ih

theorem listsPlain (h : s.Reordered s') (hs : s.ListsPlain) : s'.ListsPlain := by
  intro dir names hlist n hn
  obtain ⟨names', hlist', hperm⟩ := h.symm.exists_perm hlist
  exact hs dir names' hlist' n (hperm.mem_iff.mpr hn)

theorem listsDistinct (h : s.Reordered s') (hs : s.ListsDistinct) : s'.ListsDistinct := by
  intro dir names hlist
  obtain ⟨names', hlist', hperm⟩ := h.symm.exists_perm hlist
  exact hperm.nodup_iff.mp (hs dir names' hlist')

theorem answers (h : s.Reordered s') (hs : s.Answers) : s'.Answers := by
  constructor
  · intro dir hdir
    simp only [h.stat] at hdir
    obtain ⟨names, hlist⟩ := hs.lists dir hdir
    obtain ⟨names', hlist', _⟩ := h.exists_perm hlist
    exact ⟨names', hlist'⟩
  · intro dir names hlist n hn
    obtain ⟨names', hlist', hperm⟩ := h.symm.exists_perm hlist
    rw [h.stat]
    exact hs.stats dir names' hlist' n (hperm.mem_iff.mpr hn)

theorem nestsWithin (h : s.Reordered s') {levels : Nat} {dir : Path}
    (hs : s.NestsWithin levels dir) : s'.NestsWithin levels dir := by
  induction levels generalizing dir with
  | zero => exact fun name m he => hs name m (h.symm.hasEntry he)
  | succ levels ih => exact fun name m he hd => ih (hs name m (h.symm.hasEntry he) hd)

end Reordered

/-- The store with every listing backwards. -/
def backwards (s : Store) : Store
  | .list dir => (s (.list dir)).map List.reverse
  | .stat path => s (.stat path)
  | .read path => s (.read path)

theorem reordered_backwards (s : Store) : s.Reordered s.backwards := by
  refine ⟨fun _ => rfl, fun _ => rfl, fun dir => ?_⟩
  rw [backwards]
  cases s (.list dir) with
  | error e => rfl
  | ok names => exact congrArg Except.ok (Multiset.coe_reverse names)

end Store

/-- What is to be found does not depend on the order of the listings. -/
theorem ToFind.of_reordered {s s' : Store} (h : s.Reordered s') {o : WalkOptions}
    {above : List String} {reads : List String → Prop} {m : Match}
    (hm : ToFind s o above reads m) : ToFind s' o above reads m := by
  obtain ⟨names, hholds, hrest⟩ := hm
  exact ⟨names, h.holds hholds, hrest⟩

/-! ## What walks find in which order -/

namespace Walker

variable {s : Store} {p : Pattern} {o : WalkOptions} {d : Nat}

/-- **All files of a walk, in order**, where nothing fails and where it is known in which
order the entries of a directory are taken. -/
theorem exists_events_of_sorts (hp : Normal p.segments) (hstats : o.mode = .stats)
    (hs : s.ListsPlain) (hdistinct : s.ListsDistinct) (hanswers : s.Answers)
    (deep : s.NestsWithin d .root) {R : List String → List String → Prop} (sorted : s.Sorts R o) :
    ∃ (files : List Match) (enough : Nat),
      (∀ m, m ∈ files ↔ ToFind s o [] (fun names => p.reads names = true) m) ∧ files.Nodup ∧
      (files.map fun m => m.path.pieces).Pairwise R ∧
      ∀ bound count, enough ≤ bound → enough ≤ count →
        (((start p o).events bound count).run s).1
          = (⟨p, o, [], true⟩, files.map .found ++ [.finished]) := by
  obtain ⟨files, enough, hmem, hnodup, hevents⟩ :=
    exists_events_of_exact hp deep (exact_traverse hp hstats hs hdistinct hanswers deep)
  have hreached := Reaches.of_events s enough enough (start p o)
  rw [hevents enough enough le_rfl le_rfl] at hreached
  have hpairwise := (found_of_ordered hs sorted hreached (ordered_start R p o)).1
  rw [filterMap_file_found, show [WalkEvent.finished].filterMap WalkEvent.file? = [] from rfl,
    List.append_nil] at hpairwise
  exact ⟨files, enough, hmem, hnodup.of_map _, hpairwise, hevents⟩

/-- Two lists of the same things in this order are one list. -/
theorem eq_of_perm_of_ordered {α : Type} {f : α → List String} {xs ys : List α}
    (hperm : xs.Perm ys) (hx : xs.Pairwise fun a b => filesComeFirst (f a) (f b))
    (hy : ys.Pairwise fun a b => filesComeFirst (f a) (f b)) : xs = ys :=
  hperm.eq_of_pairwise (fun _ _ _ _ hlt hgt => absurd hgt (by simp [filesComeFirst_asymm hlt]))
    hx hy

/-- **Files first is a canonical order.** Where nothing fails, no listing repeats a name
and directories nest finitely deep, the files that a walk in stats mode finds come in
strictly increasing order, if it takes files first: a name that ends its path before one
that does not, and otherwise by name, at the first names that differ. So the walk has the
same events on every store that differs only in the order of its listings. A walk that
takes entries as they are listed finds the same files, in another order. -/
theorem files_first_is_canonical {query : String} (parsed : Pattern.parse query = .ok p)
    (hstats : o.mode = .stats) (hs : s.ListsPlain) (hdistinct : s.ListsDistinct)
    (hanswers : s.Answers) (deep : s.NestsWithin d .root) :
    ∃ files others : List Match,
      (files.map fun m => m.path.pieces).Pairwise (filesComeFirst · ·) ∧ others.Perm files ∧
      (∀ s', s.Reordered s' → ∃ enough, ∀ bound count, enough ≤ bound → enough ≤ count →
        (((start p { o with filesFirst := true }).events bound count).run s').1
          = (⟨p, { o with filesFirst := true }, [], true⟩, files.map .found ++ [.finished])) ∧
      ∃ enough, ∀ bound count, enough ≤ bound → enough ≤ count →
        (((start p { o with filesFirst := false }).events bound count).run s).1
          = (⟨p, { o with filesFirst := false }, [], true⟩,
              others.map .found ++ [.finished]) := by
  have hp := Pattern.normal_of_parse parsed
  obtain ⟨files, _, hmem, hnodup, hsorted, _⟩ :=
    exists_events_of_sorts (o := { o with filesFirst := true }) hp hstats hs hdistinct hanswers
      deep (hdistinct.sorts rfl)
  obtain ⟨others, enough, hmem', hnodup', hevents⟩ :=
    exists_events_of_exact (o := { o with filesFirst := false }) hp deep
      (exact_traverse hp hstats hs hdistinct hanswers deep)
  refine ⟨files, others, hsorted, ?_, fun s' h => ?_, enough, hevents⟩
  · exact (List.perm_ext_iff_of_nodup (hnodup'.of_map _) hnodup).mpr fun m =>
      (hmem' m).trans (hmem m).symm
  · obtain ⟨files', enough', hmem'', hnodup'', hsorted'', hevents''⟩ :=
      exists_events_of_sorts (o := { o with filesFirst := true }) hp hstats (h.listsPlain hs)
        (h.listsDistinct hdistinct) (h.answers hanswers) (h.nestsWithin deep)
        ((h.listsDistinct hdistinct).sorts rfl)
    have hperm : files'.Perm files := (List.perm_ext_iff_of_nodup hnodup'' hnodup).mpr fun m => by
      rw [hmem, hmem'']
      exact ⟨.of_reordered h.symm, .of_reordered h⟩
    have hsame : files' = files :=
      eq_of_perm_of_ordered hperm (List.pairwise_map.mp hsorted'') (List.pairwise_map.mp hsorted)
    exact ⟨enough', hsame ▸ hevents''⟩

/-- Listings one way and backwards give one order of the files: both times the inner `data`
comes behind the file next to it, and `x` behind `data`. -/
theorem files_first_is_canonical_nested :
    let p : Pattern := ⟨.globstar, [.wildcard "*.json"]⟩
    Pattern.parse "**/*.json" = .ok p ∧
      Memory.nested.store.ListsPlain ∧ Memory.nested.store.ListsDistinct ∧
      Memory.nested.store.Answers ∧
      Memory.nested.store.NestsWithin Memory.nested.longest .root ∧
      ∃ (files : List Match) (enough : Nat),
        (files.map fun m => m.path.pieces)
          = [["data", "3.json"], ["data", "data", "4.json"], ["x", "data", "1.json"]] ∧
        ∀ bound count, enough ≤ bound → enough ≤ count →
          (((start p { filesFirst := true }).events bound count).run Memory.nested.store).1.2
            = files.map .found ++ [.finished] ∧
          (((start p { filesFirst := true }).events bound count).run
              Memory.nested.store.backwards).1.2 = files.map .found ++ [.finished] := by
  intro p
  have hparse : Pattern.parse "**/*.json" = .ok p := by decide
  have hplain := Memory.listsPlain_store (show Memory.nested.isPlain = true from by decide)
  have hdistinct := Memory.listsDistinct_store
    (show ∀ a ∈ Memory.nested.entries, a.2.names.Nodup from by decide)
  have hanswers := Memory.answers_store (show Memory.nested.isFaultless = true from by decide)
  have hdeep := Memory.nestsWithin_store (show Memory.nested.isPlain = true from by decide)
  obtain ⟨files, others, hsorted, hperm, hcanonical, hlisted⟩ :=
    files_first_is_canonical (o := {}) hparse rfl hplain hdistinct hanswers hdeep
  obtain ⟨enough, hevents⟩ := hcanonical _ (.refl _)
  obtain ⟨enough', hevents'⟩ := hcanonical _ (Store.reordered_backwards _)
  refine ⟨hparse, hplain, hdistinct, hanswers, hdeep, files, max enough enough', ?_,
    fun bound count hb hc => ⟨?_, ?_⟩⟩
  · -- the files are known from the walk that takes entries as they are listed
    obtain ⟨enough₁, hothers⟩ := hlisted
    obtain ⟨enough₂, hfound⟩ := exists_events_of_complete (o := {})
      (Pattern.normal_of_parse hparse) hdeep (Option.isNone_iff_eq_none.mp (by decide +kernel))
    have hsame := hothers (max enough₁ enough₂) (max enough₁ enough₂) (by omega) (by omega)
    rw [hfound _ _ (by omega) (by omega)] at hsame
    have hfiles := congrArg (List.filterMap WalkEvent.file?) (Prod.mk.inj hsame).2
    rw [filterMap_file_found, filterMap_file_found] at hfiles
    obtain rfl := List.append_cancel_right hfiles
    have hpieces := hperm.symm.map fun m => m.path.pieces
    refine eq_of_perm_of_ordered (f := id) (hpieces.trans ?_) hsorted (by decide)
    decide +kernel
  · rw [hevents bound count (by omega) (by omega)]
  · rw [hevents' bound count (by omega) (by omega)]

end Walker

end TreeQuery
