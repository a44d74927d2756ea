import Mathlib.Data.List.Nodup
import TreeQuery.Proofs.Batches
import TreeQuery.Proofs.Normal
import TreeQuery.Proofs.Trees

/-!
# What a frame does

A frame does three things: it is loaded, it decides about an entry, and it
looks at a file. Here each is described by its result, so that statements about
whole walks need not look into it again.

The frames of a walk have *passed* the `**` in front of them: the segment they
hold is none, and what is behind it is normal. Entering a directory makes such
frames, and what such a frame enters is such a frame again.
-/

namespace TreeQuery

/-! ## Loading -/

namespace WalkOptions

/-- Arranging changes the order of the entries and nothing else. -/
theorem perm_arrange (o : WalkOptions) (entries : List Entry) :
    (o.arrange entries).Perm entries := by
  unfold arrange
  split
  · exact List.mergeSort_perm entries Entry.precedes
  · exact List.Perm.refl entries

@[simp] theorem mem_arrange {o : WalkOptions} {entries : List Entry} {e : Entry} :
    e ∈ o.arrange entries ↔ e ∈ entries :=
  (o.perm_arrange entries).mem_iff

end WalkOptions

namespace Frame

/-- A directory that cannot be listed cannot be loaded. -/
theorem run_load_of_refused {s : Store} {f : Frame} {r : Refusal}
    (h : s (.list f.directory) = .error r) (o : WalkOptions) :
    (f.load o).run s = (.error (.list f.directory r.cause), [.list f.directory]) := by
  simp [load, Access.list, h]

/-- Loading a directory comes to statting the names that are kept. -/
theorem run_load_of_listed {s : Store} {f : Frame} {names : List String}
    (h : s (.list f.directory) = .ok names) (o : WalkOptions) :
    (f.load o).run s =
      (((statAll f.directory (names.filter (f.keeps o))).run s).1.map o.arrange,
        .list f.directory :: ((statAll f.directory (names.filter (f.keeps o))).run s).2) := by
  simp only [load, Access.list, Access.bind_ask, Access.bind_done, Access.run_ask, h,
    Access.run_bind]
  cases ((statAll f.directory (names.filter (f.keeps o))).run s).1 with
  | error e => simp [Except.map]
  | ok entries => simp [Except.map]

/-- **Loading succeeds** with the names that are kept, statted in the order of
the listing and arranged. -/
theorem run_load_ok {s : Store} {o : WalkOptions} {f : Frame} {entries : List Entry}
    {calls : List Call} (h : (f.load o).run s = (.ok entries, calls)) :
    ∃ names known, s (.list f.directory) = .ok names ∧
      known.map Entry.name = names.filter (f.keeps o) ∧
      (∀ e ∈ known, s (.stat (f.pathOf e)) = .ok e.metadata) ∧ entries = o.arrange known ∧
      calls = .list f.directory :: known.map fun e => .stat (f.pathOf e) := by
  cases hl : s (.list f.directory) with
  | error e =>
    rw [run_load_of_refused hl] at h
    cases h
  | ok names =>
    rw [run_load_of_listed hl] at h
    cases hr : (statAll f.directory (names.filter (f.keeps o))).run s with
    | mk result log =>
      rw [hr] at h
      cases result with
      | error e => cases h
      | ok known =>
        cases h
        obtain ⟨hnames, hstats, rfl⟩ := run_statAll_ok hr
        refine ⟨names, known, rfl, hnames, hstats, rfl, ?_⟩
        rw [← hnames, List.map_map]
        rfl

/-- **A loaded entry** is an entry of the directory, and one that is looked
at. -/
theorem hasEntry_of_load {s : Store} {o : WalkOptions} {f : Frame} {entries : List Entry}
    {calls : List Call} (h : (f.load o).run s = (.ok entries, calls)) {e : Entry}
    (he : e ∈ entries) :
    s.HasEntry f.directory e.name e.metadata ∧ f.keeps o e.name = true := by
  obtain ⟨names, known, hlist, hnames, hstats, rfl, _⟩ := run_load_ok h
  have hknown : e ∈ known := WalkOptions.mem_arrange.mp he
  have hname : e.name ∈ names.filter (f.keeps o) := hnames ▸ List.mem_map_of_mem hknown
  obtain ⟨hmem, hkeeps⟩ := List.mem_filter.mp hname
  exact ⟨⟨names, hlist, hmem, hstats e hknown⟩, hkeeps⟩

/-- Where nothing fails, a directory that can be listed can be loaded. -/
theorem exists_load_ok {s : Store} (hs : s.Answers) {f : Frame} (o : WalkOptions)
    (hlists : ∃ names, s (.list f.directory) = .ok names) :
    ∃ entries calls, (f.load o).run s = (.ok entries, calls) := by
  obtain ⟨names, hl⟩ := hlists
  obtain ⟨known, calls, hr⟩ := exists_statAll_ok f.directory
    (names.filter (f.keeps o)) fun n hn => hs.stats f.directory names hl n (List.mem_filter.mp hn).1
  refine ⟨o.arrange known, .list f.directory :: calls, ?_⟩
  rw [run_load_of_listed hl, hr]
  rfl

/-- **The loaded entries** are the entries of the directory that are looked
at. -/
theorem mem_load_iff {s : Store} {o : WalkOptions} {f : Frame} {entries : List Entry}
    {calls : List Call} (h : (f.load o).run s = (.ok entries, calls)) {e : Entry} :
    e ∈ entries ↔ s.HasEntry f.directory e.name e.metadata ∧ f.keeps o e.name = true := by
  refine ⟨fun he => hasEntry_of_load h he, ?_⟩
  rintro ⟨⟨listed, hl, hmem, hstat⟩, hkeeps⟩
  obtain ⟨names, known, hlist, hnames, hstats, rfl, _⟩ := run_load_ok h
  rw [hl] at hlist
  cases hlist
  have hname : e.name ∈ known.map Entry.name :=
    hnames ▸ List.mem_filter.mpr ⟨hmem, hkeeps⟩
  obtain ⟨e', he', hsame⟩ := List.mem_map.mp hname
  have hstat' := hstats e' he'
  rw [pathOf, hsame, hstat] at hstat'
  rw [WalkOptions.mem_arrange, show e = e' from by
    cases e; cases e'; cases hsame; cases hstat'; rfl]
  exact he'

/-- No two loaded entries have the same name. -/
theorem nodup_load {s : Store} (hs : s.ListsDistinct) {o : WalkOptions} {f : Frame}
    {entries : List Entry} {calls : List Call} (h : (f.load o).run s = (.ok entries, calls)) :
    (entries.map Entry.name).Nodup := by
  obtain ⟨names, known, hlist, hnames, _, rfl, _⟩ := run_load_ok h
  rw [((o.perm_arrange known).map Entry.name).nodup_iff, hnames]
  exact (hs f.directory names hlist).filter _

/-! ## Going down -/

/-- **A frame that has passed** the `**` in front of it: its own segment is
none, and its segments are normal. -/
structure Passed (f : Frame) : Prop where
  single : f.segment ≠ .globstar
  normal : Normal (f.segment :: f.later)

/-- The segments of a frame and whether it is recursive. -/
def stance (f : Frame) : List Segment × Bool :=
  (f.segment :: f.later, f.recursive)

@[simp] theorem directory_enter (dir : Path) (r : Bool) (t : Segment) (rest : List Segment) :
    (enter dir r t rest).directory = dir := by
  unfold enter
  split <;> rfl

@[simp] theorem cursor_enter (dir : Path) (r : Bool) (t : Segment) (rest : List Segment) :
    (enter dir r t rest).cursor = none := by
  unfold enter
  split <;> rfl

/-- Any other segment is held as it is. -/
theorem enter_of_ne_globstar {t : Segment} (ht : t ≠ .globstar) (dir : Path) (r : Bool)
    (rest : List Segment) : enter dir r t rest = ⟨dir, t, rest, r, none⟩ := by
  unfold enter
  split
  · exact absurd rfl ht
  · rfl

/-- Entering a directory passes the `**`. -/
theorem passed_enter {t : Segment} {rest : List Segment} (h : Normal (t :: rest)) (dir : Path)
    (r : Bool) : (enter dir r t rest).Passed := by
  by_cases ht : t = .globstar
  · subst ht
    obtain ⟨u, later, rfl, hu⟩ := h.behind_globstar
    exact ⟨hu, h.tail⟩
  · rw [enter_of_ne_globstar ht]
    exact ⟨ht, h⟩

/-- Only a file whose name the last segment accepts is reported. -/
theorem action_emit_iff {f : Frame} {e : Entry} :
    f.action e = .emit ↔
      e.metadata.isDir = false ∧ f.later = [] ∧ f.segment.accepts e.name = true := by
  unfold action isLast
  cases hd : e.metadata.isDir with
  | true =>
    rw [if_pos rfl]
    refine ⟨fun h => ?_, fun h => absurd h.1 (by simp)⟩
    split at h
    · cases h
    · cases h
    · cases h
    · split at h <;> cases h
  | false =>
    rw [if_neg (by simp)]
    by_cases ha : (f.later.isEmpty && f.segment.accepts e.name) = true
    · rw [if_pos ha]
      simpa using ha
    · rw [if_neg ha]
      simpa using ha

/-- **What entering comes to**: a directory is entered for the next segment,
provided that its name may use up the one before, or taken along by a recursive
frame for the same segment. -/
theorem descend_cases {f g : Frame} {e : Entry} (h : f.action e = .descend g) :
    e.metadata.isDir = true ∧
      ((∃ t rest, f.later = t :: rest ∧ (f.recursive = false ∨ f.segment.accepts e.name = true) ∧
          g = enter (f.pathOf e) false t rest) ∨
        (f.recursive = true ∧ g = f.deeper (f.pathOf e))) := by
  by_cases hd : e.metadata.isDir = true
  · refine ⟨hd, ?_⟩
    rw [action, if_pos hd] at h
    split at h
    · cases h
    · next t rest hr hl =>
      cases h
      exact .inl ⟨t, rest, hl, .inl hr, rfl⟩
    · next hr _ =>
      cases h
      exact .inr ⟨hr, rfl⟩
    · next t rest hr hl =>
      split at h
      · next ha =>
        cases h
        exact .inl ⟨t, rest, hl, .inr ha, rfl⟩
      · cases h
        exact .inr ⟨hr, rfl⟩
  · rw [action, if_neg hd] at h
    split at h <;> cases h

/-- What a frame enters is the directory of its entry, with a fresh frame. -/
theorem fresh_of_descend {f g : Frame} {e : Entry} (h : f.action e = .descend g) :
    g.cursor = none ∧ g.directory = f.pathOf e := by
  obtain ⟨_, ⟨t, rest, _, _, rfl⟩ | ⟨_, rfl⟩⟩ := descend_cases h
  · exact ⟨cursor_enter _ _ _ _, directory_enter _ _ _ _⟩
  · exact ⟨rfl, rfl⟩

/-- What a frame enters has passed its `**` too. -/
theorem passed_of_descend {f g : Frame} {e : Entry} (hf : f.Passed)
    (h : f.action e = .descend g) : g.Passed := by
  obtain ⟨_, ⟨t, rest, hl, _, rfl⟩ | ⟨_, rfl⟩⟩ := descend_cases h
  · have hnormal := hf.normal.tail
    rw [hl] at hnormal
    exact passed_enter hnormal _ _
  · exact ⟨hf.single, hf.normal⟩

end Frame

end TreeQuery
