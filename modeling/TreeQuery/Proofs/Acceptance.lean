import TreeQuery.Proofs.Refinement

/-!
# Which files a walk finds

Where nothing fails, a walk in stats mode finds the files whose names are read
by the pattern (`Pattern.reads`), and it finds each of them once. Reading goes
over one list of names from left to right and knows nothing of trees; the walk
goes over a tree and drops names before they are even statted. The two meet at
one entry: what a frame does about it is what reading does about its name
(`readsFrom_entry_iff`).

The statement about one visit, `exact_visit`, is proved along the levels that
directories nest, like the refinement that it is read through. Why nothing is
found twice is said once, for the entries of one directory (`exact_inTurn`).
-/

namespace TreeQuery

/-! ## Reading one name -/

namespace Frame

/-- A name is read only if it is looked at. -/
theorem accepts_of_readsFrom {f : Frame} {n : String} {names : List String}
    (h : readsFrom f.stance (n :: names) = true) :
    (f.recursive || f.segment.accepts n) = true := by
  unfold stance at h
  cases names with
  | nil =>
    rw [readsFrom, Bool.and_eq_true] at h
    rw [h.2, Bool.or_true]
  | cons m names =>
    rw [readsFrom] at h
    split at h
    · next hc => rw [(Bool.and_eq_true_iff.mp hc).2, Bool.or_true]
    · rw [(Bool.and_eq_true_iff.mp h).1, Bool.true_or]

/-- **The last name** is read where the frame reports the file. -/
theorem readsFrom_singleton_iff {f : Frame} {e : Entry} (hd : e.metadata.isDir = false) :
    readsFrom f.stance [e.name] = true ↔ f.action e = .emit := by
  rw [action_emit_iff, stance, readsFrom]
  simp [hd]

/-- **An earlier name** is read where the frame enters the directory, and the
names behind it are read as the entered frame stands. -/
theorem readsFrom_cons_iff {f : Frame} (hf : f.Passed) {e : Entry}
    (hd : e.metadata.isDir = true) (hk : (f.recursive || f.segment.accepts e.name) = true)
    {names : List String} (hne : names ≠ []) :
    readsFrom f.stance (e.name :: names) = true ↔
      ∃ g, f.action e = .descend g ∧ readsFrom g.stance names = true := by
  have hnormal := hf.normal.tail
  obtain ⟨n, ns, rfl⟩ := List.exists_cons_of_ne_nil hne
  unfold stance action
  rw [readsFrom, if_pos hd]
  cases hl : f.later with
  | nil =>
    cases hr : f.recursive with
    | false => simp
    | true => simp [deeper, hr, hl]
  | cons t rest =>
    rw [hl] at hnormal
    have henter := Traversal.stance_enter hnormal (f.pathOf e) false
    rw [stance] at henter
    cases hr : f.recursive with
    | false =>
      rw [hr, Bool.false_or] at hk
      simp [hk, henter]
    | true =>
      cases ha : f.segment.accepts e.name with
      | false => simp [deeper, hr, hl]
      | true => simp [henter]

end Frame

/-! ## What findings have to be -/

/-- **A file to be found** below the directory with the names `above`: its names
lead to it, none of them is ignored, and `reads` holds of them. -/
def ToFind (s : Store) (o : WalkOptions) (above : List String) (reads : List String → Prop)
    (m : Match) : Prop :=
  ∃ names, s.Holds (.ofNames above) names m.metadata ∧ m.metadata.isDir = false ∧
    (∀ n ∈ names, o.ignore n = false) ∧ reads names ∧
    m.path = .ofNames (above ++ names) ∧ m.content = none

/-- **Findings that are exact**: no failure, all that is to be found, and
nothing twice. -/
structure Findings.Exact (s : Store) (o : WalkOptions) (above : List String)
    (reads : List String → Prop) (found : Findings) : Prop where
  failure : found.failure = none
  mem_iff : ∀ m, m ∈ found.files ↔ ToFind s o above reads m
  nodup : (found.files.map Match.path).Nodup

namespace Findings.Exact

variable {s : Store} {o : WalkOptions} {above : List String} {found : Findings}

/-- Only what can lead to a file matters to what is to be found. -/
theorem congr {reads reads' : List String → Prop} (h : found.Exact s o above reads)
    (hsame : ∀ names m, s.Holds (.ofNames above) names m → m.isDir = false →
      (∀ n ∈ names, o.ignore n = false) → (reads names ↔ reads' names)) :
    found.Exact s o above reads' := by
  refine ⟨h.failure, fun m => (h.mem_iff m).trans ?_, h.nodup⟩
  refine exists_congr fun names => ?_
  constructor
  · rintro ⟨hholds, hfile, hkept, hreads, hrest⟩
    exact ⟨hholds, hfile, hkept, (hsame names _ hholds hfile hkept).mp hreads, hrest⟩
  · rintro ⟨hholds, hfile, hkept, hreads, hrest⟩
    exact ⟨hholds, hfile, hkept, (hsame names _ hholds hfile hkept).mpr hreads, hrest⟩

/-- Nothing is found where nothing is to be found. -/
theorem nothing : Findings.Exact s o above (fun _ => False) {} := by
  refine ⟨rfl, fun m => ⟨fun h => absurd h List.not_mem_nil, ?_⟩, List.nodup_nil⟩
  rintro ⟨_, _, _, _, hfalse, _⟩
  exact hfalse.elim

/-- What is found below a directory in the directory. -/
theorem deeper (hs : s.ListsPlain) (habove : ∀ n ∈ above, PlainName n) {n : String}
    {d : Metadata} (hentry : s.HasEntry (.ofNames above) n d) (hd : d.isDir = true)
    (hkept : o.ignore n = false) {reads : List String → Prop}
    (h : found.Exact s o (above ++ [n]) reads) :
    found.Exact s o above fun names => ∃ rest, names = n :: rest ∧ rest ≠ [] ∧ reads rest := by
  have hpath := Path.entry_ofNames habove (hs.hasEntry hentry)
  refine ⟨h.failure, fun m => (h.mem_iff m).trans ?_, h.nodup⟩
  constructor
  · rintro ⟨names, hholds, hfile, hnames, hreads, hmpath, hcontent⟩
    rw [← hpath] at hholds
    refine ⟨n :: names, .deeper hentry hd hholds, hfile, ?_, ⟨names, rfl, hholds.ne_nil, hreads⟩,
      by rw [hmpath, List.append_assoc, List.singleton_append], hcontent⟩
    exact fun n' hn' => (List.mem_cons.mp hn').elim (fun heq => heq ▸ hkept) (hnames n')
  · rintro ⟨_, hholds, hfile, hnames, ⟨names, rfl, hne, hreads⟩, hmpath, hcontent⟩
    rcases Store.holds_cons_iff.mp hholds with ⟨hnil, _⟩ | ⟨d', _, _, hrest⟩
    · exact absurd hnil hne
    · rw [hpath] at hrest
      exact ⟨names, hrest, hfile, fun n' hn' => hnames n' (List.mem_cons_of_mem n hn'), hreads,
        by rw [hmpath, List.append_assoc, List.singleton_append], hcontent⟩

end Findings.Exact

/-! ## What visits find -/

namespace Traversal

variable {s : Store} {o : WalkOptions} {above : List String}

/-- Where nothing fails, the files of all items are found, one item after the
other. -/
theorem run_inTurn_of_complete {α : Type} {visit : α → Access Findings} {items : List α}
    (h : ∀ a ∈ items, ((visit a).run s).1.failure = none) :
    ((inTurn visit items).run s).1
      = ⟨items.flatMap fun a => ((visit a).run s).1.files, none⟩ := by
  induction items with
  | nil => rfl
  | cons a items ih =>
    have hrest := ih fun a' ha' => h a' (List.mem_cons_of_mem a ha')
    rw [inTurn, Access.run_bind, h a List.mem_cons_self, Option.isSome_none,
      if_neg Bool.false_ne_true, Access.run_bind, hrest]
    rfl

/-- **Entries with different names** are gone through without finding anything
twice: the first name below `above` tells their files apart. -/
theorem exact_inTurn (hs : s.ListsPlain) (habove : ∀ n ∈ above, PlainName n)
    {visit : Entry → Access Findings} {entries : List Entry}
    (hnodup : (entries.map Entry.name).Nodup) {reads : List String → Prop}
    (h : ∀ e ∈ entries, ((visit e).run s).1.Exact s o above
      fun names => names.head? = some e.name ∧ reads names) :
    ((inTurn visit entries).run s).1.Exact s o above
      fun names => (∃ e ∈ entries, names.head? = some e.name) ∧ reads names := by
  rw [run_inTurn_of_complete fun e he => (h e he).failure]
  refine ⟨rfl, fun m => ?_, ?_⟩
  · rw [List.mem_flatMap]
    constructor
    · rintro ⟨e, he, hm⟩
      obtain ⟨names, hholds, hfile, hkept, ⟨hhead, hreads⟩, hrest⟩ := ((h e he).mem_iff m).mp hm
      exact ⟨names, hholds, hfile, hkept, ⟨⟨e, he, hhead⟩, hreads⟩, hrest⟩
    · rintro ⟨names, hholds, hfile, hkept, ⟨⟨e, he, hhead⟩, hreads⟩, hrest⟩
      exact ⟨e, he, ((h e he).mem_iff m).mpr
        ⟨names, hholds, hfile, hkept, ⟨hhead, hreads⟩, hrest⟩⟩
  · rw [List.map_flatMap, List.nodup_flatMap]
    refine ⟨fun e he => (h e he).nodup, ?_⟩
    refine (List.pairwise_map.mp hnodup).imp_of_mem fun {e e'} he he' hne => ?_
    -- a path in both lists would begin with both names
    intro path hpath hpath'
    obtain ⟨m, hm, rfl⟩ := List.mem_map.mp hpath
    obtain ⟨m', hm', hsame⟩ := List.mem_map.mp hpath'
    obtain ⟨names, hholds, _, _, ⟨hhead, _⟩, hmpath, _⟩ := ((h e he).mem_iff m).mp hm
    obtain ⟨names', hholds', _, _, ⟨hhead', _⟩, hmpath', _⟩ := ((h e' he').mem_iff m').mp hm'
    have hplain : ∀ {ns : List String} {d : Metadata}, s.Holds (.ofNames above) ns d →
        ∀ n ∈ above ++ ns, PlainName n := fun hns n hn =>
      (List.mem_append.mp hn).elim (habove n) (hns.plain hs n)
    have heq : above ++ names = above ++ names' :=
      Path.ofNames_inj (hplain hholds) (hplain hholds')
        (List.append_ne_nil_of_right_ne_nil above hholds.ne_nil)
        (List.append_ne_nil_of_right_ne_nil above hholds'.ne_nil)
        (by rw [← hmpath, ← hmpath', hsame])
    rw [← List.append_cancel_left heq, hhead] at hhead'
    exact hne (Option.some.inj hhead')

/-- **Reading at an entry** of a frame: the names that begin with it are read
where the frame reports it as a file, or enters it and goes on reading. -/
theorem readsFrom_entry_iff {f : Frame} (hf : f.Passed) {e : Entry}
    (he : s.HasEntry f.directory e.name e.metadata) (hk : f.keeps o e.name = true)
    {names : List String} {m : Metadata} (hholds : s.Holds f.directory names m)
    (hfile : m.isDir = false) :
    (names.head? = some e.name ∧ readsFrom f.stance names = true) ↔
      (names = [e.name] ∧ f.action e = .emit) ∨
        ∃ rest, names = e.name :: rest ∧ rest ≠ [] ∧
          ∃ g, f.action e = .descend g ∧ readsFrom g.stance rest = true := by
  have haccepts : (f.recursive || f.segment.accepts e.name) = true :=
    (Bool.and_eq_true_iff.mp hk).2
  obtain ⟨n, rest, rfl⟩ := List.exists_cons_of_ne_nil hholds.ne_nil
  rw [List.head?_cons, Option.some.injEq, List.cons.injEq]
  by_cases hn : n = e.name
  · subst hn
    rcases Store.holds_cons_iff.mp hholds with ⟨rfl, hentry⟩ | ⟨d, hentry, hd, hrest⟩
    · cases hentry.unique he
      simp [Frame.readsFrom_singleton_iff hfile]
    · cases hentry.unique he
      simp [Frame.readsFrom_cons_iff hf hd haccepts hrest.ne_nil, hrest.ne_nil]
  · simp [hn]

/-- **One entry** finds what is to be found under its name, provided that the
directory it may lead into is visited rightly. -/
theorem exact_visitEntry (hs : s.ListsPlain) (habove : ∀ n ∈ above, PlainName n)
    (hstats : o.mode = .stats) {levels : Nat} {f : Frame} (hf : f.Passed)
    (hdir : f.directory = .ofNames above) {e : Entry}
    (he : s.HasEntry f.directory e.name e.metadata) (hk : f.keeps o e.name = true)
    (hdescend : ∀ g, f.action e = .descend g →
      ((visit together o levels g.directory g.stance).run s).1.Exact s o (above ++ [e.name])
        fun names => readsFrom g.stance names = true) :
    ((visitEntry o levels f e).run s).1.Exact s o above
      fun names => names.head? = some e.name ∧ readsFrom f.stance names = true := by
  have hignore : o.ignore e.name = false := by
    simpa using (Bool.and_eq_true_iff.mp hk).1
  have hreads : ∀ names m, s.Holds (.ofNames above) names m → m.isDir = false → _ :=
    fun names m hholds hfile => readsFrom_entry_iff hf he hk (hdir ▸ hholds) hfile
  unfold visitEntry
  cases ha : f.action e with
  | skip =>
    refine Findings.Exact.nothing.congr fun names m hholds hfile _ => ?_
    rw [hreads names m hholds hfile]
    simp [ha]
  | descend g =>
    obtain ⟨hd, _⟩ := Frame.descend_cases ha
    rw [hdir] at he
    refine ((hdescend g ha).deeper hs habove he hd hignore).congr fun names m hholds hfile _ => ?_
    rw [hreads names m hholds hfile]
    simp [ha]
  | emit =>
    obtain ⟨hfile, _, _⟩ := Frame.action_emit_iff.mp ha
    have hplain := hs.hasEntry he
    have hfiles : ((Findings.ofMatch <$> matchOf o (f.pathOf e) e).run s).1
        = .one ⟨f.pathOf e, e.metadata, none⟩ := by
      unfold matchOf
      rw [hstats]
      rfl
    rw [hfiles]
    refine ⟨rfl, fun m => ?_, List.nodup_singleton _⟩
    have hpath : f.pathOf e = .ofNames (above ++ [e.name]) := by
      rw [Frame.pathOf, hdir, Path.entry_ofNames habove hplain]
    constructor
    · intro hm
      cases List.mem_singleton.mp hm
      have hholds : s.Holds (.ofNames above) [e.name] e.metadata := hdir ▸ .here he
      exact ⟨[e.name], hholds, hfile, fun n hn => List.mem_singleton.mp hn ▸ hignore,
        (hreads _ _ hholds hfile).mpr (.inl ⟨rfl, ha⟩), hpath, rfl⟩
    · rintro ⟨names, hholds, hmfile, _, hread, hmpath, hcontent⟩
      rcases (hreads names _ hholds hmfile).mp hread with ⟨rfl, _⟩ | ⟨_, _, _, g, hg, _⟩
      · cases hholds with
        | here hentry =>
          obtain ⟨path, metadata, content⟩ := m
          cases (hdir ▸ hentry : s.HasEntry f.directory e.name metadata).unique he
          cases hcontent
          rw [show path = f.pathOf e from hmpath.trans hpath.symm]
          exact List.mem_singleton_self _
        | deeper _ _ hrest => exact absurd rfl hrest.ne_nil
      · rw [ha] at hg
        cases hg

/-- **A visit finds exactly the files that are read** below its directory. -/
theorem exact_visit (hs : s.ListsPlain) (hdistinct : s.ListsDistinct) (hanswers : s.Answers)
    (hstats : o.mode = .stats) (levels : Nat) {f : Frame} (hf : f.Passed)
    (habove : ∀ n ∈ above, PlainName n) (hdir : f.directory = .ofNames above)
    (hlists : ∃ names, s (.list f.directory) = .ok names)
    (hnests : s.NestsWithin levels f.directory) :
    ((visit together o (levels + 1) f.directory f.stance).run s).1.Exact s o above
      fun names => readsFrom f.stance names = true := by
  induction levels using Nat.strongRecOn generalizing f above with
  | ind levels ih =>
    obtain ⟨entries, calls, hl⟩ := Frame.exists_load_ok hanswers o hlists
    have hentries : ∀ e ∈ entries, ((visitEntry o levels f e).run s).1.Exact s o above
        fun names => names.head? = some e.name ∧ readsFrom f.stance names = true := by
      intro e he
      obtain ⟨hentry, hkeeps⟩ := (Frame.mem_load_iff hl).mp he
      refine exact_visitEntry hs habove hstats hf hdir hentry hkeeps fun g hg => ?_
      obtain ⟨hd, _⟩ := Frame.descend_cases hg
      obtain ⟨_, hgdir⟩ := Frame.fresh_of_descend hg
      obtain ⟨d, rfl, hdeep⟩ := Walker.hasLevels_of_nestsWithin hnests e.name e.metadata hentry hd
      have hplain := hs.hasEntry hentry
      refine ih d (Nat.lt_succ_self d) (Frame.passed_of_descend hf hg) ?_ ?_ ?_ (hgdir ▸ hdeep)
      · exact fun n hn => (List.mem_append.mp hn).elim (habove n)
          fun hn => List.mem_singleton.mp hn ▸ hplain
      · rw [hgdir, Frame.pathOf, hdir, Path.entry_ofNames habove hplain]
      · obtain ⟨_, _, _, hstat⟩ := hentry
        exact hgdir ▸ hanswers.lists _ (.inr ⟨e.metadata, hstat, hd⟩)
    rw [visit_eq_load hf, Access.run_bind, hl]
    -- names that are read are looked at, so filtering before statting loses none
    refine (exact_inTurn hs habove (Frame.nodup_load hdistinct hl) hentries).congr ?_
    intro names m hholds _ hkept
    refine and_iff_right_of_imp fun hread => ?_
    obtain ⟨n, rest, rfl⟩ := List.exists_cons_of_ne_nil hholds.ne_nil
    obtain ⟨d, hentry⟩ : ∃ d, s.HasEntry f.directory n d := by
      rw [hdir]
      rcases Store.holds_cons_iff.mp hholds with ⟨_, hentry⟩ | ⟨d, hentry, _⟩
      · exact ⟨m, hentry⟩
      · exact ⟨d, hentry⟩
    have hkeeps : f.keeps o n = true := by
      rw [Frame.keeps, hkept n List.mem_cons_self, Frame.accepts_of_readsFrom hread]
      rfl
    exact ⟨⟨n, d⟩, (Frame.mem_load_iff hl).mpr ⟨hentry, hkeeps⟩, rfl⟩

end Traversal

namespace Walker

open Traversal

variable {s : Store} {p : Pattern} {o : WalkOptions} {d : Nat}

/-- The visit that is the whole walk finds exactly what the pattern reads. -/
theorem exact_traverse (hp : Normal p.segments) (hstats : o.mode = .stats) (hs : s.ListsPlain)
    (hdistinct : s.ListsDistinct) (hanswers : s.Answers) (deep : s.NestsWithin d .root) :
    ((visit together o (d + 1) .root (p.segments, false)).run s).1.Exact s o []
      fun names => p.reads names = true := by
  have hdir := Frame.directory_enter .root false p.first p.rest
  have hroot : (Frame.enter .root false p.first p.rest).directory = .ofNames [] := by
    rw [hdir, Path.ofNames_nil]
  have hlists : ∃ names, s (.list (Frame.enter .root false p.first p.rest).directory) = .ok names :=
    hanswers.lists _ (.inl hdir)
  have hexact := Traversal.exact_visit hs hdistinct hanswers hstats d
    (Frame.passed_enter hp .root false) (fun n hn => absurd hn List.not_mem_nil) hroot hlists
    (hdir.symm ▸ deep)
  rw [hdir, Traversal.visit_enter hp, Traversal.stance_enter hp] at hexact
  exact hexact

/-- Without a failure the events are the files and the end. -/
theorem run_traverse_of_complete {levels : Nat}
    (h : ((visit together o levels .root (p.segments, false)).run s).1.failure = none) :
    ((p.traverse together o levels).run s).1
      = ((visit together o levels .root (p.segments, false)).run s).1.files.map .found
        ++ [.finished] := by
  rw [Pattern.traverse, Access.run_bind, Access.pure_eq_done, Access.run_done, Findings.events, h]
  rfl

/-- **A recursion without a failure is a walk** that finds its files. -/
theorem exists_events_of_complete (hp : Normal p.segments) (deep : s.NestsWithin d .root)
    (h : ((visit together o (d + 1) .root (p.segments, false)).run s).1.failure = none) :
    ∃ enough, ∀ bound count, enough ≤ bound → enough ≤ count →
      ((start p o).events bound count).run s
        = ((⟨p, o, [], true⟩,
            ((visit together o (d + 1) .root (p.segments, false)).run s).1.files.map .found
              ++ [.finished]),
          ((p.traverse together o (d + 1)).run s).2) := by
  have hend := reaches_traverse hp o deep (Nat.lt_succ_self d)
  rw [run_traverse_of_complete h] at hend
  exact hend.exists_run_events rfl

/-- **A walk finds exactly the files that its pattern reads.** On every store
on which nothing fails, whose listings repeat no name and give plain names, and
whose directories nest finitely deep, a walk in stats mode ends with the event
that everything has been visited. Before it come the files of the tree that the
pattern reads and that have no ignored name, each of them once and with what is
known about it, and nothing else. -/
theorem finds_exactly_what_is_read {query : String} (parsed : Pattern.parse query = .ok p)
    (hstats : o.mode = .stats) (hs : s.ListsPlain) (hdistinct : s.ListsDistinct)
    (hanswers : s.Answers) (deep : s.NestsWithin d .root) :
    ∃ (files : List Match) (enough : Nat),
      (∀ m, m ∈ files ↔ ∃ names, s.Holds .root names m.metadata ∧ m.metadata.isDir = false ∧
        (∀ n ∈ names, o.ignore n = false) ∧ p.reads names = true ∧
        m.path = .ofNames names ∧ m.content = none) ∧
      (files.map Match.path).Nodup ∧
      ∀ bound count, enough ≤ bound → enough ≤ count →
        (((start p o).events bound count).run s).1
          = (⟨p, o, [], true⟩, files.map .found ++ [.finished]) := by
  have hp := Pattern.normal_of_parse parsed
  have hexact := exact_traverse hp hstats hs hdistinct hanswers deep
  obtain ⟨enough, hevents⟩ := exists_events_of_complete hp deep hexact.failure
  refine ⟨_, enough, fun m => ?_, hexact.nodup, fun bound count hb hc => ?_⟩
  · rw [hexact.mem_iff, ToFind, Path.ofNames_nil]
    rfl
  · rw [hevents bound count hb hc]

/-- In a tree where `data` lies below `data`, the inner one is not looked into. -/
theorem finds_exactly_what_is_read_nested :
    Pattern.parse "**/data/*.json" = .ok ⟨.globstar, [.literal "data", .wildcard "*.json"]⟩ ∧
      Memory.nested.store.ListsPlain ∧ Memory.nested.store.ListsDistinct ∧
      Memory.nested.store.Answers ∧
      Memory.nested.store.NestsWithin Memory.nested.longest .root ∧
      ∃ (files : List Match) (enough : Nat),
        (files.map Match.path).Nodup ∧ (∃ m ∈ files, m.path = ⟨"x/data/1.json"⟩) ∧
        (∀ m ∈ files, m.path ≠ ⟨"data/data/4.json"⟩) ∧
        ∀ bound count, enough ≤ bound → enough ≤ count →
          (((start ⟨.globstar, [.literal "data", .wildcard "*.json"]⟩ {}).events bound count).run
              Memory.nested.store).1.2 = files.map .found ++ [.finished] := by
  have hparse : Pattern.parse "**/data/*.json"
      = .ok ⟨.globstar, [.literal "data", .wildcard "*.json"]⟩ := by decide
  have hplain := Memory.listsPlain_store (show Memory.nested.isPlain = true from by decide)
  have hdistinct := Memory.listsDistinct_store
    (show ∀ a ∈ Memory.nested.entries, a.2.names.Nodup from by decide)
  have hanswers := Memory.answers_store (show Memory.nested.isFaultless = true from by decide)
  have hdeep := Memory.nestsWithin_store (show Memory.nested.isPlain = true from by decide)
  obtain ⟨files, enough, hmem, hnodup, hevents⟩ :=
    finds_exactly_what_is_read (o := {}) hparse rfl hplain hdistinct hanswers hdeep
  refine ⟨hparse, hplain, hdistinct, hanswers, hdeep, files, enough, hnodup, ?_, ?_,
    fun bound count hb hc => by rw [hevents bound count hb hc]⟩
  · refine ⟨⟨⟨"x/data/1.json"⟩, ⟨false, true, 0, none⟩, none⟩,
      (hmem _).mpr ⟨["x", "data", "1.json"], ?_, rfl, by decide, by decide, by decide, rfl⟩, rfl⟩
    have hentry : ∀ dir n names m, Memory.nested.store (.list dir) = .ok names → n ∈ names →
        Memory.nested.store (.stat (dir.entry n)) = .ok m → Memory.nested.store.HasEntry dir n m :=
      fun dir n names m hl hn hm => ⟨names, hl, hn, hm⟩
    refine .deeper (hentry _ _ ["data", "x"] ⟨true, false, 0, none⟩ ?_ ?_ ?_) rfl
      (.deeper (hentry _ _ ["data", "note.txt"] ⟨true, false, 0, none⟩ ?_ ?_ ?_) rfl
        (.here (hentry _ _ ["1.json"] _ ?_ ?_ ?_))) <;> decide
  · intro m hm hpath
    obtain ⟨names, hholds, _, _, hreads, hpath', _⟩ := (hmem m).mp hm
    have hnames : names = ["data", "data", "4.json"] :=
      Path.ofNames_inj (hholds.plain hplain) (by decide) hholds.ne_nil (by decide)
        (hpath'.symm.trans hpath)
    rw [hnames] at hreads
    exact absurd hreads (by decide)

end Walker

end TreeQuery
