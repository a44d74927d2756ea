import TreeQuery.Proofs.Descents
import TreeQuery.Proofs.Disks

/-!
# The walk for a key

A key is a query without stars. A walk for it lists every directory on the way and stats
the one name in it that it asks for, while a lookup opens the file at once. What makes the
two meet is that the way to a file goes through the directories above it
(`Disk.Leads.split`), whatever links are followed: if the full path of a record leads
anywhere, then the paths of the names before the last one lead to directories, and each of
them has the next name (`Records.exists_directory_above`).

But to open a file these directories need only be searched, and to walk to it each of them
has to be listed, which is refused independently of that. So the walk either gets down to
the file, or it comes to the first directory that does not list
(`Records.wayDown_or_refused`). In the first case it looks at the file, and that is all that
it does (`Walker.endsWith_of_look`); in the second one it gives the failure to list and
nothing else (`Walker.endsWith_of_refused`). A root whose path is empty never lists, although
paths below it may lead somewhere.
-/

namespace TreeQuery

/-! ## The way to a record -/

/-- **A name in a key**: one that stands for itself in a query and is not passed over. -/
structure KeyName (name : String) : Prop extends PlainName name where
  noStar : '*' ∉ name.toList
  visible : isDotfile name = false

instance : DecidablePred KeyName := fun name =>
  decidable_of_iff (PlainName name ∧ '*' ∉ name.toList ∧ isDotfile name = false)
    ⟨fun h => ⟨h.1, h.2.1, h.2.2⟩, fun h => ⟨h.toPlainName, h.noStar, h.visible⟩⟩

namespace KeyName

variable {name : String}

theorem ne_up (h : KeyName name) : name ≠ ".." := by
  rintro rfl
  exact absurd h.visible (by decide)

/-- A name in a key leads on. -/
theorem moves (h : KeyName name) : Path.isIdle name = false := by
  rw [Path.isIdle, Bool.or_eq_false_iff, beq_eq_false_iff_ne, beq_eq_false_iff_ne]
  refine ⟨h.ne_empty, ?_⟩
  rintro rfl
  exact absurd h.visible (by decide)

end KeyName

namespace Records

variable {r : Records} {above ds rest names : List String} {n name : String} {there : Place}

/-- Names in keys do not go up. -/
theorem resolve_ofNames (root : Path) (hnames : ∀ n ∈ names, KeyName n) :
    resolve root (.ofNames names) = .ok (root.join (.ofNames names)) := by
  have hplain : ∀ n ∈ names, PlainName n := fun n hn => (hnames n hn).toPlainName
  have stays : ".." ∉ (Path.ofNames names).pieces := by
    by_cases hne : names = []
    · rw [hne, Path.ofNames_nil]
      decide
    · rw [Path.pieces_ofNames hne hplain]
      exact fun hmem => (hnames _ hmem).ne_up rfl
  rw [resolve_of_stays stays, Path.fromTop_of_relative (Path.isAbsolute_ofNames hplain)]

theorem reach_ofNames {α : Type} (hnames : ∀ n ∈ names, KeyName n)
    (ask : Path → Except SystemError α) :
    r.reach (.ofNames names) ask
      = (ask (r.root.join (.ofNames names))).mapError
          (.ofSystem (r.disk.late (r.root.join (.ofNames names)))
            (r.root.join (.ofNames names))) :=
  reach_of_resolve (resolve_ofNames r.root hnames) ask

/-- What is listed at names is a directory that leads there and may be read. -/
theorem list_ofNames_eq_ok_iff (hnames : ∀ n ∈ names, KeyName n) {listed : List String} :
    r.store (.list (.ofNames names)) = .ok listed ↔
      ∃ dir es, r.disk.locate (r.root.join (.ofNames names)) = .ok dir ∧
        dir.node = .directory es ∧ r.disk.refusal? .read dir.location = none ∧
        listed = listing (es.map Prod.fst) := by
  rw [store, reach_ofNames hnames]
  constructor
  · intro h
    cases hlist : r.disk.list (r.root.join (.ofNames names)) with
    | error e => rw [hlist] at h; cases h
    | ok raw =>
      obtain ⟨dir, es, hlocate, hdir, free, rfl⟩ := Disk.list_eq_ok_iff.mp hlist
      rw [hlist] at h
      exact ⟨dir, es, hlocate, hdir, free, (Except.ok.inj h).symm⟩
  · rintro ⟨dir, es, hlocate, hdir, free, rfl⟩
    rw [Disk.list_eq_ok_iff.mpr ⟨dir, es, hlocate, hdir, free, rfl⟩]
    rfl

/-- What is asked about a path can be asked about the paths above it, if these are not
empty. -/
theorem askable_above (habove : ∀ n ∈ above ++ rest, PlainName n)
    (h : Disk.Askable (r.root.join (.ofNames (above ++ rest))))
    (hne : (r.root.join (.ofNames above)).text ≠ "") :
    Disk.Askable (r.root.join (.ofNames above)) := by
  have hfirst := (List.forall_mem_append.mp habove).1
  obtain ⟨after, hafter⟩ : ∃ after, (Path.ofNames (above ++ rest)).text
      = (Path.ofNames above).text ++ after := by
    by_cases ha : above = []
    · rw [ha, Path.ofNames_nil]
      exact ⟨_, String.empty_append.symm⟩
    · by_cases hr : rest = []
      · rw [hr, List.append_nil]
        exact ⟨"", String.append_empty.symm⟩
      · rw [Path.ofNames, Path.ofNames, String.intercalate_append_of_ne_nil ha hr,
          String.append_assoc]
        exact ⟨_, rfl⟩
  rw [Path.join_of_relative (Path.isAbsolute_ofNames habove), hafter, ← String.append_assoc] at h
  rw [Path.join_of_relative (Path.isAbsolute_ofNames hfirst)] at hne ⊢
  exact h.of_append hne

/-- **The directories above a record**: where a path leads somewhere, each of its names is
an entry of the directory that the names before it lead to. -/
theorem exists_directory_above (hnames : ∀ m ∈ above ++ n :: rest, KeyName m)
    (h : r.disk.locate (r.root.join (.ofNames (above ++ n :: rest))) = .ok there)
    (hne : (r.root.join (.ofNames above)).text ≠ "") :
    ∃ dir es, r.disk.locate (r.root.join (.ofNames above)) = .ok dir ∧
      dir.node = .directory es ∧ .text n ∈ es.map Prod.fst := by
  have hplain : ∀ m ∈ above ++ n :: rest, PlainName m := fun m hm => (hnames m hm).toPlainName
  obtain ⟨habove, hbelow⟩ := List.forall_mem_append.mp hnames
  have hn : KeyName n := hbelow n List.mem_cons_self
  have hplain' : ∀ m ∈ above, PlainName m := fun m hm => (habove m hm).toPlainName
  obtain ⟨askable, left, way⟩ := Disk.locate_eq_ok_iff.mp h
  rw [Path.pieces_join (Path.isAbsolute_ofNames hplain), Path.pieces_ofNames (by simp) hplain,
    ← List.append_assoc] at way
  obtain ⟨mid, dir, hto, hfrom⟩ := way.split
  obtain ⟨es, node, hdir, hentry⟩ := hfrom.exists_entry hn.moves hn.ne_up
  have haskable := askable_above hplain askable hne
  refine ⟨dir, es, Disk.locate_eq_ok_iff.mpr ⟨haskable, mid, ?_⟩, hdir, ?_⟩
  · rw [Path.pieces_join (Path.isAbsolute_ofNames hplain')]
    by_cases ha : above = []
    · rw [ha, List.append_nil] at hto
      rw [ha, Path.ofNames_nil]
      exact hto.trans (.onward (.stay hdir (Disk.barrier?_empty _ _) rfl) .arrived)
    · rwa [Path.pieces_ofNames ha hplain']
  · obtain ⟨before, after, rfl, _⟩ := List.lookup_eq_some_iff.mp hentry
    simp

/-- If such a directory lists, then it lists the next name exactly once. -/
theorem count_listed_above (hdisk : r.disk.Proper) (hnames : ∀ m ∈ above ++ n :: rest, KeyName m)
    (h : r.disk.locate (r.root.join (.ofNames (above ++ n :: rest))) = .ok there)
    {listed : List String} (lists : r.store (.list (.ofNames above)) = .ok listed) :
    listed.count n = 1 := by
  obtain ⟨dir, es, hlocate, hdir, _, rfl⟩ :=
    (list_ofNames_eq_ok_iff (List.forall_mem_append.mp hnames).1).mp lists
  obtain ⟨dir', es', hlocate', hdir', hmem⟩ :=
    exists_directory_above hnames h (Disk.locate_eq_ok_iff.mp hlocate).1.nonempty
  obtain rfl : dir = dir' := Except.ok.inj (hlocate.symm.trans hlocate')
  obtain rfl : es = es' := DiskNode.directory.inj (hdir.symm.trans hdir')
  exact List.count_eq_one_of_mem (listsDistinct_store hdisk _ _ lists) (mem_listing.mpr hmem)

/-- And each of them below the root is one when it is statted. -/
theorem stat_above (hne : above ≠ []) (hnames : ∀ m ∈ above ++ n :: rest, KeyName m)
    (h : r.disk.locate (r.root.join (.ofNames (above ++ n :: rest))) = .ok there) :
    r.store (.stat (.ofNames above)) = .ok ⟨true, false, 0, none⟩ := by
  obtain ⟨habove, _⟩ := List.forall_mem_append.mp hnames
  have hplain : ∀ m ∈ above, PlainName m := fun m hm => (habove m hm).toPlainName
  obtain ⟨dir, es, hlocate, hdir, _⟩ :=
    exists_directory_above hnames h (Path.text_join_ofNames_ne_empty r.root hne hplain)
  simp only [store, reach_ofNames habove, Disk.stat_of_directory hlocate hdir]
  rfl

/-- **There is a way down to every record**, unless some directory on it does not list. -/
theorem wayDown_or_refused (hdisk : r.disk.Proper)
    (hnames : ∀ m ∈ above ++ (ds ++ [name]), KeyName m)
    (h : r.disk.locate (r.root.join (.ofNames (above ++ (ds ++ [name])))) = .ok there) :
    (r.store.WayDown above ds ∧ ∃ listed,
        r.store (.list (.ofNames (above ++ ds))) = .ok listed ∧ listed.count name = 1) ∨
      ∃ before refusal, before <+: ds ∧ r.store.WayDown above before ∧
        r.store (.list (.ofNames (above ++ before))) = .error refusal := by
  induction ds generalizing above with
  | nil =>
    rw [List.append_nil]
    cases hlist : r.store (.list (.ofNames above)) with
    | ok listed => exact .inl ⟨.here, listed, rfl, count_listed_above hdisk hnames h hlist⟩
    | error refusal => exact .inr ⟨[], refusal, List.nil_prefix, .here, by rwa [List.append_nil]⟩
  | cons d ds ih =>
    cases hlist : r.store (.list (.ofNames above)) with
    | error refusal => exact .inr ⟨[], refusal, List.nil_prefix, .here, by rwa [List.append_nil]⟩
    | ok listed =>
      rw [List.cons_append] at hnames h
      have honce := count_listed_above hdisk hnames h hlist
      rw [List.append_cons] at hnames h
      obtain ⟨next, later, hnext⟩ := List.exists_cons_of_ne_nil
        (List.append_ne_nil_of_right_ne_nil ds (List.cons_ne_nil name []))
      have hstat := stat_above (by simp) (hnext ▸ hnames) (hnext ▸ h)
      rcases ih hnames h with ⟨hway, hlast⟩ | ⟨before, refusal, hprefix, hway, hrefused⟩
      · exact .inl ⟨.deeper hlist honce hstat rfl hway, by rwa [List.append_cons]⟩
      · exact .inr ⟨d :: before, refusal, List.cons_prefix_cons.mpr ⟨rfl, hprefix⟩,
          .deeper hlist honce hstat rfl hway, by rwa [List.append_cons]⟩

/-- **Every directory on the way lists**: the root, and those that the names lead through. -/
def ListsWay (r : Records) (ds : List String) : Prop :=
  ∀ above, above <+: ds → ∃ listed, r.store (.list (.ofNames above)) = .ok listed

/-- What can be read at names is a file. -/
theorem locate_of_read (hnames : ∀ m ∈ names, KeyName m) {bytes : Bytes}
    (h : r.store (.read (.ofNames names)) = .ok bytes) :
    ∃ there modified, r.disk.locate (r.root.join (.ofNames names)) = .ok there ∧
      there.node = .file bytes modified := by
  rw [store, reach_ofNames hnames] at h
  cases hread : r.disk.read (r.root.join (.ofNames names)) with
  | error e => rw [hread] at h; cases h
  | ok read =>
    rw [hread] at h
    obtain rfl : read = bytes := Except.ok.inj h
    obtain ⟨there, modified, hlocate, _, hfile⟩ := Disk.read_eq_ok_iff.mp hread
    exact ⟨there, modified, hlocate, hfile⟩

/-- A way down lists the directories on it. -/
theorem listsWay_of_wayDown (way : r.store.WayDown [] ds) {listed : List String}
    (last : r.store (.list (.ofNames ds)) = .ok listed) : r.ListsWay ds := by
  suffices hlists : ∀ above, r.store.WayDown above ds →
      (∃ listed, r.store (.list (.ofNames (above ++ ds))) = .ok listed) →
      ∀ before, before <+: ds → ∃ listed, r.store (.list (.ofNames (above ++ before))) = .ok listed
    from hlists [] way ⟨listed, last⟩
  clear last way
  intro above way
  induction way with
  | here =>
    intro hlast before hprefix
    rwa [List.prefix_nil.mp hprefix]
  | @deeper above ds listed d _ lists _ _ _ _ ih =>
    intro hlast before hprefix
    cases before with
    | nil => exact ⟨listed, by rwa [List.append_nil]⟩
    | cons n before =>
      obtain ⟨rfl, hbelow⟩ := List.cons_prefix_cons.mp hprefix
      rw [List.append_cons] at hlast ⊢
      exact ih hlast before hbelow

/-- **Where no reading is refused**, all directories on the way to a record list, below a
root that is not given by the empty path. -/
theorem listsWay_of_free (hroot : r.root.text ≠ "")
    (free : ∀ l, r.disk.refusal? .read l = none) (hnames : ∀ m ∈ ds ++ [name], KeyName m)
    {bytes : Bytes} (hread : r.store (.read (.ofNames (ds ++ [name]))) = .ok bytes) :
    r.ListsWay ds := by
  rintro above ⟨below, rfl⟩
  obtain ⟨there, _, h, _⟩ := locate_of_read hnames hread
  obtain ⟨n, rest, hbelow⟩ := List.exists_cons_of_ne_nil
    (List.append_ne_nil_of_right_ne_nil below (List.cons_ne_nil name []))
  rw [List.append_assoc, hbelow] at hnames h
  have habove := (List.forall_mem_append.mp hnames).1
  have hne : (r.root.join (.ofNames above)).text ≠ "" := by
    rw [Path.join_of_relative (Path.isAbsolute_ofNames fun m hm => (habove m hm).toPlainName)]
    intro hempty
    rw [String.append_eq_empty_iff, String.append_eq_empty_iff] at hempty
    exact hroot hempty.1.1
  obtain ⟨dir, es, hlocate, hdir, _⟩ := exists_directory_above hnames h hne
  exact ⟨_, (list_ofNames_eq_ok_iff habove).mpr ⟨dir, es, hlocate, hdir, free _, rfl⟩⟩

end Records

/-! ## The walk for a key -/

namespace Walker

variable {s : Store} {o : WalkOptions} {ds listed : List String} {name : String} {m : Metadata}

/-- **All events of a walk**: it gives these, and then it has ended. -/
def EndsWith (w : Walker) (s : Store) (es : List WalkEvent) : Prop :=
  ∃ log v, Reaches s w es log v ∧ v.halted = true

/-- The events with which a walk ends that has one file to look at. -/
def lastEvents : Except WalkError (Option Match) → List WalkEvent
  | .error e => [.failed e]
  | .ok found => (found.map .found).toList ++ [.finished]

/-- **A walk for names** comes down to the last of them and looks at the file: the match,
if it comes to one, is all that the walk finds, and a failure to look at it is all that
it gives. -/
theorem endsWith_of_look (way : s.WayDown [] ds) (hds : ∀ d ∈ ds, PlainName d)
    (hname : PlainName name) (kept : ∀ d ∈ ds, o.ignore d = false)
    (keptName : o.ignore name = false) (lists : s (.list (.ofNames ds)) = .ok listed)
    (once : listed.count name = 1) {path : Path} (hpath : .ofNames (ds ++ [name]) = path)
    (stats : s (.stat path) = .ok m) (file : m.isDir = false)
    {result : Except WalkError (Option Match)} {calls : List Call}
    (look : (matchOf o path ⟨name, m⟩).run s = (result, calls)) :
    (start (Pattern.behind ⟨.literal name, []⟩ ds) o).EndsWith s (lastEvents result) := by
  subst hpath
  obtain ⟨under, hunder, hdown⟩ := reaches_down way (by simp) hds kept
    (Pattern.behind ⟨.literal name, []⟩ ds) ⟨.literal name, []⟩ []
  rw [List.append_nil, List.nil_append, Path.ofNames_nil] at hdown
  have hload := Frame.run_load_literal [] hds hname keptName lists once stats
  have hloaded := hdown.trans (.of_step (.load rfl hload))
  have haction : Frame.action
      ⟨.ofNames ds, .literal name, [], false, some ⟨[], [⟨name, m⟩]⟩⟩ ⟨name, m⟩ = .emit :=
    Frame.action_emit_iff.mpr ⟨file, rfl, by simp⟩
  rw [← Path.entry_ofNames hds hname] at look
  cases result with
  | error e => exact ⟨_, _, hloaded.trans (.of_step (.emitFailed rfl haction look)), rfl⟩
  | ok found =>
    have hlooked := hloaded.trans (.of_step (.emit rfl haction look))
    have hleft := (hlooked.trans (.of_step (.pop rfl))).trans (Reaches.dropped hunder)
    have hended := hleft.trans (.of_step .finish)
    simp only [Option.toList_none, List.append_nil, List.nil_append] at hended
    exact ⟨_, _, hended, rfl⟩

/-- **A walk for names that comes to a directory which does not list** gives that failure,
and nothing else. -/
theorem endsWith_of_refused {before after : List String} {refusal : Refusal}
    (way : s.WayDown [] before) (hbefore : ∀ d ∈ before, PlainName d)
    (kept : ∀ d ∈ before, o.ignore d = false)
    (refused : s (.list (.ofNames before)) = .error refusal) :
    (start (Pattern.behind ⟨.literal name, []⟩ (before ++ after)) o).EndsWith s
      [.failed (.list (.ofNames before) refusal.cause)] := by
  obtain ⟨under, _, hdown⟩ := reaches_down way (by simp) hbefore kept
    (Pattern.behind ⟨.literal name, []⟩ (before ++ after))
    (Pattern.behind ⟨.literal name, []⟩ after) []
  rw [← Pattern.behind_append, List.nil_append, Path.ofNames_nil] at hdown
  have hload := Frame.run_load_of_refused (s := s)
    ((Frame.directory_enter (.ofNames before) false
      (Pattern.behind ⟨.literal name, []⟩ after).first
      (Pattern.behind ⟨.literal name, []⟩ after).rest).symm ▸ refused) o
  rw [Frame.directory_enter] at hload
  exact ⟨_, _, hdown.trans (.of_step (.loadFailed (Frame.cursor_enter _ _ _ _) hload)), rfl⟩

end Walker

end TreeQuery
