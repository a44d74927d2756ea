import TreeQuery.Records
import TreeQuery.Proofs.Soundness

/-!
# The order in which a walk goes through a tree

A walk that is going on has a *ground*: the places that it may still come to. The ground
of a frame lies below its directory and, once the frame is loaded, under the names of the
entries ahead. No step leaves the ground of the walk, and what a step has done with is
behind it for good.

So it is enough to say of the entries of one directory which of them come first
(`Store.Sorts`). That this order of neighbours is the order of all matches, those from
deeper frames between those of their parents, is one invariant of the stack: the ground
of an upper frame comes before that of a lower one (`Walker.Ordered`). The order itself is
left open; listings that are sorted make it the order of the lists of names.
-/

namespace TreeQuery

/-! ## The ground of a walk -/

/-- **An entry leads to names** below its directory: a file to its own name alone, a
directory to its name with something behind it. -/
def Entry.Leads (e : Entry) (names : List String) : Prop :=
  ∃ rest, names = e.name :: rest ∧ (rest = [] ↔ e.metadata.isDir = false)

/-- **One entry before another** in the directory `above`: whatever the one leads to
comes before whatever the other leads to. -/
def Entry.Before (R : List String → List String → Prop) (above : List String) (e e' : Entry) :
    Prop :=
  ∀ x y, e.Leads x → e'.Leads y → R (above ++ x) (above ++ y)

/-- **Loaded entries come in an order**, in every directory that a walk with these options
can load. -/
def Store.Sorts (s : Store) (R : List String → List String → Prop) (o : WalkOptions) : Prop :=
  ∀ (f : Frame) entries calls, (f.load o).run s = (.ok entries, calls) →
    ∀ above, entries.Pairwise (Entry.Before R above)

namespace Frame

variable {p : Pattern} {o : WalkOptions} {f g : Frame} {e : Entry} {names : List String}

/-- **The ground of a frame**: what lies below its directory and, if the frame is loaded,
is led to by an entry ahead. -/
def Ground (f : Frame) (names : List String) : Prop :=
  ∃ below, names = f.directory.names ++ below ∧ below ≠ [] ∧
    ∀ c ∈ f.cursor, ∃ e ∈ c.ahead, e.Leads below

/-- The ground of a loaded frame. -/
theorem ground_moved_iff {c : Cursor} :
    (f.moved c).Ground names ↔
      ∃ e ∈ c.ahead, ∃ below, e.Leads below ∧ names = f.directory.names ++ below := by
  constructor
  · rintro ⟨below, rfl, _, hahead⟩
    obtain ⟨e, he, hleads⟩ := hahead c rfl
    exact ⟨e, he, below, hleads, rfl⟩
  · rintro ⟨e, he, below, hleads, rfl⟩
    have hne : below ≠ [] := by
      obtain ⟨rest, rfl, _⟩ := hleads
      exact List.cons_ne_nil _ _
    refine ⟨below, rfl, hne, fun c' hc' => ?_⟩
    cases hc'
    exact ⟨e, he, hleads⟩

/-- A loaded frame is the frame with its own cursor. -/
theorem moved_of_cursor {c : Cursor} (h : f.cursor = some c) : f.moved c = f := by
  cases f
  cases h
  rfl

/-- All below its directory is the ground of a fresh frame. -/
theorem ground_of_fresh (fresh : f.cursor = none) {below : List String} (hne : below ≠ []) :
    f.Ground (f.directory.names ++ below) :=
  ⟨below, rfl, hne, by simp [fresh]⟩

/-- Loading keeps to the ground. -/
theorem Ground.of_loaded {c : Cursor} (fresh : f.cursor = none) (h : (f.moved c).Ground names) :
    f.Ground names := by
  obtain ⟨below, rfl, hne, _⟩ := h
  exact ground_of_fresh fresh hne

/-- What the first entry ahead leads to is ground. -/
theorem ground_of_due {taken ahead : List Entry} (due : f.cursor = some ⟨taken, e :: ahead⟩)
    {below : List String} (h : e.Leads below) : f.Ground (f.directory.names ++ below) := by
  rw [← moved_of_cursor due]
  exact ground_moved_iff.mpr ⟨e, List.mem_cons_self, below, h, rfl⟩

/-- Taking an entry keeps to the ground. -/
theorem Ground.of_taken {taken ahead : List Entry} (due : f.cursor = some ⟨taken, e :: ahead⟩)
    (h : (f.moved ⟨e :: taken, ahead⟩).Ground names) : f.Ground names := by
  obtain ⟨e', he', below, hleads, rfl⟩ := ground_moved_iff.mp h
  rw [← moved_of_cursor due]
  exact ground_moved_iff.mpr ⟨e', List.mem_cons_of_mem e he', below, hleads, rfl⟩

/-- The names of the directory of a frame. -/
theorem Sound.names_directory (h : f.Sound p o names) : f.directory.names = names := by
  rw [h.directory, Path.names_ofNames h.plain]

/-- The ground of an entered frame is what its entry leads to. -/
theorem Ground.of_descend (hf : f.Sound p o names) (hplain : PlainName e.name)
    (hkeeps : f.keeps o e.name = true) (action : f.action e = .descend g) {x : List String}
    (h : g.Ground x) : ∃ below, e.Leads below ∧ x = f.directory.names ++ below := by
  obtain ⟨below, rfl, hne, _⟩ := h
  obtain ⟨hd, _⟩ := descend_cases action
  refine ⟨e.name :: below, ⟨below, rfl, by simp [hne, hd]⟩, ?_⟩
  rw [(hf.descend hplain hkeeps action).names_directory, hf.names_directory, List.append_assoc,
    List.singleton_append]

end Frame

namespace Walker

variable {s : Store} {p : Pattern} {o : WalkOptions} {R : List String → List String → Prop}
  {w v : Walker} {m : Match} {calls : List Call}

/-- **The ground of a walk**: that of the frames on its stack. -/
def Ground (w : Walker) (names : List String) : Prop :=
  ∃ f ∈ w.stack, f.Ground names

/-- The ground of the top frame and that of the frames below it. -/
theorem ground_cons_iff {f : Frame} {below : List Frame} {names : List String} :
    (∃ g ∈ f :: below, g.Ground names) ↔ f.Ground names ∨ ∃ g ∈ below, g.Ground names := by
  simp

/-- **A walk in order**: the ground of an upper frame comes before that of a lower one,
and the entries ahead in a frame come in order. -/
structure Ordered (R : List String → List String → Prop) (p : Pattern) (o : WalkOptions)
    (w : Walker) : Prop where
  sound : Sound p o w
  frames : w.stack.Pairwise fun f g => ∀ x y, f.Ground x → g.Ground y → R x y
  entries : ∀ f ∈ w.stack, ∀ c ∈ f.cursor, c.ahead.Pairwise (Entry.Before R f.directory.names)

/-- A walk begins in order. -/
theorem ordered_start (R : List String → List String → Prop) (p : Pattern) (o : WalkOptions) :
    Ordered R p o (start p o) := by
  refine ⟨sound_start p o, List.pairwise_singleton _ _, fun f hf c hc => ?_⟩
  cases List.mem_singleton.mp hf
  rw [Frame.cursor_enter] at hc
  cases hc

namespace Ordered

variable {q : Pattern} {o' : WalkOptions} {f : Frame} {below : List Frame} {halted : Bool}
  {spent ahead : List Entry} {e : Entry}

/-- **What the first entry ahead leads to comes first**: before all of the ground that
remains when the entry has been taken. -/
theorem before_of_due (h : Ordered R p o ⟨q, o', f :: below, halted⟩)
    (due : f.cursor = some ⟨spent, e :: ahead⟩) {x y : List String} (hx : e.Leads x)
    (hy : Ground ⟨q, o', f.moved ⟨e :: spent, ahead⟩ :: below, halted⟩ y) :
    R (f.directory.names ++ x) y := by
  rcases ground_cons_iff.mp hy with hy | ⟨g, hg, hy⟩
  · obtain ⟨e', he', z, hz, rfl⟩ := Frame.ground_moved_iff.mp hy
    have hentries := h.entries f List.mem_cons_self _ due
    exact (List.pairwise_cons.mp hentries).1 e' he' x z hx hz
  · exact (List.pairwise_cons.mp h.frames).1 g hg _ _ (Frame.ground_of_due due hx) hy

/-- Moving the top frame on to a part of its ground, with entries in order ahead, keeps to
the ground and to the order. -/
theorem moved (h : Ordered R p o ⟨q, o', f :: below, halted⟩) {c : Cursor}
    (sound : Sound p o ⟨q, o', f.moved c :: below, halted⟩)
    (ground : ∀ x, (f.moved c).Ground x → f.Ground x)
    (entries : c.ahead.Pairwise (Entry.Before R f.directory.names)) :
    Ordered R p o ⟨q, o', f.moved c :: below, halted⟩ ∧
      ∀ x, Ground ⟨q, o', f.moved c :: below, halted⟩ x → Ground ⟨q, o', f :: below, halted⟩ x := by
  obtain ⟨hupper, hbelow⟩ := List.pairwise_cons.mp h.frames
  obtain ⟨_, hentries⟩ := List.forall_mem_cons.mp h.entries
  refine ⟨⟨sound, List.pairwise_cons.mpr
    ⟨fun g hg x y hx => hupper g hg x y (ground x hx), hbelow⟩,
    List.forall_mem_cons.mpr ⟨fun c' hc' => ?_, hentries⟩⟩, fun x hx => ?_⟩
  · cases hc'
    exact entries
  · exact ground_cons_iff.mpr ((ground_cons_iff.mp hx).imp_left (ground x))

/-- Taking the first entry ahead keeps to the ground and to the order. -/
theorem taken (h : Ordered R p o ⟨q, o', f :: below, halted⟩)
    (due : f.cursor = some ⟨spent, e :: ahead⟩)
    (sound : Sound p o ⟨q, o', f.moved ⟨e :: spent, ahead⟩ :: below, halted⟩) :
    Ordered R p o ⟨q, o', f.moved ⟨e :: spent, ahead⟩ :: below, halted⟩ ∧
      ∀ x, Ground ⟨q, o', f.moved ⟨e :: spent, ahead⟩ :: below, halted⟩ x →
        Ground ⟨q, o', f :: below, halted⟩ x :=
  h.moved sound (fun _ => .of_taken due)
    (List.pairwise_cons.mp (h.entries f List.mem_cons_self _ due)).2

/-- A reported entry is led to by its name, which ends its path. -/
theorem pieces_of_emit (h : Ordered R p o ⟨q, o', f :: below, halted⟩)
    (due : f.cursor = some ⟨spent, e :: ahead⟩) (action : f.action e = .emit) :
    e.Leads [e.name] ∧ (f.pathOf e).pieces = f.directory.names ++ [e.name] := by
  obtain ⟨⟨names, hf⟩, _⟩ := List.forall_mem_cons.mp h.sound.2
  obtain ⟨hplain, hkeeps⟩ := hf.ahead _ due _ List.mem_cons_self
  obtain ⟨hpath, hnames, _⟩ := hf.entry hplain hkeeps
  obtain ⟨hfile, _, _⟩ := Frame.action_emit_iff.mp action
  refine ⟨⟨[], rfl, by simp [hfile]⟩, ?_⟩
  rw [hpath, Path.pieces_ofNames (by simp) hnames, hf.names_directory]

end Ordered

/-- **A step keeps to the ground, and to the order.** -/
theorem ordered_step (hs : s.ListsPlain) (sorted : s.Sorts R o) {event : Option WalkEvent}
    (hw : Ordered R p o w) (h : Step s w event calls v) :
    Ordered R p o v ∧ ∀ x, v.Ground x → w.Ground x := by
  have hsound := (sound_step hs hw.sound h).1
  obtain ⟨rfl, hstack⟩ := hw.sound
  cases h with
  | rest ended => exact ⟨hw, fun x hx => hx⟩
  | finish => exact ⟨⟨hsound, .nil, by simp⟩, by simp [Ground]⟩
  | loadFailed fresh refused => exact ⟨⟨hsound, .nil, by simp⟩, by simp [Ground]⟩
  | emitFailed due action refused => exact ⟨⟨hsound, .nil, by simp⟩, by simp [Ground]⟩
  | pop spent =>
    exact ⟨⟨hsound, (List.pairwise_cons.mp hw.frames).2, (List.forall_mem_cons.mp hw.entries).2⟩,
      fun x hx => ground_cons_iff.mpr (.inr hx)⟩
  | load fresh loaded =>
    exact hw.moved hsound (fun _ => .of_loaded fresh) (sorted _ _ _ loaded _)
  | skip due action => exact hw.taken due hsound
  | emit due action read => exact hw.taken due hsound
  | @descend _ _ f g below taken ahead e due action =>
    obtain ⟨⟨names, hf⟩, hbelow⟩ := List.forall_mem_cons.mp hstack
    obtain ⟨hplain, hkeeps⟩ := hf.ahead _ due _ List.mem_cons_self
    obtain ⟨hrest, hground⟩ := hw.taken due
      ⟨rfl, List.forall_mem_cons.mpr ⟨⟨names, hf.taken due⟩, hbelow⟩⟩
    -- what is entered lies where the entry led to, and so before all that its frame has left
    have hentered : ∀ x, g.Ground x → ∃ y, e.Leads y ∧ x = f.directory.names ++ y :=
      fun x hx => hx.of_descend hf hplain hkeeps action
    refine ⟨⟨hsound, List.pairwise_cons.mpr ⟨fun k hk x y hx hy => ?_, hrest.frames⟩,
      List.forall_mem_cons.mpr ⟨fun c hc => ?_, hrest.entries⟩⟩, fun x hx => ?_⟩
    · obtain ⟨z, hz, rfl⟩ := hentered x hx
      exact hw.before_of_due due hz ⟨k, hk, hy⟩
    · rw [(Frame.fresh_of_descend action).1] at hc
      cases hc
    · rcases ground_cons_iff.mp hx with hx | hx
      · obtain ⟨z, hz, rfl⟩ := hentered x hx
        exact ground_cons_iff.mpr (.inl (Frame.ground_of_due due hz))
      · exact hground x hx

/-- **What a step reports is on the ground**, and before all of the ground that
remains. -/
theorem found_step (hw : Ordered R p o w) (h : Step s w (some (.found m)) calls v) :
    w.Ground m.path.pieces ∧ ∀ y, v.Ground y → R m.path.pieces y := by
  generalize hevent : some (WalkEvent.found m) = event at h
  cases h with
  | emit due action read =>
    obtain ⟨m', rfl, hm⟩ := Option.map_eq_some_iff.mp hevent.symm
    cases hm
    obtain ⟨hleads, hpath⟩ := hw.pieces_of_emit due action
    rw [path_of_matchOf read, hpath]
    exact ⟨ground_cons_iff.mpr (.inl (Frame.ground_of_due due hleads)),
      fun y hy => hw.before_of_due due hleads hy⟩
  | _ => cases hevent

/-- The files among events that begin with matches. -/
theorem filterMap_file_found (files : List Match) (rest : List WalkEvent) :
    (files.map WalkEvent.found ++ rest).filterMap WalkEvent.file?
      = files ++ rest.filterMap WalkEvent.file? := by
  rw [List.filterMap_append, List.filterMap_map]
  exact congrArg (· ++ _) List.filterMap_some

/-- **A walk in order finds its files in order**, on its ground. -/
theorem found_of_ordered (hs : s.ListsPlain) (sorted : s.Sorts R o) {es : List WalkEvent}
    {log : List Call} (reached : Reaches s w es log v) (hw : Ordered R p o w) :
    ((es.filterMap WalkEvent.file?).map fun m => m.path.pieces).Pairwise R ∧
      ∀ m ∈ es.filterMap WalkEvent.file?, w.Ground m.path.pieces := by
  induction reached using Reaches.head_induction_on with
  | refl => exact ⟨.nil, by simp⟩
  | @head w u event calls es log first _ ih =>
    obtain ⟨hu, hground⟩ := ordered_step hs sorted hw first
    obtain ⟨hpairwise, hfiles⟩ := ih hu
    match event with
    | none | some .finished | some (.failed _) =>
      exact ⟨hpairwise, fun m hm => hground _ (hfiles m hm)⟩
    | some (.found m) =>
      obtain ⟨hhere, hbefore⟩ := found_step hw first
      refine ⟨List.pairwise_cons.mpr ⟨fun y hy => ?_, hpairwise⟩,
        List.forall_mem_cons.mpr ⟨hhere, fun m hm => hground _ (hfiles m hm)⟩⟩
      obtain ⟨m', hm', rfl⟩ := List.mem_map.mp hy
      exact hbefore _ (hfiles m' hm')

end Walker

/-! ## Listings that are sorted -/

namespace Store

/-- **Every listing is sorted**, and so no name is listed twice. -/
def ListsSorted (s : Store) : Prop :=
  ∀ dir names, s (.list dir) = .ok names → names.Pairwise (· < ·)

/-- Sorted listings are loaded in the order of the lists of names: the first names that
differ decide. -/
theorem ListsSorted.sorts {s : Store} (h : s.ListsSorted) {o : WalkOptions}
    (asListed : o.filesFirst = false) : s.Sorts (· < ·) o := by
  intro f entries calls loaded above
  obtain ⟨names, known, hlist, hnames, _, rfl, _⟩ := Frame.run_load_ok loaded
  have hknown : o.arrange known = known := by
    rw [WalkOptions.arrange, asListed, if_neg Bool.false_ne_true]
  have hsorted : (known.map Entry.name).Pairwise (· < ·) :=
    hnames ▸ (h f.directory names hlist).filter _
  rw [hknown]
  refine (List.pairwise_map.mp hsorted).imp fun hlt => ?_
  rintro _ _ ⟨x, rfl, _⟩ ⟨y, rfl, _⟩
  exact List.append_left_lt (List.cons_lt_cons_iff.mpr (.inl hlt))

end Store

/-- **Roots of records list sorted names**, provided that no directory has two entries of
one name. -/
theorem Records.listsSorted_store {r : Records} (h : r.store.ListsDistinct) :
    r.store.ListsSorted := by
  intro dir names hlist
  have hnodup := h dir names hlist
  rw [store] at hlist
  cases hreach : r.reach dir r.disk.list with
  | error e => rw [hreach] at hlist; cases hlist
  | ok raw =>
    rw [hreach] at hlist
    cases hlist
    have hle : (listing raw).Pairwise fun a b => decide (a ≤ b) = true :=
      List.pairwise_mergeSort (by simpa using fun a b c => String.le_trans)
        (by simpa using String.le_total) _
    exact (hle.and hnodup).imp fun hab => Std.lt_of_le_of_ne (of_decide_eq_true hab.1) hab.2

namespace Walker

variable {s : Store}

/-- **Matches come in the order of their names.** Where listings are sorted and give plain
names, every run of a walk that takes entries as they are listed, whether it comes to an
end, fails or goes on, finds its files in strictly increasing order of the lists of their
names; no path is found twice. A file of a directory so comes before what is listed behind
the directory, wherever its path as a text would stand. -/
theorem found_in_order_of_names (p : Pattern) {o : WalkOptions} (asListed : o.filesFirst = false)
    (hs : s.ListsPlain) (sorted : s.ListsSorted) {es : List WalkEvent} {log : List Call}
    {w : Walker} (reached : Reaches s (start p o) es log w) :
    ((es.filterMap WalkEvent.file?).map fun m => m.path.pieces).Pairwise (· < ·) ∧
      ((es.filterMap WalkEvent.file?).map Match.path).Nodup := by
  have hpieces := (found_of_ordered hs (sorted.sorts asListed) reached (ordered_start _ p o)).1
  refine ⟨hpieces, List.pairwise_map.mpr ((List.pairwise_map.mp hpieces).imp fun hlt heq => ?_)⟩
  rw [heq] at hlt
  exact absurd hlt (List.lt_irrefl _)

end Walker

/-- A tree with a name that goes on, behind the name of a directory, with a character
before the slash, and with a directory at the end that cannot be listed. -/
def Memory.dashed : Memory :=
  ofNodes
    [ { path := ⟨"a/b.json"⟩ }, { path := ⟨"a-.json"⟩ },
      { path := ⟨"b"⟩, isDir := true, attributes := { listFault := some .io } } ]

/-- The file in the directory comes first, although its path is the greater text. -/
theorem Walker.found_in_order_of_names_dashed :
    Memory.dashed.store.ListsPlain ∧ Memory.dashed.store.ListsSorted ∧
      ("a-.json" < "a/b.json") ∧
      ∃ es log w, Reaches Memory.dashed.store (start ⟨.globstar, [.wildcard "*.json"]⟩ {})
          es log w ∧ .failed (.list ⟨"b"⟩ (.io "b: stale handle")) ∈ es ∧
        (es.filterMap WalkEvent.file?).map Match.path = [⟨"a/b.json"⟩, ⟨"a-.json"⟩] ∧
        ((es.filterMap WalkEvent.file?).map fun m => m.path.pieces).Pairwise (· < ·) := by
  have hplain := Memory.listsPlain_store (show Memory.dashed.isPlain = true from by decide)
  have hnames : ∀ a ∈ Memory.dashed.entries, a.2.names.Pairwise (· < ·) := by decide
  have hsorted : Memory.dashed.store.ListsSorted := fun dir names hlist => by
    obtain ⟨e, he, rfl⟩ := Memory.exists_of_list hlist
    exact hnames _ he
  have hreached :=
    Reaches.of_events Memory.dashed.store 6 4 (start ⟨.globstar, [.wildcard "*.json"]⟩ {})
  exact ⟨hplain, hsorted, by decide, _, _, _, hreached,
    .tail _ (.tail _ (.head _)), by decide,
    (found_in_order_of_names _ rfl hplain hsorted hreached).1⟩

end TreeQuery
