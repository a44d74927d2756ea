import TreeQuery.Proofs.Contents
import TreeQuery.Proofs.Order

/-!
# Nothing is asked twice, and nothing without need

A walk makes no call twice. Each call has a *spot* (`Call.spot`), a place on the ground of
the walk: that of a directory about to be loaded, or that of a file about to be read. The
step that makes the call leaves the spot for good, since the grounds of two frames never
meet – no frame of the past comes back to it, whether the walk stays inside a `**` or
leaves it.

And no call is made without need. What a walk knows about a directory or a file it has
asked before (`Frame.Known`), and so each call of the log is justified by those before it:
only directories are listed, only listed names are statted, and only what is no directory
is read. A file that has been read and parsed is the next event, in the very step that
reads it.

Any call may fail. Only that the listings repeat no name and give plain names is assumed.
-/

namespace TreeQuery

/-! ## The calls of a frame -/

/-- Statting names asks about those at the beginning, as far as it gets. -/
theorem exists_calls_of_statAll (s : Store) (dir : Path) (names : List String) :
    ∃ asked : List String, asked <+: names ∧
      ((statAll dir names).run s).2 = asked.map fun n => .stat (dir.entry n) := by
  cases hr : (statAll dir names).run s with
  | mk result log =>
    cases result with
    | ok known => exact ⟨names, List.prefix_rfl, (run_statAll_ok hr).2.2⟩
    | error e =>
      obtain ⟨asked, _, _, hbatch, _, hcalls⟩ := run_statAll_error hr
      exact ⟨asked, hbatch.beginning, hcalls⟩

/-- **The calls of loading**: the directory is listed, and then names that it lists are
statted, none of them twice. -/
theorem Frame.Sound.exists_calls_of_load {p : Pattern} {o : WalkOptions} {s : Store} {f : Frame}
    {names : List String} (hf : f.Sound p o names) (hs : s.ListsPlain)
    (hdistinct : s.ListsDistinct) :
    ∃ asked : List String, ((f.load o).run s).2
        = .list (.ofNames names) :: asked.map (fun n => .stat (.ofNames (names ++ [n]))) ∧
      asked.Nodup ∧ ∀ n ∈ asked, PlainName n ∧
        ∃ listed, s (.list (.ofNames names)) = .ok listed ∧ n ∈ listed := by
  rw [← hf.directory]
  cases hl : s (.list f.directory) with
  | error e => exact ⟨[], by rw [run_load_of_refused hl]; rfl, .nil, by simp⟩
  | ok listed =>
    obtain ⟨asked, hasked, hcalls⟩ :=
      exists_calls_of_statAll s f.directory (listed.filter (f.keeps o))
    have hsub : asked.Sublist listed := hasked.sublist.trans List.filter_sublist
    have hplain : ∀ n ∈ asked, PlainName n := fun n hn => hs _ _ hl n (hsub.subset hn)
    have hpaths : asked.map (fun n => Call.stat (f.directory.entry n))
        = asked.map fun n => .stat (.ofNames (names ++ [n])) :=
      List.map_congr_left fun n hn => by
        rw [hf.directory, Path.entry_ofNames hf.plain (hplain n hn)]
    refine ⟨asked, by rw [run_load_of_listed hl, hcalls, hpaths], (hdistinct _ _ hl).sublist hsub,
      fun n hn => ⟨hplain n hn, listed, rfl, hsub.subset hn⟩⟩

/-- **The calls of looking at a file**: none, or one that reads it. -/
theorem calls_matchOf (s : Store) (o : WalkOptions) (path : Path) (e : Entry) :
    ((matchOf o path e).run s).2 = [] ∨ ((matchOf o path e).run s).2 = [.read path] := by
  unfold matchOf
  split
  · exact .inl rfl
  · split
    · refine .inr ?_
      simp only [Access.read, Access.bind_ask, Access.bind_done, Access.run_ask]
      cases s (.read path) with
      | error cause => rfl
      | ok bytes =>
        dsimp only
        cases Json.parse bytes <;> rfl
    · exact .inl rfl

/-- **A file that is looked at and read** is read in one call; if its contents parse, they
come with the match. -/
theorem run_matchOf_of_read {s : Store} {o : WalkOptions} {path q : Path} {e : Entry}
    {result : Except WalkError (Option Match)} {calls : List Call}
    (h : (matchOf o path e).run s = (result, calls)) (hq : .read q ∈ calls) :
    calls = [.read q] ∧ ∀ bytes value, s (.read q) = .ok bytes → Json.parse bytes = .ok value →
      result = .ok (some ⟨q, e.metadata, some value⟩) := by
  have hcalls := calls_matchOf s o path e
  rw [h] at hcalls
  obtain rfl | rfl := hcalls
  · cases hq
  · obtain rfl : q = path := by simpa using hq
    refine ⟨rfl, fun bytes value hread hparse => ?_⟩
    unfold matchOf at h
    split at h
    · cases h
    · split at h
      · simp only [Access.read, Access.bind_ask, Access.bind_done, Access.run_ask, hread,
          hparse] at h
        exact (congrArg Prod.fst h).symm
      · cases h

/-! ## Spots -/

/-- **The spot of a call.** A directory is loaded in one go, and the calls of this share
the spot of its listing, an empty name at its end. -/
def Call.spot : Call → List String
  | .list dir => dir.names ++ [""]
  | .stat path => path.pieces.dropLast ++ [""]
  | .read path => path.pieces

/-- Where no listing repeats a name, no two entries of a directory lead to the same. -/
theorem Store.ListsDistinct.sorts_ne {s : Store} (h : s.ListsDistinct) (o : WalkOptions) :
    s.Sorts (· ≠ ·) o := by
  intro f entries calls loaded above
  refine (List.pairwise_map.mp (Frame.nodup_load h loaded)).imp fun hne => ?_
  rintro _ _ ⟨x, rfl, _⟩ ⟨y, rfl, _⟩ heq
  exact hne (List.cons.inj (List.append_cancel_left heq)).1

namespace Frame.Sound

variable {p : Pattern} {o : WalkOptions} {s : Store} {f : Frame} {names : List String}

/-- The spot of every call of loading is that of the listing. -/
theorem spot_of_load (hf : f.Sound p o names) (hs : s.ListsPlain)
    (hdistinct : s.ListsDistinct) :
    ∀ c ∈ ((f.load o).run s).2, c.spot = f.directory.names ++ [""] := by
  obtain ⟨asked, hcalls, _, hasked⟩ := hf.exists_calls_of_load hs hdistinct
  rw [hcalls, hf.names_directory]
  refine List.forall_mem_cons.mpr ⟨?_, fun c hc => ?_⟩
  · rw [Call.spot, Path.names_ofNames hf.plain]
  · obtain ⟨n, hn, rfl⟩ := List.mem_map.mp hc
    have hnames : ∀ n' ∈ names ++ [n], PlainName n' :=
      List.forall_mem_append.mpr ⟨hf.plain, List.forall_mem_singleton.mpr (hasked n hn).1⟩
    rw [Call.spot, Path.pieces_ofNames (by simp) hnames, List.dropLast_concat]

/-- Loading makes no call twice. -/
theorem nodup_calls_of_load (hf : f.Sound p o names) (hs : s.ListsPlain)
    (hdistinct : s.ListsDistinct) : ((f.load o).run s).2.Nodup := by
  obtain ⟨asked, hcalls, hnodup, hasked⟩ := hf.exists_calls_of_load hs hdistinct
  rw [hcalls, List.nodup_cons]
  refine ⟨by simp, List.Nodup.map_on (fun n hn n' hn' heq => ?_) hnodup⟩
  have hnames : ∀ n ∈ asked, ∀ n' ∈ names ++ [n], PlainName n' := fun n hn =>
    List.forall_mem_append.mpr ⟨hf.plain, List.forall_mem_singleton.mpr (hasked n hn).1⟩
  have hsame := Path.ofNames_inj (hnames n hn) (hnames n' hn') (by simp) (by simp)
    (Call.stat.inj heq)
  exact (List.cons.inj (List.append_cancel_left hsame)).1

end Frame.Sound

namespace Walker

variable {s : Store} {p : Pattern} {o : WalkOptions} {w v : Walker}

namespace Ordered

variable {q : Pattern} {f : Frame} {below : List Frame} {halted : Bool}

/-- The calls of loading the top frame: different ones, with one spot on the ground. -/
theorem load_calls (h : Ordered (· ≠ ·) p o ⟨q, o, f :: below, halted⟩) (hs : s.ListsPlain)
    (hdistinct : s.ListsDistinct) (fresh : f.cursor = none) :
    ((f.load o).run s).2.Nodup ∧ f.Ground (f.directory.names ++ [""]) ∧
      ∀ c ∈ ((f.load o).run s).2, c.spot = f.directory.names ++ [""] := by
  obtain ⟨⟨names, hf⟩, _⟩ := List.forall_mem_cons.mp h.sound.2
  exact ⟨hf.nodup_calls_of_load hs hdistinct, Frame.ground_of_fresh fresh (List.cons_ne_nil "" []),
    hf.spot_of_load hs hdistinct⟩

/-- The call of looking at the first entry ahead, if any: its spot is that of the entry. -/
theorem matchOf_calls (h : Ordered (· ≠ ·) p o ⟨q, o, f :: below, halted⟩)
    {taken ahead : List Entry} {e : Entry} (due : f.cursor = some ⟨taken, e :: ahead⟩)
    (action : f.action e = .emit) :
    ((matchOf o (f.pathOf e) e).run s).2.Nodup ∧ f.Ground (f.directory.names ++ [e.name]) ∧
      ∀ c ∈ ((matchOf o (f.pathOf e) e).run s).2, c.spot = f.directory.names ++ [e.name] := by
  obtain ⟨hleads, hpath⟩ := h.pieces_of_emit due action
  refine and_left_comm.mp ⟨Frame.ground_of_due due hleads, ?_⟩
  obtain hnone | hone := calls_matchOf s o (f.pathOf e) e
  · rw [hnone]
    exact ⟨.nil, by simp⟩
  · rw [hone]
    exact ⟨List.nodup_singleton _, List.forall_mem_singleton.mpr hpath⟩

end Ordered

/-- **The calls of a step leave their spots for good**: they are on the ground before the
step, and off it after. -/
theorem calls_step (hs : s.ListsPlain) (hdistinct : s.ListsDistinct)
    (hw : Ordered (· ≠ ·) p o w) {event : Option WalkEvent} {calls : List Call}
    (h : Step s w event calls v) :
    calls.Nodup ∧ ∀ c ∈ calls, w.Ground c.spot ∧ ¬ v.Ground c.spot := by
  obtain ⟨rfl, _⟩ := hw.sound
  cases h with
  | rest ended => exact ⟨.nil, by simp⟩
  | finish => exact ⟨.nil, by simp⟩
  | pop spent => exact ⟨.nil, by simp⟩
  | skip due action => exact ⟨.nil, by simp⟩
  | descend due action => exact ⟨.nil, by simp⟩
  | load fresh loaded =>
    obtain ⟨hnodup, hhere, hspot⟩ := hw.load_calls hs hdistinct fresh
    rw [loaded] at hnodup hspot
    refine ⟨hnodup, fun c hc => ?_⟩
    rw [hspot c hc]
    refine ⟨ground_cons_iff.mpr (.inl hhere), fun hlater => ?_⟩
    rcases ground_cons_iff.mp hlater with hmoved | ⟨g, hg, hbelow⟩
    · -- no entry leads to the spot, as no name is empty
      obtain ⟨e, he, _, ⟨rest, rfl, _⟩, heq⟩ := Frame.ground_moved_iff.mp hmoved
      have hname := (List.cons.inj (List.append_cancel_left heq)).1
      exact (hs.hasEntry (Frame.hasEntry_of_load loaded he).1).ne_empty hname.symm
    · exact (List.pairwise_cons.mp hw.frames).1 g hg _ _ hhere hbelow rfl
  | loadFailed fresh refused =>
    obtain ⟨hnodup, hhere, hspot⟩ := hw.load_calls hs hdistinct fresh
    rw [refused] at hnodup hspot
    refine ⟨hnodup, fun c hc => ?_⟩
    rw [hspot c hc]
    exact ⟨ground_cons_iff.mpr (.inl hhere), by simp [Ground]⟩
  | emit due action read =>
    obtain ⟨hleads, _⟩ := hw.pieces_of_emit due action
    obtain ⟨hnodup, hhere, hspot⟩ := hw.matchOf_calls due action
    rw [read] at hnodup hspot
    refine ⟨hnodup, fun c hc => ?_⟩
    rw [hspot c hc]
    exact ⟨ground_cons_iff.mpr (.inl hhere), fun hlater => hw.before_of_due due hleads hlater rfl⟩
  | emitFailed due action refused =>
    obtain ⟨hnodup, hhere, hspot⟩ := hw.matchOf_calls due action
    rw [refused] at hnodup hspot
    refine ⟨hnodup, fun c hc => ?_⟩
    rw [hspot c hc]
    exact ⟨ground_cons_iff.mpr (.inl hhere), by simp [Ground]⟩

/-- **No call is made twice**, and all are made on the ground. -/
theorem nodup_calls (hs : s.ListsPlain) (hdistinct : s.ListsDistinct) {es : List WalkEvent}
    {log : List Call} (reached : Reaches s w es log v) (hw : Ordered (· ≠ ·) p o w) :
    log.Nodup ∧ ∀ c ∈ log, w.Ground c.spot := by
  induction reached using Reaches.head_induction_on with
  | refl => exact ⟨.nil, by simp⟩
  | @head w u event calls es log first _ ih =>
    obtain ⟨hu, hground⟩ := ordered_step hs (hdistinct.sorts_ne o) hw first
    obtain ⟨hnodup, hcalls⟩ := calls_step hs hdistinct hw first
    obtain ⟨hnodup', hlog⟩ := ih hu
    refine ⟨List.nodup_append.mpr ⟨hnodup, hnodup', fun c hc c' hc' heq => ?_⟩,
      List.forall_mem_append.mpr ⟨fun c hc => (hcalls c hc).1, fun c hc => hground _ (hlog c hc)⟩⟩
    exact (hcalls c hc).2 (heq ▸ hlog c' hc')

end Walker

/-! ## What calls are justified by -/

/-- **What justifies a call** after the calls `before`. A directory that is listed is the
root, or has been statted as a directory; an entry that is statted has been listed in its
directory; a file that is read has been statted, and is no directory. -/
def Justified (s : Store) (before : List Call) : Call → Prop
  | .list dir => dir = .root ∨ .stat dir ∈ before ∧ ∃ m, s (.stat dir) = .ok m ∧ m.isDir = true
  | .stat path => ∃ dir name names, path = dir.entry name ∧ .list dir ∈ before ∧
      s (.list dir) = .ok names ∧ name ∈ names
  | .read path => .stat path ∈ before ∧ ∃ m, s (.stat path) = .ok m ∧ m.isDir = false

/-- More calls before justify no less. -/
theorem Justified.append {s : Store} {before : List Call} {c : Call} (h : Justified s before c)
    (more : List Call) : Justified s (before ++ more) c := by
  cases c with
  | list dir => exact h.imp_right fun h => ⟨List.mem_append_left more h.1, h.2⟩
  | stat path =>
    obtain ⟨dir, name, names, hpath, hlisted, hnames⟩ := h
    exact ⟨dir, name, names, hpath, List.mem_append_left more hlisted, hnames⟩
  | read path => exact ⟨List.mem_append_left more h.1, h.2⟩

/-- **A log without needless calls**: each is justified by those before it. -/
inductive Founded (s : Store) : List Call → Prop
  | nil : Founded s []
  | concat {log : List Call} {c : Call} (before : Founded s log) (justified : Justified s log c) :
      Founded s (log ++ [c])

namespace Founded

variable {s : Store} {log : List Call}

/-- Calls that are all justified may be made one after the other. -/
theorem append (h : Founded s log) {calls : List Call}
    (justified : ∀ c ∈ calls, Justified s log c) : Founded s (log ++ calls) := by
  induction calls generalizing log with
  | nil => rwa [List.append_nil]
  | cons c calls ih =>
    obtain ⟨hc, hcalls⟩ := List.forall_mem_cons.mp justified
    rw [List.append_cons]
    exact ih (h.concat hc) fun c' hc' => (hcalls c' hc').append [c]

/-- Each call of the log is justified. -/
theorem justified (h : Founded s log) {before after : List Call} {c : Call}
    (hlog : log = before ++ c :: after) : Justified s before c := by
  induction h generalizing after with
  | nil => exact absurd hlog.symm (by simp)
  | @concat log c' _ hlast ih =>
    rcases List.eq_nil_or_concat after with rfl | ⟨init, last, rfl⟩
    · obtain ⟨rfl, hc⟩ := List.append_inj' hlog rfl
      obtain rfl := List.singleton_inj.mp hc
      exact hlast
    · rw [List.concat_eq_append, ← List.cons_append, ← List.append_assoc] at hlog
      exact ih (List.append_inj' hlog rfl).1

end Founded

/-- **What a frame relies on** has been asked before: that its directory is one, and what
is known about the entries ahead. -/
structure Frame.Known (s : Store) (log : List Call) (f : Frame) : Prop where
  directory : Justified s log (.list f.directory)
  ahead : ∀ c ∈ f.cursor, ∀ e ∈ c.ahead,
    .stat (f.pathOf e) ∈ log ∧ s (.stat (f.pathOf e)) = .ok e.metadata

namespace Frame.Known

variable {s : Store} {log : List Call} {f g : Frame} {e : Entry} {spent ahead : List Entry}

theorem append (h : f.Known s log) (more : List Call) : f.Known s (log ++ more) :=
  ⟨h.directory.append more, fun c hc e he =>
    ⟨List.mem_append_left more (h.ahead c hc e he).1, (h.ahead c hc e he).2⟩⟩

/-- A loaded frame knows about its entries by the calls of loading. -/
theorem load (h : f.Known s log) {o : WalkOptions} {entries : List Entry} {calls : List Call}
    (loaded : (f.load o).run s = (.ok entries, calls)) :
    (f.moved ⟨[], entries⟩).Known s (log ++ calls) := by
  obtain ⟨names, known, _, _, hstats, rfl, rfl⟩ := run_load_ok loaded
  refine ⟨h.directory.append _, fun c hc e he => ?_⟩
  cases hc
  have hknown := WalkOptions.mem_arrange.mp he
  exact ⟨List.mem_append_right log
    (.tail _ (List.mem_map_of_mem (f := fun e => Call.stat (f.pathOf e)) hknown)), hstats e hknown⟩

theorem taken (h : f.Known s log) (due : f.cursor = some ⟨spent, e :: ahead⟩) :
    (f.moved ⟨e :: spent, ahead⟩).Known s log := by
  refine ⟨h.directory, fun c hc e' he' => ?_⟩
  cases hc
  exact h.ahead _ due e' (List.mem_cons_of_mem e he')

/-- An entered frame stands for a directory that has been statted. -/
theorem descend (h : f.Known s log) (due : f.cursor = some ⟨spent, e :: ahead⟩)
    (action : f.action e = .descend g) : g.Known s log := by
  obtain ⟨hasked, hstat⟩ := h.ahead _ due e List.mem_cons_self
  obtain ⟨hfresh, hdir⟩ := fresh_of_descend action
  refine ⟨.inr ?_, fun c hc => ?_⟩
  · rw [hdir]
    exact ⟨hasked, e.metadata, hstat, (descend_cases action).1⟩
  · rw [hfresh] at hc
    cases hc

/-- The calls of loading are justified, one after the other. -/
theorem founded_load (h : f.Known s log) (founded : Founded s log) {p : Pattern}
    {o : WalkOptions} {names : List String} (hf : f.Sound p o names) (hs : s.ListsPlain)
    (hdistinct : s.ListsDistinct) : Founded s (log ++ ((f.load o).run s).2) := by
  obtain ⟨asked, hcalls, _, hasked⟩ := hf.exists_calls_of_load hs hdistinct
  rw [hcalls, ← hf.directory, List.append_cons]
  refine (founded.concat h.directory).append fun c hc => ?_
  obtain ⟨n, hn, rfl⟩ := List.mem_map.mp hc
  obtain ⟨hplain, listed, hl, hmem⟩ := hasked n hn
  rw [← hf.directory] at hl
  refine ⟨f.directory, n, listed, ?_, by simp, hl, hmem⟩
  rw [hf.directory, Path.entry_ofNames hf.plain hplain]

/-- The call of looking at a file is justified. -/
theorem founded_matchOf (h : f.Known s log) (founded : Founded s log) (o : WalkOptions)
    (due : f.cursor = some ⟨spent, e :: ahead⟩) (action : f.action e = .emit) :
    Founded s (log ++ ((matchOf o (f.pathOf e) e).run s).2) := by
  refine founded.append fun c hc => ?_
  obtain ⟨hasked, hstat⟩ := h.ahead _ due e List.mem_cons_self
  obtain hnone | hone := calls_matchOf s o (f.pathOf e) e
  · rw [hnone] at hc
    cases hc
  · rw [hone] at hc
    obtain rfl := List.mem_singleton.mp hc
    exact ⟨hasked, e.metadata, hstat, (action_emit_iff.mp action).1⟩

end Frame.Known

namespace Walker

variable {s : Store} {p : Pattern} {o : WalkOptions} {w v : Walker} {log : List Call}

/-- In the beginning there is only the root to rely on. -/
theorem known_start (s : Store) (p : Pattern) (o : WalkOptions) :
    ∀ f ∈ (start p o).stack, f.Known s [] := by
  refine List.forall_mem_singleton.mpr ⟨.inl (Frame.directory_enter _ _ _ _), fun c hc => ?_⟩
  rw [Frame.cursor_enter] at hc
  cases hc

/-- **A step makes no needless call**, and its frames go on knowing what they rely on. -/
theorem founded_step (hs : s.ListsPlain) (hdistinct : s.ListsDistinct) (sound : Sound p o w)
    (known : ∀ f ∈ w.stack, f.Known s log) (founded : Founded s log) {event : Option WalkEvent}
    {calls : List Call} (h : Step s w event calls v) :
    Founded s (log ++ calls) ∧ ∀ f ∈ v.stack, f.Known s (log ++ calls) := by
  obtain ⟨rfl, hstack⟩ := sound
  cases h with
  | rest ended => rw [List.append_nil]; exact ⟨founded, known⟩
  | finish => rw [List.append_nil]; exact ⟨founded, known⟩
  | pop spent =>
    rw [List.append_nil]
    exact ⟨founded, (List.forall_mem_cons.mp known).2⟩
  | skip due action =>
    obtain ⟨hf, hbelow⟩ := List.forall_mem_cons.mp known
    rw [List.append_nil]
    exact ⟨founded, List.forall_mem_cons.mpr ⟨hf.taken due, hbelow⟩⟩
  | descend due action =>
    obtain ⟨hf, hbelow⟩ := List.forall_mem_cons.mp known
    rw [List.append_nil]
    exact ⟨founded, List.forall_mem_cons.mpr ⟨hf.descend due action,
      List.forall_mem_cons.mpr ⟨hf.taken due, hbelow⟩⟩⟩
  | load fresh loaded =>
    obtain ⟨hf, hbelow⟩ := List.forall_mem_cons.mp known
    obtain ⟨⟨names, hsound⟩, _⟩ := List.forall_mem_cons.mp hstack
    have hfounded := hf.founded_load founded hsound hs hdistinct
    rw [loaded] at hfounded
    exact ⟨hfounded, List.forall_mem_cons.mpr ⟨hf.load loaded, fun g hg => (hbelow g hg).append _⟩⟩
  | loadFailed fresh refused =>
    obtain ⟨hf, _⟩ := List.forall_mem_cons.mp known
    obtain ⟨⟨names, hsound⟩, _⟩ := List.forall_mem_cons.mp hstack
    have hfounded := hf.founded_load founded hsound hs hdistinct
    rw [refused] at hfounded
    exact ⟨hfounded, by simp⟩
  | @emit _ o _ _ _ _ _ _ _ due action read =>
    obtain ⟨hf, hbelow⟩ := List.forall_mem_cons.mp known
    have hfounded := hf.founded_matchOf founded o due action
    rw [read] at hfounded
    exact ⟨hfounded, List.forall_mem_cons.mpr
      ⟨(hf.taken due).append _, fun g hg => (hbelow g hg).append _⟩⟩
  | @emitFailed _ o _ _ _ _ _ _ _ due action refused =>
    obtain ⟨hf, _⟩ := List.forall_mem_cons.mp known
    have hfounded := hf.founded_matchOf founded o due action
    rw [refused] at hfounded
    exact ⟨hfounded, by simp⟩

/-- **A run makes no needless call.** -/
theorem founded_of_reaches (hs : s.ListsPlain) (hdistinct : s.ListsDistinct)
    {es : List WalkEvent} {calls : List Call} (reached : Reaches s w es calls v)
    (sound : Sound p o w) (known : ∀ f ∈ w.stack, f.Known s log) (founded : Founded s log) :
    Founded s (log ++ calls) := by
  induction reached using Reaches.head_induction_on generalizing log with
  | refl => rwa [List.append_nil]
  | head first _ ih =>
    obtain ⟨hfounded, hknown⟩ := founded_step hs hdistinct sound known founded first
    rw [← List.append_assoc]
    exact ih (sound_step hs sound first).1 hknown hfounded

/-! ## Reading and reporting -/

/-- **A step that reads a file makes no other call**, and it reports the file if its
contents parse. -/
theorem Step.found_of_read {event : Option WalkEvent} {calls : List Call}
    (h : Step s w event calls v) {q : Path} (hq : .read q ∈ calls) :
    calls = [.read q] ∧ ∀ bytes value, s (.read q) = .ok bytes → Json.parse bytes = .ok value →
      ∃ m, event = some (.found ⟨q, m, some value⟩) := by
  cases h with
  | rest ended => cases hq
  | finish => cases hq
  | pop spent => cases hq
  | skip due action => cases hq
  | descend due action => cases hq
  | @load _ o f _ _ _ fresh loaded =>
    have hread := (f.only_load o).run s (.read q) (by rwa [loaded])
    cases hread
  | @loadFailed _ o f _ _ _ fresh refused =>
    have hread := (f.only_load o).run s (.read q) (by rwa [refused])
    cases hread
  | @emit _ _ _ _ _ _ e _ _ due action read =>
    obtain ⟨hcalls, hfound⟩ := run_matchOf_of_read read hq
    refine ⟨hcalls, fun bytes value hread hparse => ⟨e.metadata, ?_⟩⟩
    rw [Except.ok.inj (hfound bytes value hread hparse)]
    rfl
  | emitFailed due action refused =>
    obtain ⟨hcalls, hfound⟩ := run_matchOf_of_read refused hq
    refine ⟨hcalls, fun bytes value hread hparse => ?_⟩
    cases hfound bytes value hread hparse

/-- **Reading a file is a step of its own**: wherever a run has read it, the run falls into
what comes before this step and what comes after. -/
theorem Reaches.exists_step_of_read {es : List WalkEvent} (reached : Reaches s w es log v)
    {before after : List Call} {q : Path} (hlog : log = before ++ .read q :: after) :
    ∃ given event later u u', Reaches s w given before u ∧ Step s u event [.read q] u' ∧
      Reaches s u' later after v ∧ es = given ++ event.toList ++ later := by
  induction reached using Reaches.head_induction_on generalizing before with
  | refl => exact absurd hlog.symm (by simp)
  | @head w u event calls es log first rest ih =>
    rcases List.append_eq_append_iff.mp hlog with ⟨between, rfl, hlater⟩ | ⟨others, rfl, hlater⟩
    · obtain ⟨given, event', later, x, x', hgiven, hstep, hrest, rfl⟩ := ih hlater
      exact ⟨event.toList ++ given, event', later, x, x', hgiven.head first, hstep, hrest, by simp⟩
    · cases others with
      | nil =>
        -- the read is the first call of what comes later
        have hfirst : log = [] ++ .read q :: after := hlater.symm
        obtain ⟨given, event', later, x, x', hgiven, hstep, hrest, rfl⟩ := ih hfirst
        refine ⟨event.toList ++ given, event', later, x, x', ?_, hstep, hrest, by simp⟩
        simpa using hgiven.head first
      | cons c others =>
        obtain ⟨rfl, rfl⟩ := List.cons.inj hlater
        obtain ⟨hcalls, _⟩ := first.found_of_read (q := q) (by simp)
        obtain ⟨rfl, rfl⟩ : before = [] ∧ others = [] := by
          simpa [List.append_eq_singleton_iff] using hcalls
        exact ⟨[], event, es, w, u, .refl s w, first, rest, rfl⟩

/-- **Each path is touched at most once, and only with need.** On every store whose
listings repeat no name and give plain names, whatever fails on it, a walk lists, stats
and reads no path twice. A directory that it lists is the root, or has been statted as a
directory before; an entry that it stats has been named before by its directory; a file
that it reads has been statted before, as no directory. And a file that it reads, and
whose contents parse, is the very next event: the step that reads it reports it. -/
theorem touched_once (p : Pattern) (o : WalkOptions) (hs : s.ListsPlain)
    (hdistinct : s.ListsDistinct) {es : List WalkEvent} {log : List Call}
    (reached : Reaches s (start p o) es log w) :
    log.Nodup ∧ ∀ before c after, log = before ++ c :: after →
      Justified s before c ∧
        ∀ q bytes value, c = .read q → s (.read q) = .ok bytes → Json.parse bytes = .ok value →
          ∃ given m later u v, Reaches s (start p o) given before u ∧
            Step s u (some (.found ⟨q, m, some value⟩)) [.read q] v ∧
            Reaches s v later after w ∧ es = given ++ .found ⟨q, m, some value⟩ :: later := by
  have hfounded : Founded s log :=
    founded_of_reaches hs hdistinct reached (sound_start p o) (known_start s p o) .nil
  refine ⟨(nodup_calls hs hdistinct reached (ordered_start _ p o)).1,
    fun before c after hlog => ⟨hfounded.justified hlog, ?_⟩⟩
  rintro q bytes value rfl hread hparse
  obtain ⟨given, event, later, u, v, hgiven, hstep, hlater, rfl⟩ :=
    reached.exists_step_of_read hlog
  obtain ⟨m, rfl⟩ := (hstep.found_of_read (List.mem_singleton_self _)).2 bytes value hread hparse
  exact ⟨given, m, later, u, v, hgiven, hstep, hlater, by simp⟩

end Walker

/-- A tree with a file that can be read and parsed, and one that cannot be read. -/
def Memory.halfReadable : Memory :=
  ofNodes
    [ { path := ⟨"a/x.json"⟩, attributes := { data := [110, 117, 108, 108] } },
      { path := ⟨"b.json"⟩, attributes := { readFault := some .io } } ]

/-- The contents of the first file are `null`, and it is reported when it has been read. The
walk then fails at the other one. -/
theorem Walker.touched_once_halfReadable :
    Memory.halfReadable.store.ListsPlain ∧ Memory.halfReadable.store.ListsDistinct ∧
      ∃ es log w, Reaches Memory.halfReadable.store
          (start ⟨.globstar, [.wildcard "*.json"]⟩ { mode := .content }) es log w ∧
        log = [.list ⟨""⟩, .stat ⟨"a"⟩, .stat ⟨"b.json"⟩, .list ⟨"a"⟩, .stat ⟨"a/x.json"⟩,
          .read ⟨"a/x.json"⟩, .read ⟨"b.json"⟩] ∧
        log.Nodup ∧ ∃ m, .found ⟨⟨"a/x.json"⟩, m, some .null⟩ ∈ es := by
  have hplain := Memory.listsPlain_store (show Memory.halfReadable.isPlain = true from by decide)
  have hdistinct := Memory.listsDistinct_store
    (show ∀ a ∈ Memory.halfReadable.entries, a.2.names.Nodup from by decide)
  have hreached := Reaches.of_events Memory.halfReadable.store 8 3
    (start ⟨.globstar, [.wildcard "*.json"]⟩ { mode := .content })
  have hlog : (((start ⟨.globstar, [.wildcard "*.json"]⟩ { mode := .content }).events 8 3).run
      Memory.halfReadable.store).2 = [.list ⟨""⟩, .stat ⟨"a"⟩, .stat ⟨"b.json"⟩, .list ⟨"a"⟩,
        .stat ⟨"a/x.json"⟩] ++ .read ⟨"a/x.json"⟩ :: [.read ⟨"b.json"⟩] := by decide +kernel
  have hparse : Json.parse [110, 117, 108, 108] = .ok .null := by
    simp [Json.parse, Json.readDocument, Json.maxDepth, Json.readValue, Json.readValueWith,
      Json.skipBlanks, Json.isBlank, Json.readIdent, Except.mapError]
    rfl
  obtain ⟨hnodup, hcalls⟩ := touched_once _ _ hplain hdistinct hreached
  obtain ⟨given, m, later, u, v, _, _, _, hes⟩ :=
    (hcalls _ _ _ hlog).2 _ [110, 117, 108, 108] .null rfl (by decide +kernel) hparse
  refine ⟨hplain, hdistinct, _, _, _, hreached, hlog, hnodup, m, ?_⟩
  rw [hes]
  exact List.mem_append_right given List.mem_cons_self

end TreeQuery
