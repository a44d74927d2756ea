import TreeQuery.Proofs.Soundness
import TreeQuery.Proofs.Contents
import TreeQuery.Proofs.Acceptance

/-!
# What is ignored cannot be seen

An ignored name is dropped from a listing before anything is asked about it, and no
path with such a name is ever asked about. So whatever stands under ignored names – it
may be there or not, change, or fail every call – a walk is the same: two stores that
agree outside of what is ignored (`Store.AgreeOutside`) are walked in the same steps.

The paths that a walk asks about are *visible* (`Path.Visible`). That they are is what
soundness says of the frames on the stack, and so one step on the one store is the same
step on the other (`Walker.Step.of_agree`); the rest is induction on the number of steps,
or of commands.
-/

namespace TreeQuery

/-- **A visible path** spells plain names, none of which is ignored. -/
def Path.Visible (ignore : String → Bool) (path : Path) : Prop :=
  ∃ names, path = .ofNames names ∧ ∀ n ∈ names, PlainName n ∧ ignore n = false

/-- **Two stores agree outside of what is ignored**: visible paths are statted and read
alike, and listed alike but for ignored names. What else they answer may differ. -/
structure Store.AgreeOutside (ignore : String → Bool) (s s' : Store) : Prop where
  stat : ∀ path, path.Visible ignore → s' (.stat path) = s (.stat path)
  read : ∀ path, path.Visible ignore → s' (.read path) = s (.read path)
  list : ∀ path, path.Visible ignore →
    (s' (.list path)).map (·.filter fun n => !ignore n)
      = (s (.list path)).map (·.filter fun n => !ignore n)

/-- A call about a visible path, other than one that lists it. -/
def Call.Within (ignore : String → Bool) (c : Call) : Prop :=
  (∀ path, c ≠ .list path) ∧ c.path.Visible ignore

/-- These calls are answered alike by stores that agree. -/
theorem Store.AgreeOutside.answer {ignore : String → Bool} {s s' : Store}
    (h : s.AgreeOutside ignore s') {c : Call} (hc : c.Within ignore) : s' c = s c := by
  obtain ⟨hlist, hpath⟩ := hc
  cases c with
  | list path => exact absurd rfl (hlist path)
  | stat path => exact h.stat path hpath
  | read path => exact h.read path hpath

/-- No visible path is an ignored name. -/
theorem Path.Visible.ne_of_ignored {ignore : String → Bool} {path : Path}
    (h : path.Visible ignore) {name : String} (hname : PlainName name)
    (ignored : ignore name = true) : path ≠ ⟨name⟩ := by
  obtain ⟨names, rfl, hnames⟩ := h
  intro hpath
  have hne : names ≠ [] := by
    rintro rfl
    rw [Path.ofNames_nil] at hpath
    exact hname.ne_empty (congrArg Path.text hpath).symm
  have hone : Path.ofNames names = .ofNames [name] := by
    rw [hpath, Path.ofNames, String.intercalate_singleton]
  obtain rfl := Path.ofNames_inj (fun n hn => (hnames n hn).1)
    (List.forall_mem_singleton.mpr hname) hne (List.cons_ne_nil _ _) hone
  exact Bool.noConfusion (ignored.symm.trans (hnames name (List.mem_singleton_self name)).2)

/-- The store with one more name at its root, at which every call fails. -/
def Store.cluttered (s : Store) (name : String) : Store
  | .list path =>
    if path = ⟨name⟩ then .error (AccessError.io name).atOnce
    else if path = .root then (s (.list path)).map (name :: ·)
    else s (.list path)
  | .stat path => if path = ⟨name⟩ then .error (AccessError.io name).atOnce else s (.stat path)
  | .read path => if path = ⟨name⟩ then .error (AccessError.io name).atOnce else s (.read path)

/-- If that name is ignored, nothing has changed outside of what is. -/
theorem Store.agreeOutside_cluttered (s : Store) {ignore : String → Bool} {name : String}
    (hname : PlainName name) (ignored : ignore name = true) :
    s.AgreeOutside ignore (s.cluttered name) := by
  refine ⟨fun path h => if_neg (h.ne_of_ignored hname ignored),
    fun path h => if_neg (h.ne_of_ignored hname ignored), fun path h => ?_⟩
  rw [cluttered, if_neg (h.ne_of_ignored hname ignored)]
  split
  · cases s (.list path) with
    | error e => rfl
    | ok listed => simp [Except.map, ignored]
  · rfl

namespace Frame

variable {s s' : Store} {p : Pattern} {o : WalkOptions} {f : Frame} {names : List String}

/-- The directory of a frame on its way is visible. -/
theorem Sound.visible (h : f.Sound p o names) : f.directory.Visible o.ignore :=
  ⟨names, h.directory, fun n hn => ⟨h.plain n hn, h.kept n hn⟩⟩

/-- So is the path of an entry that is looked at. -/
theorem Sound.visible_entry (h : f.Sound p o names) {e : Entry} (hplain : PlainName e.name)
    (hkeeps : f.keeps o e.name = true) : (f.pathOf e).Visible o.ignore := by
  obtain ⟨hpath, hnames, hkept⟩ := h.entry hplain hkeeps
  exact ⟨_, hpath, fun n hn => ⟨hnames n hn, hkept n hn⟩⟩

/-- Ignored names in a listing do not matter. -/
theorem filter_keeps_eq {listed listed' : List String}
    (h : listed'.filter (fun n => !o.ignore n) = listed.filter fun n => !o.ignore n) :
    listed'.filter (f.keeps o) = listed.filter (f.keeps o) := by
  have hkeeps : ∀ l : List String, l.filter (f.keeps o) =
      (l.filter fun n => !o.ignore n).filter fun n => f.recursive || f.segment.accepts n := by
    intro l
    rw [List.filter_filter]
    exact List.filter_congr fun n _ => Bool.and_comm _ _
  rw [hkeeps, hkeeps, h]

/-- Looking at an entry makes no call but the one that reads its file. -/
theorem only_matchOf {P : Call → Prop} {e : Entry} (h : P (.read (f.pathOf e))) :
    (matchOf o (f.pathOf e) e).Only P := by
  cases hmode : o.mode with
  | stats =>
    rw [f.matchOf_stats hmode]
    exact .done _
  | content =>
    have hsame : { o with mode := .content } = o := by rw [← hmode]
    rw [← hsame, f.matchOf_content]
    exact Match.only_filled h

/-- **A frame is loaded alike** on stores that agree, with visible calls only. -/
theorem Sound.load_of_agree (h : f.Sound p o names) (plain : s.ListsPlain)
    (agree : s.AgreeOutside o.ignore s') :
    (f.load o).run s' = (f.load o).run s ∧
      ∀ c ∈ ((f.load o).run s).2, c.path.Visible o.ignore := by
  have hlists := agree.list f.directory h.visible
  cases hl : s (.list f.directory) with
  | error e =>
    cases hl' : s' (.list f.directory) with
    | error e' =>
      rw [hl, hl'] at hlists
      cases hlists
      rw [run_load_of_refused hl, run_load_of_refused hl']
      exact ⟨rfl, List.forall_mem_singleton.mpr h.visible⟩
    | ok listed' => 
      rw [hl, hl'] at hlists
      cases hlists
  | ok listed =>
    cases hl' : s' (.list f.directory) with
    | error e' =>
      rw [hl, hl'] at hlists
      cases hlists
    | ok listed' =>
      rw [hl, hl'] at hlists
      have hkept : listed'.filter (f.keeps o) = listed.filter (f.keeps o) :=
        filter_keeps_eq (Except.ok.inj hlists)
      have hstats : (statAll f.directory (listed.filter (f.keeps o))).Only (·.Within o.ignore) := by
        refine only_statAll fun n hn => ⟨by simp, ?_⟩
        obtain ⟨hmem, hkeeps⟩ := List.mem_filter.mp hn
        exact h.visible_entry (e := ⟨n, default⟩) (plain _ _ hl n hmem) hkeeps
      rw [run_load_of_listed hl, run_load_of_listed hl', hkept,
        hstats.run_congr fun c hc => agree.answer hc]
      exact ⟨rfl, List.forall_mem_cons.mpr ⟨h.visible, fun c hc => (hstats.run s c hc).2⟩⟩

/-- **A match is looked at alike** on stores that agree, by a visible call if by any. -/
theorem Sound.matchOf_of_agree (h : f.Sound p o names) (agree : s.AgreeOutside o.ignore s')
    {e : Entry} {taken ahead : List Entry} (due : f.cursor = some ⟨taken, e :: ahead⟩) :
    (matchOf o (f.pathOf e) e).run s' = (matchOf o (f.pathOf e) e).run s ∧
      ∀ c ∈ ((matchOf o (f.pathOf e) e).run s).2, c.path.Visible o.ignore := by
  obtain ⟨hplain, hkeeps⟩ := h.ahead _ due e List.mem_cons_self
  have hread : (matchOf o (f.pathOf e) e).Only (·.Within o.ignore) :=
    only_matchOf ⟨by simp, h.visible_entry hplain hkeeps⟩
  exact ⟨hread.run_congr fun c hc => agree.answer hc, fun c hc => (hread.run s c hc).2⟩

end Frame

namespace Walker

variable {s s' : Store} {p : Pattern} {o : WalkOptions} {w v : Walker}

/-- **A step on one store is a step on every store that agrees**, with visible calls
only. -/
theorem Step.of_agree {event : Option WalkEvent} {calls : List Call} (h : Step s w event calls v)
    (sound : Sound p o w) (plain : s.ListsPlain) (agree : s.AgreeOutside o.ignore s') :
    Step s' w event calls v ∧ ∀ c ∈ calls, c.path.Visible o.ignore := by
  obtain ⟨rfl, hstack⟩ := sound
  cases h with
  | rest ended => exact ⟨.rest ended, by simp⟩
  | finish => exact ⟨.finish, by simp⟩
  | pop spent => exact ⟨.pop spent, by simp⟩
  | skip due action => exact ⟨.skip due action, by simp⟩
  | descend due action => exact ⟨.descend due action, by simp⟩
  | load fresh loaded =>
    obtain ⟨names, hf⟩ := hstack _ List.mem_cons_self
    obtain ⟨hsame, hvisible⟩ := hf.load_of_agree plain agree
    rw [loaded] at hsame hvisible
    exact ⟨.load fresh hsame, hvisible⟩
  | loadFailed fresh refused =>
    obtain ⟨names, hf⟩ := hstack _ List.mem_cons_self
    obtain ⟨hsame, hvisible⟩ := hf.load_of_agree plain agree
    rw [refused] at hsame hvisible
    exact ⟨.loadFailed fresh hsame, hvisible⟩
  | emit due action read =>
    obtain ⟨names, hf⟩ := hstack _ List.mem_cons_self
    obtain ⟨hsame, hvisible⟩ := hf.matchOf_of_agree agree due
    rw [read] at hsame hvisible
    exact ⟨.emit due action hsame, hvisible⟩
  | emitFailed due action refused =>
    obtain ⟨names, hf⟩ := hstack _ List.mem_cons_self
    obtain ⟨hsame, hvisible⟩ := hf.matchOf_of_agree agree due
    rw [refused] at hsame hvisible
    exact ⟨.emitFailed due action hsame, hvisible⟩

/-- **Steps on one store are steps on every store that agrees.** -/
theorem run_steps_of_agree (sound : Sound p o w) (plain : s.ListsPlain)
    (agree : s.AgreeOutside o.ignore s') (n : Nat) :
    (w.steps n).run s' = (w.steps n).run s ∧
      ∀ c ∈ ((w.steps n).run s).2, c.path.Visible o.ignore := by
  induction n generalizing w with
  | zero => exact ⟨rfl, by simp⟩
  | succ n ih =>
    obtain ⟨event, calls, v, hstep⟩ := exists_step s w
    obtain ⟨hstep', hvisible⟩ := hstep.of_agree sound plain agree
    obtain ⟨hrest, hrestVisible⟩ := ih (sound_step plain sound hstep).1
    rw [run_steps_succ hstep, run_steps_succ hstep', hrest]
    exact ⟨rfl, List.forall_mem_append.mpr ⟨hvisible, hrestVisible⟩⟩

/-- Waiting for an event is the same on stores that agree. -/
theorem run_next_of_agree (sound : Sound p o w) (plain : s.ListsPlain)
    (agree : s.AgreeOutside o.ignore s') (bound : Nat) :
    (w.next bound).run s' = (w.next bound).run s := by
  induction bound generalizing w with
  | zero => rfl
  | succ bound ih =>
    cases hw : w.halted with
    | true => rw [next_of_halted hw, Access.pure_eq_done, Access.run_done, Access.run_done]
    | false =>
      obtain ⟨event, calls, v, hstep⟩ := exists_step s w
      obtain ⟨hstep', _⟩ := hstep.of_agree sound plain agree
      cases event with
      | none =>
        rw [run_next_of_silent hw hstep, run_next_of_silent hw hstep',
          ih (sound_step plain sound hstep).1]
      | some e => rw [run_next_of_event hstep, run_next_of_event hstep']

/-- So is asking for events. -/
theorem run_events_of_agree (sound : Sound p o w) (plain : s.ListsPlain)
    (agree : s.AgreeOutside o.ignore s') (bound count : Nat) :
    (w.events bound count).run s' = (w.events bound count).run s := by
  induction count generalizing w with
  | zero => rfl
  | succ count ih =>
    have hnext := run_next_of_agree sound plain agree bound
    have hsound : Sound p o ((w.next bound).run s).1.1 :=
      ((Reaches.of_next s bound w).induct sound fun hv h => sound_step plain hv h).1
    match h : (w.next bound).run s with
    | ((v, none), calls) =>
      rw [h] at hnext
      rw [run_events_succ_none h, run_events_succ_none hnext]
    | ((v, some e), calls) =>
      rw [h] at hnext hsound
      rw [run_events_succ_some h, run_events_succ_some hnext, ih hsound]

/-- **What is ignored cannot be seen.** Let two stores agree outside of what is ignored,
and one of them list plain names. Then a walk for any pattern takes the same steps on
both: step by step and asked for events, it comes to the same walker with the same events
and by the same calls. None of these calls, on either store, is about a path with an
ignored name. -/
theorem ignored_is_invisible (p : Pattern) (o : WalkOptions) (plain : s.ListsPlain)
    (agree : s.AgreeOutside o.ignore s') :
    (∀ n, ((start p o).steps n).run s' = ((start p o).steps n).run s) ∧
      (∀ bound count,
        ((start p o).events bound count).run s' = ((start p o).events bound count).run s) ∧
      ∀ {es log w}, Reaches s (start p o) es log w ∨ Reaches s' (start p o) es log w →
        ∀ c ∈ log, c.path.Visible o.ignore := by
  have hsteps := run_steps_of_agree (sound_start p o) plain agree
  refine ⟨fun n => (hsteps n).1, run_events_of_agree (sound_start p o) plain agree, ?_⟩
  rintro es log w (⟨n, hn⟩ | ⟨n, hn⟩)
  · have hvisible := (hsteps n).2
    rwa [hn] at hvisible
  · obtain ⟨hsame, hvisible⟩ := hsteps n
    rwa [← hsame, hn] at hvisible

/-- A dotfile at the root that is listed among the others and fails every call. The three
records of the tree are found all the same. -/
theorem ignored_is_invisible_cluttered :
    let p : Pattern := ⟨.globstar, [.wildcard "*.json"]⟩
    let s := Memory.nested.store
    let s' := s.cluttered ".git"
    s.ListsPlain ∧ s.AgreeOutside isDotfile s' ∧ s' (.list .root) ≠ s (.list .root) ∧
      s' (.stat ⟨".git"⟩) ≠ s (.stat ⟨".git"⟩) ∧
      (∀ bound count,
        ((start p {}).events bound count).run s' = ((start p {}).events bound count).run s) ∧
      ∃ files : List Match,
        files.map Match.path = [⟨"data/3.json"⟩, ⟨"data/data/4.json"⟩, ⟨"x/data/1.json"⟩] ∧
        ∃ enough, ∀ bound count, enough ≤ bound → enough ≤ count →
          (((start p {}).events bound count).run s').1.2 = files.map .found ++ [.finished] := by
  intro p s s'
  have hparse : Pattern.parse "**/*.json" = .ok p := by decide
  have hplain : s.ListsPlain := Memory.listsPlain_store (by decide)
  have hdeep := Memory.nestsWithin_store (show Memory.nested.isPlain = true from by decide)
  have hagree : s.AgreeOutside isDotfile s' := s.agreeOutside_cluttered (by decide) (by decide)
  have hsame := (ignored_is_invisible p {} hplain hagree).2.1
  obtain ⟨enough, hevents⟩ := exists_events_of_complete (o := {}) (Pattern.normal_of_parse hparse)
    hdeep (Option.isNone_iff_eq_none.mp (by decide +kernel))
  refine ⟨hplain, hagree, by decide +kernel, by decide +kernel, hsame, _, ?_, enough,
    fun bound count hb hc => by rw [hsame, hevents bound count hb hc]⟩
  decide +kernel

end Walker

end TreeQuery
