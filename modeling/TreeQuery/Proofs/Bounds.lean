import TreeQuery.Command.Run
import TreeQuery.Proofs.Consumers
import TreeQuery.Proofs.Once
import TreeQuery.Proofs.Places

/-!
# The bounds below a root are never reached

What is printed comes from a selection that is let run for so many turns and asked for so
many events, and these numbers are known before the walk begins. They would cut a walk short
if they were too small. They are not: a call to the system takes no path of more than
`Disk.maxPath` bytes, and each name of a path needs two of them, so directories below a root
nest at most `Disk.levels` deep. How many steps a walk takes at most is known from there
(`visitBound`), a step makes at most one call for each entry of a directory and one more, and
it gives at most one event.

So the events of the selection, with a pause after every match, are all the events of the
walk (`Records.exists_steps_eventsOf`).
-/

namespace TreeQuery

/-! ## How long paths are -/

/-- Each name of a path takes at least two bytes, of which one is the slash before the next
name. -/
theorem length_le_utf8ByteSize_intercalate {names : List String} (h : ∀ n ∈ names, PlainName n) :
    2 * names.length ≤ (String.intercalate "/" names).utf8ByteSize + 1 := by
  induction names with
  | nil => exact Nat.zero_le _
  | cons n names ih =>
    obtain ⟨hn, hnames⟩ := List.forall_mem_cons.mp h
    have hbyte : 0 < n.utf8ByteSize :=
      Nat.pos_of_ne_zero fun hzero => hn.ne_empty (String.utf8ByteSize_eq_zero_iff.mp hzero)
    by_cases hne : names = []
    · rw [hne, String.intercalate_singleton, List.length_singleton]
      omega
    · have hslash : ("/" : String).utf8ByteSize = 1 := by decide
      have hrest := ih hnames
      rw [String.intercalate_cons_of_ne_nil hne, String.utf8ByteSize_append,
        String.utf8ByteSize_append, hslash, List.length_cons]
      omega

/-- What is joined to a path is not longer than the whole. -/
theorem Path.utf8ByteSize_le_join {p child : Path} (relative : child.isAbsolute = false) :
    child.text.utf8ByteSize ≤ (p.join child).text.utf8ByteSize := by
  rw [join_of_relative relative, String.utf8ByteSize_append]
  exact Nat.le_add_left _ _

namespace Records

variable {r : Records}

/-- **Paths below a root have few names**, since they have few bytes. -/
theorem length_names_le_levels {names : List String} {m : Metadata}
    (hnames : ∀ n ∈ names, PlainName n) (h : r.store (.stat (.ofNames names)) = .ok m) :
    names.length ≤ Disk.levels := by
  obtain ⟨_, there, hlocate⟩ := exists_locate_of_stat h
  have hrelative := Path.isAbsolute_ofNames hnames
  rw [Path.fromTop_of_relative hrelative] at hlocate
  have hshort := (Disk.locate_eq_ok_iff.mp hlocate).1.short
  have hlonger := Path.utf8ByteSize_le_join (p := r.root) hrelative
  have hbytes : 2 * names.length ≤ (Path.ofNames names).text.utf8ByteSize + 1 :=
    length_le_utf8ByteSize_intercalate hnames
  show names.length ≤ Disk.maxPath / 2 + 1
  omega

/-- **Directories below a root nest finitely deep**, however the links of the disk go. -/
theorem nestsWithin_store (hd : r.disk.Proper) : r.store.NestsWithin Disk.levels .root :=
  Store.nestsWithin_of_length_le (listsPlain_store hd) fun _ _ hnames hstat _ =>
    length_names_le_levels hnames hstat

end Records

/-! ## What steps cost -/

namespace Walker

variable {s : Store} {w v : Walker} {width : Nat}
  (narrow : ∀ dir names, s (.list dir) = .ok names → names.length ≤ width)

include narrow

/-- A step makes a call for each entry of a directory at most, and one more. -/
theorem Step.length_calls_le {event : Option WalkEvent} {calls : List Call}
    (h : Step s w event calls v) : calls.length ≤ width + 1 := by
  have hload : ∀ (f : Frame) (o : WalkOptions), ((f.load o).run s).2.length ≤ width + 1 := by
    intro f o
    cases hl : s (.list f.directory) with
    | error e =>
      rw [Frame.run_load_of_refused hl]
      exact Nat.le_add_left 1 width
    | ok names =>
      obtain ⟨asked, hasked, hcalls⟩ :=
        exists_calls_of_statAll s f.directory (names.filter (f.keeps o))
      rw [Frame.run_load_of_listed hl, hcalls, List.length_cons, List.length_map]
      have hkept := (hasked.sublist.trans List.filter_sublist).length_le
      exact Nat.succ_le_succ (Nat.le_trans hkept (narrow _ _ hl))
  have hlook : ∀ (o : WalkOptions) (path : Path) (e : Entry),
      ((matchOf o path e).run s).2.length ≤ width + 1 := by
    intro o path e
    rcases calls_matchOf s o path e with hnone | hone
    · rw [hnone]
      exact Nat.zero_le _
    · rw [hone]
      exact Nat.le_add_left 1 width
  cases h with
  | rest | finish | pop | skip | descend => exact Nat.zero_le _
  | @load _ o f _ _ _ _ loaded => simpa only [loaded] using hload f o
  | @loadFailed _ o f _ _ _ _ refused => simpa only [refused] using hload f o
  | @emit _ o f _ _ _ e _ _ _ _ read => simpa only [read] using hlook o (f.pathOf e) e
  | @emitFailed _ o f _ _ _ e _ _ _ _ refused => simpa only [refused] using hlook o (f.pathOf e) e

/-- **Steps give no more events and make no more calls** than so many. -/
theorem length_steps_le (n : Nat) (w : Walker) :
    ((w.steps n).run s).1.2.length ≤ n ∧ ((w.steps n).run s).2.length ≤ n * (width + 1) := by
  induction n generalizing w with
  | zero => exact ⟨Nat.le_refl _, Nat.zero_le _⟩
  | succ n ih =>
    obtain ⟨event, calls, v, hstep⟩ := exists_step s w
    obtain ⟨hevents, hcalls⟩ := ih v
    have hevent : event.toList.length ≤ 1 := by cases event <;> simp
    have hfirst := hstep.length_calls_le narrow
    rw [run_steps_succ hstep, List.length_append, List.length_append, Nat.succ_mul]
    exact ⟨by omega, by omega⟩

end Walker

namespace Records

variable {r : Records}

/-- **A selection below a root gives the whole walk**: the events that come of it, with a
pause after every match, are those of the steps to the end of the walk. -/
theorem exists_steps_eventsOf (hd : r.disk.Proper) (p : Pattern) (o : WalkOptions) :
    ∃ n v log, ((Walker.start p o).steps n).run r.store
        = ((v, r.eventsOf (.start p o)), log) ∧ v.halted = true := by
  have narrow : ∀ dir names, r.store (.list dir) = .ok names → names.length ≤ r.disk.width :=
    fun dir names => length_le_of_list
  have hroot : r.store.NestsWithin Disk.levels
      (Frame.enter .root false p.first p.rest).directory := by
    rw [Frame.directory_enter]
    exact nestsWithin_store hd
  have hends := Walker.endsWithin_start
    (Frame.lasts_visitBound (p := p) (o := o) (Frame.cursor_enter _ _ _ _) narrow hroot)
  obtain ⟨hevents, hcalls⟩ :=
    Walker.length_steps_le narrow (visitBound r.disk.width Disk.levels + 1) (.start p o)
  have hbound := visitBound_add_one_lt_walkBound r.disk.width Disk.levels
  unfold Walker.EndsWithin at hends
  generalize visitBound r.disk.width Disk.levels + 1 = n at hends hevents hcalls hbound
  generalize hrun : ((Walker.start p o).steps n).run r.store = outcome
    at hends hevents hcalls
  obtain ⟨⟨v, es⟩, log⟩ := outcome
  dsimp only at hends hevents hcalls
  have hclear : Selection.Unhindered r.store (fun _ => none) (.start p o) log
      (.start (.start p o)) [] :=
    ⟨Selection.live_start _ _, Selection.balanced_start _, rfl, by simp⟩
  have hturns : 4 * n + log.length + 3 ≤ r.turns := add_three_le_turnBound hbound hcalls
  have hcount : es.length ≤ r.bound := Nat.le_trans hevents (Nat.le_of_lt hbound)
  have hall := (hclear.events_eq hrun hends (List.nil_append es).symm hturns hcount true).1
  exact ⟨n, v, log, by rw [hrun, eventsOf, hall], hends⟩

end Records

end TreeQuery
