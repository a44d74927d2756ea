import TreeQuery.Proofs.Refinement
import TreeQuery.Walk.Bound

/-!
# Walks end

A step may put a frame on the stack with any number of entries ahead, and inside of a
`**` the new frame has as many segments left as the one below. What goes down on the
way is how deep directories still nest: where a store reports directories only at paths
of so many names, this many levels are left at the root and one fewer in each directory.

How long a frame lasts is said without looking at what stands below it
(`Frame.Lasts`), and the durations add up: that of a frame is one step that loads it,
for each entry one step and the duration of what is entered there, and one step that
drops the frame. By induction on the levels every frame lasts boundedly long. Where
listings are no longer than `width` the sum is `visitBound`, and so the bounds of
`TreeQuery.Walk.Bound` are never reached.
-/

namespace TreeQuery

/-- **Directories nest no deeper than they are reported**: where only paths of at most
`d` names are those of directories, there are at most so many levels. -/
theorem Store.nestsWithin_of_length_le {s : Store} (plain : s.ListsPlain) {d : Nat}
    (deep : ∀ names m, (∀ n ∈ names, PlainName n) → s (.stat (.ofNames names)) = .ok m →
      m.isDir = true → names.length ≤ d) : s.NestsWithin d .root := by
  suffices hlevels : ∀ levels names, (∀ n ∈ names, PlainName n) → d ≤ names.length + levels →
      s.NestsWithin levels (.ofNames names) by
    have hroot := hlevels d [] (by simp) (Nat.le_add_left _ _)
    rwa [Path.ofNames_nil] at hroot
  intro levels
  induction levels with
  | zero =>
    intro names hnames hd name m hentry
    have hname := plain.hasEntry hentry
    obtain ⟨_, _, _, hstat⟩ := hentry
    rw [Path.entry_ofNames hnames hname] at hstat
    have hall : ∀ n ∈ names ++ [name], PlainName n :=
      List.forall_mem_append.mpr ⟨hnames, List.forall_mem_singleton.mpr hname⟩
    refine Bool.eq_false_iff.mpr fun hdir => ?_
    have hlength := deep _ m hall hstat hdir
    rw [List.length_append, List.length_singleton] at hlength
    omega
  | succ levels ih =>
    intro names hnames hd name m hentry _
    have hname := plain.hasEntry hentry
    rw [Path.entry_ofNames hnames hname]
    refine ih _ (List.forall_mem_append.mpr ⟨hnames, List.forall_mem_singleton.mpr hname⟩) ?_
    rw [List.length_append, List.length_singleton]
    omega

/-- In a tree in memory whose paths have at most `d` pieces, names that spell something
are at most so many. -/
theorem Memory.length_names_le_of_stat {t : Memory} {d : Nat} {names : List String} {m : Metadata}
    (h : ∀ a ∈ t.entries, a.1.pieces.length ≤ d) (hnames : ∀ n ∈ names, PlainName n)
    (hstat : t.store (.stat (.ofNames names)) = .ok m) : names.length ≤ d := by
  by_cases hne : names = []
  · rw [hne]
    exact Nat.zero_le d
  · simp only [store] at hstat
    cases hf : t.find? (.ofNames names) with
    | none => simp [hf] at hstat
    | some e =>
      have hpieces := h _ (mem_entries_of_find? hf)
      rwa [Path.pieces_ofNames hne hnames] at hpieces

namespace Walker

/-- **The walk ends within so many steps.** -/
def EndsWithin (s : Store) (n : Nat) (w : Walker) : Prop :=
  ((w.steps n).run s).1.1.halted = true

namespace EndsWithin

variable {s : Store} {w v : Walker} {n : Nat}

/-- A walk that has ended takes no steps to end. -/
theorem of_halted (h : w.halted = true) (n : Nat) : EndsWithin s n w := by
  rw [EndsWithin, run_steps_of_halted h]
  exact h

/-- One step more for the step that leads there. -/
theorem step {event : Option WalkEvent} {calls : List Call} (h : EndsWithin s n v)
    (first : Step s w event calls v) : EndsWithin s (n + 1) w := by
  rw [EndsWithin, run_steps_succ first]
  exact h

/-- The end of a walk stays. -/
theorem mono (h : EndsWithin s n w) {more : Nat} (hle : n ≤ more) : EndsWithin s more w := by
  obtain ⟨extra, rfl⟩ := Nat.exists_eq_add_of_le hle
  rw [EndsWithin, run_steps_add]
  simp only [run_steps_of_halted h]
  exact h

end EndsWithin

end Walker

namespace Frame

open Walker

/-- **The frame lasts at most `c` steps**: whatever stands below it on the stack, with
the frame on top it takes at most so many steps more to the end. -/
def Lasts (s : Store) (p : Pattern) (o : WalkOptions) (c : Nat) (f : Frame) : Prop :=
  ∀ (below : List Frame) (n : Nat), EndsWithin s n ⟨p, o, below, false⟩ →
    EndsWithin s (c + n) ⟨p, o, f :: below, false⟩

variable {s : Store} {p : Pattern} {o : WalkOptions} {f : Frame} {c : Nat}

theorem Lasts.mono (h : f.Lasts s p o c) {more : Nat} (hle : c ≤ more) : f.Lasts s p o more :=
  fun below n hbelow => (h below n hbelow).mono (Nat.add_le_add_right hle n)

/-- **How long a loaded frame lasts**: one step for each entry ahead and as long as the
frames last that are entered for them, and one step that drops it. -/
theorem lasts_of_loaded {taken ahead : List Entry} (loaded : f.cursor = some ⟨taken, ahead⟩)
    (entered : ∀ e ∈ ahead, ∀ g, f.action e = .descend g → g.Lasts s p o c) :
    f.Lasts s p o (ahead.length * (1 + c) + 1) := by
  induction ahead generalizing f taken with
  | nil =>
    intro below n hbelow
    rw [List.length_nil, Nat.zero_mul, Nat.zero_add, Nat.add_comm]
    exact hbelow.step (.pop loaded)
  | cons e ahead ih =>
    intro below n hbelow
    obtain ⟨hfirst, hothers⟩ := List.forall_mem_cons.mp entered
    have hrest : EndsWithin s (ahead.length * (1 + c) + 1 + n)
        ⟨p, o, f.moved ⟨e :: taken, ahead⟩ :: below, false⟩ :=
      ih (f := f.moved ⟨e :: taken, ahead⟩) rfl hothers below n hbelow
    rw [List.length_cons, Nat.succ_mul]
    cases ha : f.action e with
    | skip => exact (hrest.step (.skip loaded ha)).mono (by omega)
    | descend g => exact ((hfirst g ha _ _ hrest).step (.descend loaded ha)).mono (by omega)
    | emit =>
      cases hm : (matchOf o (f.pathOf e) e).run s with
      | mk result calls =>
        cases result with
        | error error =>
          exact ((EndsWithin.of_halted rfl 0).step (.emitFailed loaded ha hm)).mono (by omega)
        | ok found => exact (hrest.step (.emit loaded ha hm)).mono (by omega)

/-- **How long a fresh frame lasts**: one step longer than it does when it is loaded. -/
theorem lasts_of_fresh (fresh : f.cursor = none)
    (loaded : ∀ entries calls, (f.load o).run s = (.ok entries, calls) →
      (f.moved ⟨[], entries⟩).Lasts s p o c) : f.Lasts s p o (c + 1) := by
  intro below n hbelow
  cases hl : (f.load o).run s with
  | mk result calls =>
    cases result with
    | error e =>
      exact ((EndsWithin.of_halted rfl 0).step (.loadFailed fresh hl)).mono (by omega)
    | ok entries =>
      exact ((loaded entries calls hl below n hbelow).step (.load fresh hl)).mono (by omega)

/-- Of finitely many entries, the frames that are entered for them have a common bound if
each has one. -/
theorem exists_lasts_common {entries : List Entry}
    (h : ∀ e ∈ entries, ∀ g, f.action e = .descend g → ∃ c, g.Lasts s p o c) :
    ∃ c, ∀ e ∈ entries, ∀ g, f.action e = .descend g → g.Lasts s p o c := by
  induction entries with
  | nil => exact ⟨0, by simp⟩
  | cons e entries ih =>
    obtain ⟨hfirst, hothers⟩ := List.forall_mem_cons.mp h
    obtain ⟨c, hc⟩ := ih hothers
    match ha : f.action e with
    | .skip | .emit =>
      refine ⟨c, List.forall_mem_cons.mpr ⟨fun g hg => ?_, hc⟩⟩
      rw [ha] at hg
      cases hg
    | .descend g =>
      obtain ⟨c', hc'⟩ := hfirst g ha
      refine ⟨max c c', List.forall_mem_cons.mpr ⟨fun g' hg' => ?_, fun e' he' g' hg' => ?_⟩⟩
      · rw [ha] at hg'
        cases hg'
        exact hc'.mono (Nat.le_max_right c c')
      · exact (hc e' he' g' hg').mono (Nat.le_max_left c c')

/-- **Every frame lasts boundedly long**, if directories nest finitely deep. -/
theorem exists_lasts {levels : Nat} (fresh : f.cursor = none)
    (deep : s.NestsWithin levels f.directory) : ∃ c, f.Lasts s p o c := by
  induction levels using Nat.strongRecOn generalizing f with
  | ind levels ih =>
    match hl : (f.load o).run s with
    | (.error e, calls) => exact ⟨0 + 1, lasts_of_fresh fresh fun _ _ h => by simp [hl] at h⟩
    | (.ok entries, calls) =>
      have hentered : ∀ e ∈ entries, ∀ g, f.action e = .descend g → ∃ c, g.Lasts s p o c := by
        intro e he g ha
        obtain ⟨fewer, rfl, hfewer⟩ := nestsWithin_of_descend deep hl he ha
        exact ih fewer (Nat.lt_succ_self _) (fresh_of_descend ha).1 hfewer
      obtain ⟨c, hc⟩ := exists_lasts_common hentered
      refine ⟨entries.length * (1 + c) + 1 + 1, lasts_of_fresh fresh fun entries' calls' h => ?_⟩
      rw [hl] at h
      cases h
      exact lasts_of_loaded (f := f.moved ⟨[], entries⟩) rfl hc

/-- There are no more entries than names in the listing. -/
theorem length_le_of_load {width : Nat}
    (narrow : ∀ dir names, s (.list dir) = .ok names → names.length ≤ width)
    {entries : List Entry} {calls : List Call} (loaded : (f.load o).run s = (.ok entries, calls)) :
    entries.length ≤ width := by
  obtain ⟨names, known, hlist, hnames, _, rfl, _⟩ := run_load_ok loaded
  calc (o.arrange known).length
      = (names.filter (f.keeps o)).length := by
        rw [(o.perm_arrange known).length_eq, ← hnames, List.length_map]
    _ ≤ names.length := List.length_filter_le _ _
    _ ≤ width := narrow _ _ hlist

/-- **How long a visit lasts**, where listings have at most `width` names and what is
entered from there lasts at most `c` steps. -/
theorem lasts_of_narrow {width : Nat} (fresh : f.cursor = none)
    (narrow : ∀ dir names, s (.list dir) = .ok names → names.length ≤ width)
    (entered : ∀ entries calls, (f.load o).run s = (.ok entries, calls) →
      ∀ e ∈ entries, ∀ g, f.action e = .descend g → g.Lasts s p o c) :
    f.Lasts s p o (2 + width * (1 + c)) := by
  have hvisit : f.Lasts s p o (width * (1 + c) + 1 + 1) := by
    refine lasts_of_fresh fresh fun entries calls hl => ?_
    have hlasts := lasts_of_loaded (f := f.moved ⟨[], entries⟩) rfl (entered entries calls hl)
    exact hlasts.mono (Nat.succ_le_succ (Nat.mul_le_mul_right _ (length_le_of_load narrow hl)))
  exact hvisit.mono (by omega)

/-- **How long a frame lasts at most**, where listings have at most so many names. -/
theorem lasts_visitBound {width levels : Nat} (fresh : f.cursor = none)
    (narrow : ∀ dir names, s (.list dir) = .ok names → names.length ≤ width)
    (deep : s.NestsWithin levels f.directory) :
    f.Lasts s p o (visitBound width levels) := by
  induction levels generalizing f with
  | zero =>
    have hvisit : f.Lasts s p o (2 + width * (1 + 0)) := by
      refine lasts_of_narrow fresh narrow fun entries calls loaded e he g h => ?_
      obtain ⟨_, hlevels, _⟩ := nestsWithin_of_descend deep loaded he h
      exact absurd hlevels.symm (Nat.succ_ne_zero _)
    rwa [Nat.add_zero, Nat.mul_one, Nat.add_comm] at hvisit
  | succ levels ih =>
    refine lasts_of_narrow fresh narrow fun entries calls loaded e he g h => ?_
    obtain ⟨fewer, hlevels, hdeep⟩ := nestsWithin_of_descend deep loaded he h
    rw [← Nat.succ.inj hlevels] at hdeep
    exact ih (fresh_of_descend h).1 hdeep

end Frame

namespace Walker

variable {s : Store} {p : Pattern} {o : WalkOptions} {w : Walker}

/-- A walk takes one step more than its first frame lasts. -/
theorem endsWithin_start {c : Nat}
    (h : (Frame.enter .root false p.first p.rest).Lasts s p o c) :
    EndsWithin s (c + 1) (start p o) :=
  h [] 1 ((EndsWithin.of_halted rfl 0).step .finish)

/-- **The bound on the steps of a walk is never reached.** -/
theorem endsWithin_walkBound (p : Pattern) (o : WalkOptions) {width levels : Nat}
    (narrow : ∀ dir names, s (.list dir) = .ok names → names.length ≤ width)
    (deep : s.NestsWithin levels .root) : EndsWithin s (walkBound width levels) (start p o) := by
  have hroot : s.NestsWithin levels (Frame.enter .root false p.first p.rest).directory := by
    rwa [Frame.directory_enter]
  have hlasts := Frame.lasts_visitBound (p := p) (o := o) (Frame.cursor_enter _ _ _ _) narrow hroot
  exact (endsWithin_start hlasts).mono (visitBound_lt_walkBound width levels)

/-- **A walk that ends has a next event**, unless it has ended: waiting for it is
answered. -/
theorem EndsWithin.exists_next {n : Nat} (h : EndsWithin s n w) :
    ∃ v e calls, (∀ bound, n ≤ bound → (w.next bound).run s = ((v, e), calls)) ∧
      (e = none ↔ w.halted = true) := by
  match hsteps : (w.steps n).run s with
  | ((v, []), calls) =>
    have hv : v.halted = true := by rwa [EndsWithin, hsteps] at h
    refine ⟨v, none, calls, fun bound hb => run_next_of_steps_nil hsteps hv hb, ?_⟩
    refine ⟨fun _ => ?_, fun _ => rfl⟩
    by_contra hrunning
    obtain ⟨e, hmem, _⟩ :=
      Reaches.exists_isTerminal ⟨n, hsteps⟩ (Bool.eq_false_iff.mpr hrunning) hv
    cases hmem
  | ((v, e :: es), calls) =>
    obtain ⟨_, u, made, _, _, _, hnext, _⟩ := exists_next_of_steps_cons hsteps
    refine ⟨u, some e, made, hnext, (fun hnone => nomatch hnone), fun hended => ?_⟩
    rw [run_steps_of_halted hended] at hsteps
    cases hsteps

/-- **Walks end.** On a store that reports directories only at paths of at most `d` plain
names, whatever its listings hold and whichever of its calls fail, there is a number of
steps within which a walk for any pattern ends. Wherever it is on the way, that many
steps are enough for waiting: it is answered with an event, and only once the walk has
ended is there none. -/
theorem halts (plain : s.ListsPlain) {d : Nat}
    (deep : ∀ names m, (∀ n ∈ names, PlainName n) → s (.stat (.ofNames names)) = .ok m →
      m.isDir = true → names.length ≤ d) (p : Pattern) (o : WalkOptions) :
    ∃ n, (∀ more, n ≤ more → (((start p o).steps more).run s).1.1.halted = true) ∧
      ∀ {es log w}, Reaches s (start p o) es log w →
        ∃ v e calls, (∀ bound, n ≤ bound → (w.next bound).run s = ((v, e), calls)) ∧
          (e = none ↔ w.halted = true) := by
  have hnests : s.NestsWithin d (Frame.enter .root false p.first p.rest).directory := by
    rw [Frame.directory_enter]
    exact Store.nestsWithin_of_length_le plain deep
  obtain ⟨c, hc⟩ := Frame.exists_lasts (p := p) (o := o) (Frame.cursor_enter _ _ _ _) hnests
  have hend : EndsWithin s (c + 1) (start p o) := endsWithin_start hc
  refine ⟨c + 1, fun more hmore => hend.mono hmore, fun {es log w} hreached => ?_⟩
  obtain ⟨later, calls, _, _, hrest⟩ :=
    hreached.rest_of_halted (n := c + 1) (Prod.ext (Prod.ext rfl rfl) rfl) hend
  have hends : EndsWithin s (c + 1) w := by
    rw [EndsWithin, hrest]
    exact hend
  exact hends.exists_next

/-- A walk into directories that nest, one of which cannot be listed: it is asked again
after its first match. -/
theorem halts_refusing :
    let p : Pattern := ⟨.globstar, [.wildcard "*.json"]⟩
    let s := Memory.refusing.store
    s.ListsPlain ∧
      (∀ names m, (∀ n ∈ names, PlainName n) → s (.stat (.ofNames names)) = .ok m →
        m.isDir = true → names.length ≤ 2) ∧
      ∃ n, (∀ more, n ≤ more → (((start p {}).steps more).run s).1.1.halted = true) ∧
        ∃ v e calls, ∀ bound, n ≤ bound →
          ((((start p {}).next 5).run s).1.1.next bound).run s = ((v, some e), calls) := by
  intro p s
  have hplain : s.ListsPlain := Memory.listsPlain_store (by decide)
  have hdeep : ∀ names m, (∀ n ∈ names, PlainName n) → s (.stat (.ofNames names)) = .ok m →
      m.isDir = true → names.length ≤ 2 :=
    fun names m hnames hstat _ => Memory.length_names_le_of_stat (by decide) hnames hstat
  refine ⟨hplain, hdeep, ?_⟩
  obtain ⟨n, hended, hwait⟩ := halts hplain hdeep p {}
  obtain ⟨v, e, calls, hnext, hnone⟩ := hwait (.of_next s 5 (start p {}))
  have hrunning : (((start p {}).next 5).run s).1.1.halted = false := by decide +kernel
  match e with
  | none => exact absurd (hnone.mp rfl) (Bool.eq_false_iff.mp hrunning)
  | some e => exact ⟨n, hended, v, e, calls, hnext⟩

end Walker

end TreeQuery
