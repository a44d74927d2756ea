import TreeQuery.Proofs.Commands
import TreeQuery.Proofs.Stacks

/-!
# The lives of frames

A walk gives matches and then one event that ends it. When this is the event that
everything has been visited, has everything been? A frame is entered, loaded, goes
through its entries and is left, but all this is spread over the run, because frames
deeper down are entered before those above are done.

So a record is kept beside the walk. What a step does to the frames, its *deeds*, is
told from the walkers before and after it (`Walker.deeds`), and a `Ledger` files each
deed under the frame that it was done to: it holds the *life* of every frame that has
ever been entered, whether the frame is still on the stack or has been left. Nothing
that a walk does depends on the ledger.

What carries the argument is that the lives of the frames on the stack can be read off
the frames themselves (`Frame.life`). A frame is left when no entry is ahead, and then
its life is whole.
-/

namespace TreeQuery

/-- What can be done to a frame. -/
inductive Deed
  /-- It is put on top of the stack. -/
  | entered (frame : Frame)
  /-- It gets the entries to look at. -/
  | loaded (entries : List Entry)
  /-- Its next entry is dealt with. -/
  | visited (entry : Entry)
  /-- It is dropped from the stack. -/
  | left
  deriving DecidableEq, Repr

/-- **The lives of frames**: for every frame that has been entered, what has been done
to it, in order. -/
structure Ledger where
  /-- The lives of the frames that have been left. -/
  lived : List (List Deed) := []
  /-- The lives of the frames on the stack, that of the top frame first. -/
  living : List (List Deed) := []

namespace Ledger

/-- All lives. -/
def lives (l : Ledger) : List (List Deed) :=
  l.lived ++ l.living

/-- Add a deed to the life of the top frame. -/
def extend (l : Ledger) (deed : Deed) : Ledger :=
  match l.living with
  | [] => l
  | life :: below => ⟨l.lived, (life ++ [deed]) :: below⟩

/-- File a deed: a frame that is entered begins its life on top of the others; any
other deed is done to the top frame, and the last one ends its life. -/
def note (l : Ledger) : Deed → Ledger
  | .entered f => ⟨l.lived, [.entered f] :: l.living⟩
  | .loaded entries => l.extend (.loaded entries)
  | .visited e => l.extend (.visited e)
  | .left =>
    match l.living with
    | [] => l
    | life :: below => ⟨(life ++ [.left]) :: l.lived, below⟩

/-- Adding a deed to a life neither loses nor doubles one. -/
theorem perm_extend (l : Ledger) (deed : Deed) (h : l.living ≠ []) :
    (l.extend deed).lives.flatten.Perm (deed :: l.lives.flatten) := by
  obtain ⟨lived, living⟩ := l
  obtain ⟨life, below, rfl⟩ := List.exists_cons_of_ne_nil h
  simp only [extend, lives, List.flatten_append, List.flatten_cons, List.append_assoc,
    List.singleton_append]
  rw [← List.append_assoc, ← List.append_assoc lived.flatten life]
  exact List.perm_middle

/-- **Filing neither loses nor doubles a deed**, as long as there is a frame that it can
be done to. -/
theorem perm_note (l : Ledger) (deed : Deed) (h : (∃ f, deed = .entered f) ∨ l.living ≠ []) :
    (l.note deed).lives.flatten.Perm (deed :: l.lives.flatten) := by
  cases deed with
  | entered f =>
    simp only [note, lives, List.flatten_append, List.flatten_cons, List.singleton_append]
    exact List.perm_middle
  | loaded entries => exact l.perm_extend _ (h.resolve_left fun ⟨_, he⟩ => nomatch he)
  | visited e => exact l.perm_extend _ (h.resolve_left fun ⟨_, he⟩ => nomatch he)
  | left =>
    obtain ⟨lived, living⟩ := l
    obtain ⟨life, below, rfl⟩ :=
      List.exists_cons_of_ne_nil (h.resolve_left fun ⟨_, he⟩ => nomatch he)
    -- the life has moved behind the others too
    simp only [note, lives, List.cons_append, List.flatten_append, List.flatten_cons,
      List.append_assoc, List.nil_append]
    exact List.perm_middle.trans ((List.perm_append_comm_assoc _ _ _).cons _)

/-- The ledger of a record. -/
def ofRecord (deeds : List Deed) : Ledger :=
  deeds.foldl note {}

@[simp] theorem ofRecord_concat (deeds : List Deed) (deed : Deed) :
    ofRecord (deeds ++ [deed]) = (ofRecord deeds).note deed := by
  rw [ofRecord, List.foldl_append]
  rfl

end Ledger

namespace Walker

/-- **What a step does to the frames**, told from the walker before and after it. A
frame that has gone was left, and one that has come was entered. If the top frame was
not loaded, it has been loaded; otherwise the entry that was ahead has been visited.
The end of a walk does nothing to frames. -/
def deeds (w w' : Walker) : List Deed :=
  if w'.halted then []
  else if w'.depth < w.depth then [.left]
  else
    match w.stack, w'.stack with
    | f :: _, top :: _ =>
      match f.cursor with
      | none => top.cursor.toList.map fun c => .loaded c.entries
      | some c =>
        c.ahead.head?.toList.map .visited ++
          if w.depth < w'.depth then [.entered top] else []
    | _, _ => []

/-- The deeds of so many steps. -/
def deedsOf (s : Store) : (count : Nat) → Walker → List Deed
  | 0, _ => []
  | count + 1, w => w.deeds (w.step.run s).1.1 ++ deedsOf s count (w.step.run s).1.1

/-- The deeds of so many steps of a walk from its start on. The frame for the root of
the walk is entered before the first step. -/
def record (s : Store) (p : Pattern) (o : WalkOptions) (count : Nat) : List Deed :=
  (start p o).stack.map .entered ++ deedsOf s count (start p o)

end Walker

/-- **A whole life**: a frame is entered and loaded once; each of its entries is visited
once, in order, and then the frame is left. Its entries are the names that its directory
lists and that it keeps, with what is known about them. -/
def WholeLife (s : Store) (o : WalkOptions) (life : List Deed) : Prop :=
  ∃ (f : Frame) (entries : List Entry) (names : List String),
    life = .entered f :: .loaded entries :: (entries.map .visited ++ [.left]) ∧
      s (.list f.directory) = .ok names ∧
      (entries.map Entry.name).Perm (names.filter (f.keeps o)) ∧
      ∀ e ∈ entries, s (.stat (f.pathOf e)) = .ok e.metadata

/-- **Everything has been visited**: the lives of all frames that have been entered are
whole, and all that has been done to frames is part of them. -/
def AllVisited (s : Store) (o : WalkOptions) (deeds : List Deed) : Prop :=
  (Ledger.ofRecord deeds).living = [] ∧
    (∀ life ∈ (Ledger.ofRecord deeds).lived, WholeLife s o life) ∧
    (Ledger.ofRecord deeds).lived.flatten.Perm deeds

namespace Frame

/-- **The life of a frame up to now**, read off the frame. -/
def life (f : Frame) : List Deed :=
  .entered { f with cursor := none } ::
    match f.cursor with
    | none => []
    | some c => .loaded c.entries :: c.taken.reverse.map .visited

variable {s : Store} {o : WalkOptions} {f : Frame} {taken ahead : List Entry} {e : Entry}

theorem life_of_fresh (h : f.cursor = none) : f.life = [.entered f] := by
  obtain ⟨dir, t, later, r, cursor⟩ := f
  cases h
  rfl

/-- Loading adds one deed to a life. -/
theorem life_of_load (fresh : f.cursor = none) (entries : List Entry) :
    (f.moved ⟨[], entries⟩).life = f.life ++ [.loaded entries] := by
  obtain ⟨dir, t, later, r, cursor⟩ := f
  cases fresh
  rfl

/-- Taking an entry adds one deed to a life. -/
theorem life_of_taken (due : f.cursor = some ⟨taken, e :: ahead⟩) :
    (f.moved ⟨e :: taken, ahead⟩).life = f.life ++ [.visited e] := by
  obtain ⟨dir, t, later, r, cursor⟩ := f
  cases due
  simp [life, moved, Cursor.entries]

/-- **A frame without an entry ahead has lived**, once it is left. -/
theorem wholeLife_of_spent (filled : f.Filled s o) (spent : f.cursor = some ⟨taken, []⟩) :
    WholeLife s o (f.life ++ [.left]) := by
  have hentries : (Cursor.mk taken []).entries = taken.reverse := by simp [Cursor.entries]
  obtain ⟨calls, hload⟩ := filled _ spent
  rw [hentries] at hload
  obtain ⟨names, known, hlist, hnames, hstats, harranged, _⟩ := run_load_ok hload
  have hperm : taken.reverse.Perm known := harranged ▸ o.perm_arrange known
  have hlife : f.life ++ [.left] = .entered { f with cursor := none } ::
      .loaded taken.reverse :: (taken.reverse.map .visited ++ [.left]) := by
    simp [life, spent, hentries]
  have hkept := hperm.map Entry.name
  rw [hnames] at hkept
  exact ⟨_, _, names, hlife, hlist, hkept, fun e he => hstats e (hperm.mem_iff.mp he)⟩

end Frame

namespace Walker

variable {s : Store} {p : Pattern} {o : WalkOptions} {w v : Walker} {done : List Deed}

/-- Where the top frame has an entry ahead and no other frame comes, it is visited. -/
theorem deeds_of_due {f : Frame} {below : List Frame} {taken ahead : List Entry} {e : Entry}
    (due : f.cursor = some ⟨taken, e :: ahead⟩) :
    deeds ⟨p, o, f :: below, false⟩ ⟨p, o, f.moved ⟨e :: taken, ahead⟩ :: below, false⟩
      = [.visited e] := by
  simp [deeds, depth, due]

/-! ## What every step keeps -/

/-- **A record that is up to date**: filed, its deeds make up the lives that can be read
off the frames on the stack, and whole lives of those that have been left. -/
structure Kept (s : Store) (o : WalkOptions) (w : Walker) (done : List Deed) : Prop where
  options : w.options = o
  filled : ∀ f ∈ w.stack, f.Filled s o
  living : w.halted = false → (Ledger.ofRecord done).living = w.stack.map Frame.life
  lived : ∀ life ∈ (Ledger.ofRecord done).lived, WholeLife s o life
  all : (Ledger.ofRecord done).lives.flatten.Perm done

namespace Kept

variable {f g : Frame} {below stack : List Frame} {taken ahead : List Entry} {e : Entry}

/-- A walk that has ended leaves its record as it is. -/
theorem ended (h : Kept s o w done) (q : Pattern) : Kept s o ⟨q, o, [], true⟩ done :=
  ⟨rfl, by simp, fun hrun => Bool.noConfusion hrun, h.lived, h.all⟩

/-- The ledger of a walk with a frame on its stack. -/
theorem ofRecord_eq (h : Kept s o ⟨p, o, f :: below, false⟩ done) :
    Ledger.ofRecord done = ⟨(Ledger.ofRecord done).lived, f.life :: below.map Frame.life⟩ := by
  rw [← List.map_cons, ← h.living rfl]

/-- One more deed is filed, and none is lost or doubled. -/
theorem perm_concat (h : Kept s o w done) {deed : Deed}
    (hdone : (∃ f, deed = .entered f) ∨ (Ledger.ofRecord done).living ≠ []) :
    (Ledger.ofRecord (done ++ [deed])).lives.flatten.Perm (done ++ [deed]) := by
  have hfiled := Ledger.perm_note (Ledger.ofRecord done) deed hdone
  rw [Ledger.ofRecord_concat]
  exact hfiled.trans ((h.all.cons deed).trans (List.perm_append_singleton deed done).symm)

/-- The top frame goes on with its life. -/
theorem extended (h : Kept s o ⟨p, o, f :: below, false⟩ done) {deed : Deed}
    (filed : ∀ l : Ledger, l.note deed = l.extend deed) (filled : g.Filled s o)
    (hlife : g.life = f.life ++ [deed]) :
    Kept s o ⟨p, o, g :: below, false⟩ (done ++ [deed]) := by
  obtain ⟨_, hbelow⟩ := List.forall_mem_cons.mp h.filled
  have hledger : Ledger.ofRecord (done ++ [deed])
      = ⟨(Ledger.ofRecord done).lived, g.life :: below.map Frame.life⟩ := by
    rw [Ledger.ofRecord_concat, filed, h.ofRecord_eq, hlife]
    rfl
  refine ⟨rfl, List.forall_mem_cons.mpr ⟨filled, hbelow⟩, fun _ => ?_, ?_,
    h.perm_concat (.inr ?_)⟩
  · rw [hledger, List.map_cons]
  · rw [hledger]
    exact h.lived
  · rw [h.ofRecord_eq]
    exact List.cons_ne_nil _ _

/-- **The next entry is visited.** -/
theorem visited (h : Kept s o ⟨p, o, f :: below, false⟩ done)
    (due : f.cursor = some ⟨taken, e :: ahead⟩) :
    Kept s o ⟨p, o, f.moved ⟨e :: taken, ahead⟩ :: below, false⟩
      (done ++ deeds ⟨p, o, f :: below, false⟩
        ⟨p, o, f.moved ⟨e :: taken, ahead⟩ :: below, false⟩) := by
  rw [deeds_of_due due]
  exact h.extended (fun _ => rfl) ((h.filled f List.mem_cons_self).taken due)
    (Frame.life_of_taken due)

/-- A frame that is put on the stack begins its life. -/
theorem entered (h : Kept s o ⟨p, o, stack, false⟩ done) (fresh : g.cursor = none) :
    Kept s o ⟨p, o, g :: stack, false⟩ (done ++ [.entered g]) := by
  refine ⟨rfl, List.forall_mem_cons.mpr ⟨Frame.filled_of_fresh fresh, h.filled⟩, fun _ => ?_, ?_,
    h.perm_concat (.inl ⟨g, rfl⟩)⟩
  · rw [Ledger.ofRecord_concat, List.map_cons, Frame.life_of_fresh fresh, ← h.living rfl]
    rfl
  · rw [Ledger.ofRecord_concat]
    exact h.lived

/-- **A frame that is dropped has lived.** -/
theorem left (h : Kept s o ⟨p, o, f :: below, false⟩ done)
    (spent : f.cursor = some ⟨taken, []⟩) :
    Kept s o ⟨p, o, below, false⟩ (done ++ [.left]) := by
  obtain ⟨hfilled, hbelow⟩ := List.forall_mem_cons.mp h.filled
  have hledger : Ledger.ofRecord (done ++ [.left])
      = ⟨(f.life ++ [.left]) :: (Ledger.ofRecord done).lived, below.map Frame.life⟩ := by
    rw [Ledger.ofRecord_concat, h.ofRecord_eq]
    rfl
  refine ⟨rfl, hbelow, fun _ => ?_, ?_, h.perm_concat (.inr ?_)⟩
  · rw [hledger]
  · rw [hledger]
    exact List.forall_mem_cons.mpr ⟨Frame.wholeLife_of_spent hfilled spent, h.lived⟩
  · rw [h.ofRecord_eq]
    exact List.cons_ne_nil _ _

end Kept

/-- The record of a walk that begins. -/
theorem kept_start (s : Store) (p : Pattern) (o : WalkOptions) :
    Kept s o (start p o) (record s p o 0) := by
  have hempty : Kept s o ⟨p, o, [], false⟩ [] :=
    ⟨rfl, by simp, fun _ => rfl, by simp [Ledger.ofRecord], .refl _⟩
  exact hempty.entered (Frame.cursor_enter _ _ _ _)

/-- **Every step keeps the record up to date.** -/
theorem kept_step {event : Option WalkEvent} {calls : List Call} (h : Kept s o w done)
    (hstep : Step s w event calls v) : Kept s o v (done ++ w.deeds v) := by
  obtain rfl := h.options
  cases hstep with
  | rest ended =>
    have hnone : w.deeds w = [] := by simp [deeds, ended]
    rw [hnone, List.append_nil]
    exact h
  | finish => simpa [deeds] using h.ended _
  | loadFailed fresh refused => simpa [deeds] using h.ended _
  | emitFailed due action refused => simpa [deeds] using h.ended _
  | @load p o f below entries _ fresh loaded =>
    have hdeeds : deeds ⟨p, o, f :: below, false⟩ ⟨p, o, f.moved ⟨[], entries⟩ :: below, false⟩
        = [.loaded entries] := by
      simp [deeds, depth, fresh, Frame.moved, Cursor.entries]
    rw [hdeeds]
    exact h.extended (fun _ => rfl) (Frame.filled_of_load loaded)
      (Frame.life_of_load fresh entries)
  | @pop p o f below taken spent =>
    have hdeeds : deeds ⟨p, o, f :: below, false⟩ ⟨p, o, below, false⟩ = [.left] := by
      simp [deeds, depth]
    rw [hdeeds]
    exact h.left spent
  | skip due action => exact h.visited due
  | emit due action read => exact h.visited due
  | @descend p o f g below taken ahead e due action =>
    have hdeeds : deeds ⟨p, o, f :: below, false⟩
        ⟨p, o, g :: f.moved ⟨e :: taken, ahead⟩ :: below, false⟩ = [.visited e, .entered g] := by
      simp [deeds, depth, due]
    have hvisited := h.visited due
    rw [deeds_of_due due] at hvisited
    rw [hdeeds, List.append_cons]
    exact hvisited.entered (Frame.fresh_of_descend action).1

/-! ## Whole runs -/

/-- The record of steps is that of the start and the deeds of the steps. -/
theorem record_zero_append (s : Store) (p : Pattern) (o : WalkOptions) (n : Nat) :
    record s p o 0 ++ deedsOf s n (start p o) = record s p o n := by
  rw [record, record, deedsOf, List.append_nil]

/-- Nothing is done to frames after the end. -/
theorem deedsOf_of_halted (h : w.halted = true) (count : Nat) : deedsOf s count w = [] := by
  induction count with
  | zero => rfl
  | succ count ih =>
    have hstay : (w.step.run s).1.1 = w := by rw [step_of_halted h]; rfl
    rw [deedsOf, hstay, ih, List.append_nil]
    exact if_pos h

/-- The deeds of steps are those of a first step and of the others. -/
theorem deedsOf_succ {event : Option WalkEvent} {calls : List Call} (h : Step s w event calls v)
    (count : Nat) : deedsOf s (count + 1) w = w.deeds v ++ deedsOf s count v := by
  rw [deedsOf, h.run_eq]

/-- Everything has been visited only when no frame is left. -/
theorem Step.stack_eq_nil_of_finished {calls : List Call}
    (h : Step s w (some .finished) calls v) : w.stack = [] := by
  generalize hevent : some WalkEvent.finished = event at h
  cases h with
  | finish => rfl
  | emit due action read =>
    obtain ⟨m, _, hm⟩ := Option.map_eq_some_iff.mp hevent.symm
    cases hm
  | _ => cases hevent

/-- **Steps keep the record up to date.** -/
theorem kept_steps (h : Kept s o w done) (n : Nat) :
    Kept s o ((w.steps n).run s).1.1 (done ++ deedsOf s n w) := by
  induction n generalizing w done with
  | zero => rwa [deedsOf, List.append_nil]
  | succ n ih =>
    obtain ⟨event, calls, v, hstep⟩ := exists_step s w
    rw [run_steps_succ hstep, deedsOf_succ hstep, ← List.append_assoc]
    exact ih (kept_step h hstep)

/-- **When everything has been visited** no frame is left: there is none on the stack
before the last step, and this one does nothing to frames. -/
theorem living_eq_nil_of_finished (h : Kept s o w done) {n : Nat}
    (hmem : WalkEvent.finished ∈ ((w.steps n).run s).1.2) :
    (Ledger.ofRecord (done ++ deedsOf s n w)).living = [] := by
  induction n generalizing w done with
  | zero => cases hmem
  | succ n ih =>
    obtain ⟨event, calls, v, hstep⟩ := exists_step s w
    rw [run_steps_succ hstep] at hmem
    rw [deedsOf_succ hstep]
    rcases List.mem_append.mp hmem with hfirst | hlater
    · obtain rfl := Option.mem_toList.mp hfirst
      have hended : v.halted = true := hstep.halted_eq_isTerminal
      rw [deedsOf_of_halted hended, deeds, if_pos hended, List.append_nil, List.append_nil,
        h.living hstep.running, hstep.stack_eq_nil_of_finished]
      rfl
    · rw [← List.append_assoc]
      exact ih (kept_step h hstep) hlater

/-- **A walk gives matches, and then at most one event that ends it**; it has ended as
soon as it has given that one, and not before. -/
theorem Reaches.exists_files {es : List WalkEvent} {log : List Call}
    (h : Reaches s w es log v) (running : w.halted = false) :
    ∃ (files : List Match) (last : Option WalkEvent), es = files.map .found ++ last.toList ∧
      (∀ e ∈ last, e.isTerminal = true) ∧ v.halted = last.isSome := by
  induction h using Reaches.head_induction_on with
  | refl => exact ⟨[], none, rfl, fun e he => (nomatch he), running⟩
  | @head w u first calls es log hstep hrest ih =>
    match first with
    | none => exact ih (hstep.halted_of_silent.trans running)
    | some e =>
      cases he : e.isTerminal with
      | true =>
        have hended := hstep.halted_eq_isTerminal.trans he
        obtain ⟨rfl, rfl, _⟩ := hrest.eq_of_halted hended
        exact ⟨[], some e, rfl, fun _ hlast => Option.some.inj hlast ▸ he, hended⟩
      | false =>
        obtain ⟨files, last, rfl, hlast, hended⟩ := ih (hstep.halted_eq_isTerminal.trans he)
        match e with
        | .found m => exact ⟨m :: files, last, rfl, hlast, hended⟩

/-- A walk that has ended answers no command. -/
theorem obey_of_halted (h : w.halted = true) (bound : Nat) (c : Command) :
    w.obey bound c = pure (w, none) := by
  cases c with
  | step => exact step_of_halted h
  | next => exact next_of_halted h bound
  | poll =>
    cases bound with
    | zero => rfl
    | succ bound => rw [obey, poll, if_pos h]; rfl

/-- **The shape of a run.** Whatever commands a walk is given from its start on, it
gives matches and then at most one event that ends it, and it has ended exactly if it
has given that one. A walk that has ended has nothing on its stack, makes no call and
stays as it is.

As long as it goes on, the lives that are filed are those of the frames on its stack
and of those that were left before. When it says that everything has been visited, no
life is unfinished, all of them are whole, and nothing else has been done to a frame. -/
theorem shape_of_commands (p : Pattern) (o : WalkOptions) {bound : Nat}
    {commands : List Command} {es : List WalkEvent} {log : List Call}
    (obeyed : ((start p o).obeyAll bound commands).run s = ((w, es), log)) :
    (∃ (files : List Match) (last : Option WalkEvent), es = files.map .found ++ last.toList ∧
        (∀ e ∈ last, e.isTerminal = true) ∧ w.halted = last.isSome) ∧
      (w.halted = true → w.depth = 0 ∧ ∀ more c, w.obey more c = pure (w, none)) ∧
      (∃ n, ((start p o).steps n).run s = ((w, es), log)) ∧
      ∀ n, ((start p o).steps n).run s = ((w, es), log) →
        (w.halted = false →
          (Ledger.ofRecord (record s p o n)).living = w.stack.map Frame.life) ∧
        (WalkEvent.finished ∈ es → AllVisited s o (record s p o n)) := by
  have hreached := reaches_of_obeyAll s bound commands (start p o)
  rw [obeyed] at hreached
  refine ⟨hreached.exists_files rfl, fun hended => ⟨?_, obey_of_halted hended⟩, hreached,
    fun n hn => ?_⟩
  · obtain ⟨e, hmem, he⟩ := hreached.exists_isTerminal rfl hended
    rw [depth, (hreached.ended_of_isTerminal hmem he).2, List.length_nil]
  · have hkept := kept_steps (kept_start s p o) n
    rw [record_zero_append, hn] at hkept
    refine ⟨hkept.living, fun hmem => ?_⟩
    have hliving := living_eq_nil_of_finished (kept_start s p o) (n := n) (by rwa [hn])
    rw [record_zero_append] at hliving
    have hall := hkept.all
    rw [Ledger.lives, hliving, List.append_nil] at hall
    exact ⟨hliving, hkept.lived, hall⟩

/-- All that a nested tree holds, asked for by commands of all kinds. -/
theorem shape_of_commands_nested :
    let p : Pattern := ⟨.globstar, [.wildcard "*.json"]⟩
    let s := Memory.nested.store
    ∃ w es log, ((start p {}).obeyAll 20 [.next, .poll, .step, .next, .next, .next]).run s
        = ((w, es), log) ∧
      (∃ files : List Match, es = files.map .found ++ [.finished]) ∧
      w.depth = 0 ∧ w.step = pure (w, none) ∧
      ∃ n, ((start p {}).steps n).run s = ((w, es), log) ∧ AllVisited s {} (record s p {} n) := by
  intro p s
  have hgiven : (((start p {}).obeyAll 20
      [.next, .poll, .step, .next, .next, .next]).run s).1.2.any (· matches .finished) = true := by
    decide +kernel
  generalize hrun : ((start p {}).obeyAll 20 [.next, .poll, .step, .next, .next, .next]).run s
    = run at hgiven ⊢
  obtain ⟨⟨w, es⟩, log⟩ := run
  obtain ⟨event, hmem, hevent⟩ := List.any_eq_true.mp hgiven
  obtain ⟨⟨files, last, hes, _, hhalted⟩, hrest, ⟨n, hn⟩, hall⟩ := shape_of_commands p {} hrun
  match event with
  | .finished =>
    -- the end is no match, and so it is the event that the walk has ended with
    have hfinished : last = some .finished := by simpa [hes] using hmem
    rw [hfinished] at hes hhalted
    obtain ⟨hdepth, hstays⟩ := hrest hhalted
    exact ⟨w, es, log, rfl, ⟨files, hes⟩, hdepth, hstays 0 .step, n, hn, (hall n hn).2 hmem⟩

end Walker

end TreeQuery
