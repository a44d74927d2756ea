import TreeQuery.Proofs.Lives
import TreeQuery.Proofs.Once

/-!
# What a walk costs

A step does one unit of work, and what a walk has cost can be told from its calls alone.
A directory costs two steps, one that loads it and one that drops it, and each entry that
is kept from it costs one. But a directory is listed once, and an entry that is kept is
statted once. So when everything has been visited there have been two steps for each
listing, one for each stat, and the one that says so.

On the way there the calls are ahead of the steps. A frame that has been loaded has made
all its calls, while the entries ahead of its cursor and the frame itself are still to be
dealt with. That many steps it *owes* (`Frame.owed`); a frame that has not been loaded has
made no call and owes none. Every step that does not end the walk keeps the account: it is
one step more, and what it pays for with its calls or no longer owes is worth one step.
-/

namespace TreeQuery

/-- Does the call list a directory? -/
def Call.isList : Call → Bool
  | list _ => true
  | stat _ => false
  | read _ => false

/-- Does the call stat an entry? -/
def Call.isStat : Call → Bool
  | list _ => false
  | stat _ => true
  | read _ => false

/-- **The steps that calls pay for**: two for each listing and one for each stat. -/
def paidFor (calls : List Call) : Nat :=
  2 * calls.countP Call.isList + calls.countP Call.isStat

@[simp] theorem paidFor_nil : paidFor [] = 0 := rfl

@[simp] theorem paidFor_append (calls more : List Call) :
    paidFor (calls ++ more) = paidFor calls + paidFor more := by
  simp only [paidFor, List.countP_append]
  omega

/-- A call that reads pays for nothing. -/
@[simp] theorem paidFor_read (path : Path) : paidFor [.read path] = 0 := rfl

/-- A listing with stats pays for a frame: its loading, one step for each stat, and its
dropping. -/
theorem paidFor_listing (dir : Path) {α : Type} (path : α → Path) (asked : List α) :
    paidFor (.list dir :: asked.map fun a => .stat (path a)) = asked.length + 2 := by
  have hlists : (asked.map fun a => Call.stat (path a)).countP Call.isList = 0 := by
    simp [List.countP_map, Function.comp_def, Call.isList]
  have hstats : (asked.map fun a => Call.stat (path a)).countP Call.isStat = asked.length := by
    simp [List.countP_map, Function.comp_def, Call.isStat]
  rw [paidFor, List.countP_cons_of_pos rfl, List.countP_cons_of_neg Bool.false_ne_true, hlists,
    hstats]
  omega

/-- **The steps that a frame owes**: a loaded one has to deal with the entries ahead, and
then to be dropped. -/
def Frame.owed (f : Frame) : Nat :=
  match f.cursor with
  | none => 0
  | some c => c.ahead.length + 1

namespace Walker

variable {s : Store} {w v : Walker} {event : Option WalkEvent} {calls : List Call}

/-- The steps that the frames on the stack owe. -/
def owed (w : Walker) : Nat :=
  w.stack.foldr (fun f owed => f.owed + owed) 0

/-- **Every step keeps the account**, unless it ends the walk. -/
theorem Step.owed_eq (h : Step s w event calls v) (running : w.halted = false)
    (goesOn : v.halted = false) : v.owed + 1 = w.owed + paidFor calls := by
  cases h with
  | rest ended => exact absurd (running.symm.trans ended) Bool.false_ne_true
  | finish | loadFailed fresh refused | emitFailed due action refused => cases goesOn
  | @load _ o f _ entries calls fresh loaded =>
    obtain ⟨_, known, _, _, _, rfl, rfl⟩ := Frame.run_load_ok loaded
    have hlength := (o.perm_arrange known).length_eq
    simp only [owed, List.foldr_cons, Frame.owed, Frame.moved, fresh, hlength,
      paidFor_listing]
    omega
  | pop spent =>
    simp only [owed, List.foldr_cons, Frame.owed, spent, List.length_nil,
      paidFor_nil]
    omega
  | skip due action =>
    simp only [owed, List.foldr_cons, Frame.owed, Frame.moved, due,
      List.length_cons, paidFor_nil]
    omega
  | descend due action =>
    have hfresh := (Frame.fresh_of_descend action).1
    simp only [owed, List.foldr_cons, Frame.owed, Frame.moved, due, hfresh,
      List.length_cons, paidFor_nil]
    omega
  | @emit _ o f _ _ _ e _ calls due action read =>
    have hcalls : paidFor calls = 0 := by
      have hread := calls_matchOf s o (f.pathOf e) e
      rw [read] at hread
      rcases hread with rfl | rfl <;> rfl
    simp only [owed, List.foldr_cons, Frame.owed, Frame.moved, due,
      List.length_cons, hcalls]
    omega

/-- A walk that has not ended had not ended before. -/
theorem Reaches.running {es : List WalkEvent} {log : List Call} (h : Reaches s w es log v)
    (goesOn : v.halted = false) : w.halted = false := by
  cases hw : w.halted with
  | false => rfl
  | true => rwa [(h.eq_of_halted hw).1, hw] at goesOn

/-- A walk that goes on after so many steps goes on after fewer. -/
theorem running_of_le {k n : Nat} (hk : k ≤ n)
    (goesOn : ((w.steps n).run s).1.1.halted = false) :
    ((w.steps k).run s).1.1.halted = false := by
  obtain ⟨m, rfl⟩ := Nat.exists_eq_add_of_le hk
  rw [run_steps_add] at goesOn
  exact (Reaches.of_steps s m _).running goesOn

/-- **The account of a run**: the steps that have been taken and those that are owed are what
was owed before and what the calls pay for. -/
theorem steps_add_owed {n : Nat} {es : List WalkEvent} {log : List Call}
    (taken : (w.steps n).run s = ((v, es), log)) (goesOn : v.halted = false) :
    n + v.owed = w.owed + paidFor log := by
  induction n generalizing w es log with
  | zero =>
    cases taken
    rw [paidFor_nil, Nat.zero_add, Nat.add_zero]
  | succ n ih =>
    have hrunning : w.halted = false := Reaches.running ⟨n + 1, taken⟩ goesOn
    obtain ⟨event, calls, u, hstep⟩ := exists_step s w
    rw [run_steps_succ hstep] at taken
    simp only [Prod.mk.injEq] at taken
    obtain ⟨⟨hv, _⟩, rfl⟩ := taken
    have hrest : (u.steps n).run s
        = ((v, ((u.steps n).run s).1.2), ((u.steps n).run s).2) := Prod.ext (Prod.ext hv rfl) rfl
    have hfirst := hstep.owed_eq hrunning (Reaches.running ⟨n, hrest⟩ goesOn)
    have hlater := ih hrest
    rw [paidFor_append]
    omega

/-! ## Kinds of work -/

/-- What a step can be for. -/
inductive Work
  /-- To load a directory. -/
  | load
  /-- To deal with an entry. -/
  | visit
  /-- To drop a directory that is done. -/
  | drop
  deriving DecidableEq, Repr

/-- **What is done by a step of each kind.** -/
def Work.Done (s : Store) (w : Walker) (calls : List Call) (v : Walker) : Work → Prop
  -- the directory of the top frame is listed, and the names that are kept are statted
  | .load => ∃ f below listed entries, w.stack = f :: below ∧ f.cursor = none ∧
      s (.list f.directory) = .ok listed ∧
      calls = .list f.directory ::
        (listed.filter (f.keeps w.options)).map (fun n => .stat (f.directory.entry n)) ∧
      v.stack = f.moved ⟨[], entries⟩ :: below ∧ v.depth = w.depth
  -- the cursor of the top frame goes past an entry, which may be read or entered
  | .visit => ∃ f below taken e ahead above, w.stack = f :: below ∧
      f.cursor = some ⟨taken, e :: ahead⟩ ∧ (calls = [] ∨ calls = [.read (f.pathOf e)]) ∧
      v.stack = above ++ f.moved ⟨e :: taken, ahead⟩ :: below ∧
      (v.depth = w.depth ∨ v.depth = w.depth + 1)
  -- the top frame has no entry ahead, and goes
  | .drop => ∃ f taken, w.stack = f :: v.stack ∧ f.cursor = some ⟨taken, []⟩ ∧ calls = []

/-- The work that is due, by the top frame. -/
def workDue (w : Walker) : Option Work :=
  w.stack.head?.map fun f =>
    match f.cursor with
    | none => .load
    | some ⟨_, []⟩ => .drop
    | some ⟨_, _ :: _⟩ => .visit

/-- What is done was due. -/
theorem Work.Done.workDue_eq {work : Work} (h : work.Done s w calls v) :
    w.workDue = some work := by
  cases work with
  | load =>
    obtain ⟨f, below, _, _, hstack, hcursor, _⟩ := h
    simp [workDue, hstack, hcursor]
  | visit =>
    obtain ⟨f, below, _, _, _, _, hstack, hcursor, _⟩ := h
    simp [workDue, hstack, hcursor]
  | drop =>
    obtain ⟨f, _, hstack, hcursor, _⟩ := h
    simp [workDue, hstack, hcursor]

/-- **Every step does one kind of work**, unless it ends the walk. -/
theorem Step.existsUnique_work (h : Step s w event calls v) (running : w.halted = false)
    (goesOn : v.halted = false) : ∃! work : Work, work.Done s w calls v := by
  have hdone : ∃ work : Work, work.Done s w calls v := by
    cases h with
    | rest ended => exact absurd (running.symm.trans ended) Bool.false_ne_true
    | finish | loadFailed fresh refused | emitFailed due action refused => cases goesOn
    | @load p o f below entries calls fresh loaded =>
      obtain ⟨listed, known, hlist, hnames, _, _, rfl⟩ := Frame.run_load_ok loaded
      have hcalls : known.map (fun e => Call.stat (f.pathOf e))
          = (listed.filter (f.keeps o)).map fun n => .stat (f.directory.entry n) := by
        rw [← hnames, List.map_map]
        rfl
      exact ⟨.load, f, below, listed, entries, rfl, fresh, hlist, by rw [hcalls], rfl, rfl⟩
    | pop spent => exact ⟨.drop, _, _, rfl, spent, rfl⟩
    | skip due action => exact ⟨.visit, _, _, _, _, _, [], rfl, due, .inl rfl, rfl, .inl rfl⟩
    | @descend p o f g below taken ahead e due action =>
      exact ⟨.visit, _, _, _, _, _, [g], rfl, due, .inl rfl, rfl, .inr rfl⟩
    | @emit p o f below taken ahead e found calls due action read =>
      have hcalls := calls_matchOf s o (f.pathOf e) e
      rw [read] at hcalls
      exact ⟨.visit, _, _, _, _, _, [], rfl, due, hcalls, rfl, .inl rfl⟩
  obtain ⟨work, hwork⟩ := hdone
  refine ⟨work, hwork, fun other hother => ?_⟩
  exact Option.some.inj (hother.workDue_eq.symm.trans hwork.workDue_eq)

/-- **A finished walk has taken the steps that its calls pay for.** Let a walk give, after
`n` steps, the event that everything has been visited. Then with the step that gives it there
have been two steps for each listing, one for each stat, and this one. Each of the others was
of exactly one kind: it listed a directory and statted the names that are kept of it, with as
many frames on the stack as before; or it went past one entry, with at most one call, a
read, and at most one more frame on the stack; or it dropped a frame that had no entry ahead,
without a call. -/
theorem steps_paidFor_calls (p : Pattern) (o : WalkOptions) {n : Nat} {es : List WalkEvent}
    {log : List Call} (taken : ((start p o).steps n).run s = ((w, es), log))
    (finishes : w.step.run s = ((v, some .finished), calls)) :
    n + 1 = 2 * (log ++ calls).countP Call.isList + (log ++ calls).countP Call.isStat + 1 ∧
      ∀ k < n, let u := (((start p o).steps k).run s).1.1
        ∃! work : Work, work.Done s u (u.step.run s).2 (u.step.run s).1.1 := by
  have hfinish := step_iff.mpr finishes
  have hrunning : w.halted = false := hfinish.running
  refine ⟨?_, fun k hk => ?_⟩
  · have hstack : w.stack = [] := hfinish.stack_eq_nil_of_finished
    have hcalls : calls = [] := by
      obtain ⟨_, _, stack, halted⟩ := w
      obtain rfl : stack = [] := hstack
      obtain rfl : halted = false := hrunning
      cases finishes
      rfl
    have haccount := steps_add_owed taken hrunning
    have hstart : (start p o).owed = 0 := by
      simp [owed, start, Frame.owed]
    have hend : w.owed = 0 := by rw [owed, hstack, List.foldr_nil]
    rw [hstart, hend, paidFor, Nat.add_zero, Nat.zero_add] at haccount
    rw [hcalls, List.append_nil, haccount]
  · intro u
    obtain ⟨event, made, u', hstep⟩ := exists_step s u
    have hnext : (((start p o).steps (k + 1)).run s).1.1 = u' := by
      rw [run_steps_add]
      exact congrArg (·.1.1) (run_steps_succ hstep 0)
    have hgoesOn : (((start p o).steps n).run s).1.1.halted = false := by rwa [taken]
    have hu' := running_of_le hk hgoesOn
    rw [Nat.succ_eq_add_one, hnext] at hu'
    rw [hstep.run_eq]
    exact hstep.existsUnique_work (running_of_le (Nat.le_of_lt hk) hgoesOn) hu'

/-- The account of a tree in which five directories are listed and eight entries statted. The
last of them is dropped by the step before the end. -/
theorem steps_paidFor_calls_nested :
    let p : Pattern := ⟨.globstar, [.wildcard "*.json"]⟩
    let s := Memory.nested.store
    ∃ w es log v calls, ((start p {}).steps 18).run s = ((w, es), log) ∧
      w.step.run s = ((v, some .finished), calls) ∧
      log.countP Call.isList = 5 ∧ log.countP Call.isStat = 8 ∧
      18 + 1 = 2 * (log ++ calls).countP Call.isList + (log ++ calls).countP Call.isStat + 1 ∧
      let u := (((start p {}).steps 17).run s).1.1
      ∃! work : Work, work.Done s u (u.step.run s).2 (u.step.run s).1.1 := by
  intro p s
  have hfinishes : ((((start p {}).steps 18).run s).1.1.step.run s).1.2.any
      (· matches .finished) = true := by decide +kernel
  have hlists : (((start p {}).steps 18).run s).2.countP Call.isList = 5 := by decide +kernel
  have hstats : (((start p {}).steps 18).run s).2.countP Call.isStat = 8 := by decide +kernel
  generalize htaken : ((start p {}).steps 18).run s = run at hfinishes hlists hstats
  obtain ⟨⟨w, es⟩, log⟩ := run
  dsimp only at hfinishes hlists hstats
  generalize hlast : w.step.run s = last at hfinishes
  obtain ⟨⟨v, event⟩, calls⟩ := last
  match event with
  | some .finished =>
    obtain ⟨hpaid, hwork⟩ := steps_paidFor_calls p {} htaken hlast
    exact ⟨w, es, log, v, calls, rfl, hlast, hlists, hstats, hpaid, hwork 17 (by decide)⟩

end Walker

end TreeQuery
