import TreeQuery.Proofs.Failures

/-!
# Contents are read on the way

A walk in content mode is the walk in stats mode that, before it reports a match,
reads and parses its file. So nothing about its events has to be said again: they
are those of the walk in stats mode, gone through with `readMatches`, and the reads
that it makes are the calls of `readMatches`. Its other calls are those of the walk in
stats mode, which makes no read.

The two walks take their steps together, with the same frames on their stacks, until a
file cannot be read or parsed. One lemma about one step (`Step.read_or_stop`) says
both what goes on together and how that ends; the rest is induction on the number of
steps.
-/

namespace TreeQuery

/-- Does the call read a file? -/
def Call.isRead : Call → Bool
  | .read _ => true
  | .list _ => false
  | .stat _ => false

/-- Is the failure one of the contents of a file? -/
def WalkError.ofContents : WalkError → Bool
  | .read _ _ => true
  | .parse _ _ => true
  | .list _ _ => false
  | .stat _ _ => false

/-- **Read a match.** One whose name, the end of its path, does not end in `.json`
comes to nothing; any other one gets the value that its file holds. -/
def Match.filled (m : Match) : Access (Except WalkError (Option Match)) :=
  if isJsonName m.path.text then do
    match ← Access.read m.path with
    | .error cause => pure (.error (.read m.path cause))
    | .ok bytes =>
      match Json.parse bytes with
      | .error cause => pure (.error (.parse m.path cause))
      | .ok value => pure (.ok (some { m with content := some value }))
  else pure (.ok none)

/-- **Go through events and read the matches** in their order. The first file that
cannot be read or parsed ends the events with its failure. -/
def readMatches : List WalkEvent → Access (List WalkEvent)
  | [] => pure []
  | .found m :: rest => do
    match ← m.filled with
    | .error e => pure [.failed e]
    | .ok found =>
      let others ← readMatches rest
      pure ((found.map .found).toList ++ others)
  | .finished :: rest => do
    let others ← readMatches rest
    pure (.finished :: others)
  | .failed e :: rest => do
    let others ← readMatches rest
    pure (.failed e :: others)

/-! ## Names that end in `.json` -/

/-- What a text with a slash at its end, or none at all, is put in front of ends as
before in a text without a slash. -/
theorem suffix_append_iff_of_slash {t before name : List Char} (ht : '/' ∉ t)
    (hbefore : ∀ c ∈ before.getLast?, c = '/') : t <:+ before ++ name ↔ t <:+ name := by
  refine ⟨fun h => ?_, List.suffix_append_of_suffix⟩
  rcases List.suffix_or_suffix_of_suffix h (List.suffix_append before name) with h' | ⟨front, rfl⟩
  · exact h'
  · -- what is left of `t` in front of the name would end in the slash
    obtain ⟨rest, rfl⟩ := (List.suffix_append_self_iff).mp h
    rcases List.eq_nil_or_concat front with rfl | ⟨init, last, rfl⟩
    · exact List.suffix_rfl
    · have hlast : last = '/' := hbefore last (by simp)
      exact absurd (by simp [hlast]) ht

/-- **The path of an entry ends in `.json` exactly if its name does.** -/
theorem Path.isJsonName_entry (dir : Path) (name : String) :
    isJsonName (dir.entry name).text = isJsonName name := by
  unfold Path.entry
  cases habs : Path.isAbsolute ⟨name⟩ with
  | true => rw [Path.join, if_pos habs]
  | false =>
    rw [Path.join_of_relative habs, Bool.eq_iff_iff]
    unfold isJsonName
    rw [List.isSuffixOf_iff_suffix, List.isSuffixOf_iff_suffix, String.toList_append,
      String.toList_append]
    refine suffix_append_iff_of_slash (by decide) fun c hc => ?_
    unfold Path.needsSlash at hc
    split at hc
    · next hnone =>
      rw [List.getLast?_eq_none_iff] at hnone
      simp [hnone] at hc
    · next d hd =>
      by_cases hslash : d = '/'
      · simp only [hslash, bne_self_eq_false, Bool.false_eq_true, if_false, String.toList_empty,
          List.append_nil, hd, Option.mem_def, Option.some.injEq] at hc
        exact hc.symm
      · have hlast : some '/' = some c := by
          simpa [hslash] using hc
        exact (Option.some.inj hlast).symm

namespace Access

variable {α β : Type} {P : Call → Prop}

/-- **Only calls of one kind**: whatever is answered, every call has the property. -/
inductive Only (P : Call → Prop) : Access α → Prop
  | done (a : α) : Only P (.done a)
  | ask {c : Call} {k : c.Answer → Access α} (here : P c) (later : ∀ answer, Only P (k answer)) :
      Only P (.ask c k)

namespace Only

theorem bind {m : Access α} (hm : Only P m) {f : α → Access β} (hf : ∀ a, Only P (f a)) :
    Only P (m >>= f) := by
  induction hm with
  | done a => exact hf a
  | ask here _ ih => exact .ask here ih

/-- The calls that are made on a store have the property. -/
theorem run {m : Access α} (hm : Only P m) (s : Store) : ∀ c ∈ (m.run s).2, P c := by
  induction hm with
  | done a => exact fun c hc => absurd hc List.not_mem_nil
  | ask here _ ih =>
    rw [run_ask]
    exact List.forall_mem_cons.mpr ⟨here, ih _⟩

/-- Stores that answer these calls alike cannot be told apart. -/
theorem run_congr {m : Access α} (hm : Only P m) {s s' : Store} (h : ∀ c, P c → s' c = s c) :
    m.run s' = m.run s := by
  induction hm with
  | done a => rfl
  | ask here _ ih => rw [run_ask, run_ask, h _ here, ih]

end Only

end Access

/-! ## Which calls are reads -/

/-- Statting names makes no calls but these. -/
theorem only_statAll {P : Call → Prop} {dir : Path} {names : List String}
    (h : ∀ n ∈ names, P (.stat (dir.entry n))) : (statAll dir names).Only P := by
  refine Access.Only.bind ?_ fun result => .done _
  induction names with
  | nil => exact .done _
  | cons n names ih =>
    obtain ⟨hfirst, hothers⟩ := List.forall_mem_cons.mp h
    refine .ask hfirst fun answer => ?_
    cases answer with
    | ok m => exact (ih hothers).bind fun result => .done _
    | error r =>
      show (ite (r.late = 0) _ _ : Access _).Only P
      split
      · exact .done _
      · exact (ih hothers).bind fun result => .done _

/-- Loading a frame reads nothing. -/
theorem Frame.only_load (f : Frame) (o : WalkOptions) :
    (f.load o).Only fun c => c.isRead = false := by
  refine .ask rfl fun answer => ?_
  cases answer with
  | error e => exact .done _
  | ok names =>
    exact (only_statAll fun _ _ => rfl).bind fun result => by cases result <;> exact .done _

/-- Reading a match makes no call but the one that reads its file. -/
theorem Match.only_filled {P : Call → Prop} {m : Match} (h : P (.read m.path)) :
    m.filled.Only P := by
  unfold Match.filled
  split
  · refine .ask h fun answer => ?_
    cases answer with
    | error cause => exact .done _
    | ok bytes => simp only [Access.bind]; split <;> exact .done _
  · exact .done _

/-- The failure of a read is one of contents, and that of another call is none. -/
theorem Call.ofContents_eq_isRead {c : Call} {answer : c.Answer} {e : WalkError}
    (h : c.failure? answer = some e) : e.ofContents = c.isRead := by
  unfold Call.failure? at h
  split at h
  · cases h; rfl
  · cases h; rfl
  · cases h; rfl
  · cases h
  · cases h
  · split at h <;> cases h
    rfl

/-- What a computation fails with is a failure of contents if it only reads, and none
if it reads nothing. -/
theorem GivesUp.ofContents_eq {α : Type} {s : Store} {m : Access (Except WalkError α)}
    (hm : GivesUp m) {e : WalkError} {calls : List Call} (h : m.run s = (.error e, calls))
    {b : Bool} (hcalls : ∀ c ∈ calls, c.isRead = b) : e.ofContents = b := by
  obtain ⟨c, hc, he⟩ := hm.exists_failure h
  exact (Call.ofContents_eq_isRead he).trans (hcalls c hc)

/-- In content mode the match of a frame is the one of stats mode, read. -/
theorem Frame.matchOf_content (f : Frame) (o : WalkOptions) (e : Entry) :
    matchOf { o with mode := .content } (f.pathOf e) e
      = (⟨f.pathOf e, e.metadata, none⟩ : Match).filled := by
  have hname : isJsonName (f.pathOf e).text = isJsonName e.name :=
    Path.isJsonName_entry f.directory e.name
  show _ = if isJsonName (f.pathOf e).text then _ else _
  generalize isJsonName (f.pathOf e).text = json at hname ⊢
  subst hname
  rfl

/-- In stats mode the match of a frame is what is known about it. -/
theorem Frame.matchOf_stats (f : Frame) {o : WalkOptions} (hmode : o.mode = .stats) (e : Entry) :
    matchOf o (f.pathOf e) e = pure (.ok (some ⟨f.pathOf e, e.metadata, none⟩)) := by
  unfold matchOf
  rw [hmode]

/-! ## One step -/

namespace Walker

variable {s : Store}

/-- The walk with the contents of its matches. -/
def withContents (w : Walker) : Walker :=
  { w with options := { w.options with mode := .content } }

/-- **Events go through a reading**: whatever comes behind them, the events `es` make
the reads `reads` and come to `es'`. -/
def ReadAs (s : Store) (es : List WalkEvent) (reads : List Call) (es' : List WalkEvent) : Prop :=
  ∀ rest, (readMatches (es ++ rest)).run s
    = (es' ++ ((readMatches rest).run s).1, reads ++ ((readMatches rest).run s).2)

theorem ReadAs.nil (s : Store) : ReadAs s [] [] [] := fun _ => rfl

/-- The event that ends a walk goes through as it is. -/
theorem ReadAs.terminal {e : WalkEvent} (he : e.isTerminal = true) : ReadAs s [e] [] [e] := by
  intro rest
  cases e with
  | found m => cases he
  | finished => simp [readMatches, Access.run_bind]
  | failed e => simp [readMatches, Access.run_bind]

/-- A match goes through as what it comes to. -/
theorem ReadAs.found {m : Match} {found : Option Match} {reads : List Call}
    (h : m.filled.run s = (.ok found, reads)) :
    ReadAs s [.found m] reads (found.map .found).toList := by
  intro rest
  simp [readMatches, Access.run_bind, h]

/-- Nothing goes through behind a match that cannot be read. -/
theorem run_readMatches_of_error {m : Match} {e : WalkError} {reads : List Call}
    (h : m.filled.run s = (.error e, reads)) (rest : List WalkEvent) :
    (readMatches (.found m :: rest)).run s = ([.failed e], reads) := by
  simp [readMatches, Access.run_bind, h]

/-- **A step with reads.** In stats mode nothing is read. In content mode the same
step is taken, with the reads of its match behind its calls; or the match cannot be
read or parsed, which ends the walk. -/
theorem Step.read_or_stop {w v : Walker} {event : Option WalkEvent} {calls : List Call}
    (hmode : w.options.mode = .stats) (h : Step s w event calls v) :
    v.options.mode = .stats ∧ (∀ c ∈ calls, c.isRead = false) ∧
      ∃ reads, (∀ c ∈ reads, c.isRead = true) ∧
        ((∃ event', Step s w.withContents event' (calls ++ reads) v.withContents ∧
            ReadAs s event.toList reads event'.toList ∧
            ∀ e, event' = some (.failed e) → e.ofContents = false) ∨
          ∃ e u, Step s w.withContents (some (.failed e)) (calls ++ reads) u ∧
            e.ofContents = true ∧
            ∀ rest, (readMatches (event.toList ++ rest)).run s = ([.failed e], reads)) := by
  have hnone : ∀ b, ∀ c ∈ ([] : List Call), c.isRead = b := by simp
  cases h with
  | rest ended => exact ⟨hmode, hnone _, [], hnone _, .inl ⟨none, .rest ended, .nil s, by simp⟩⟩
  | finish => exact ⟨hmode, hnone _, [], hnone _, .inl ⟨_, .finish, .terminal rfl, by simp⟩⟩
  | pop spent => exact ⟨hmode, hnone _, [], hnone _, .inl ⟨none, .pop spent, .nil s, by simp⟩⟩
  | skip due action =>
    exact ⟨hmode, hnone _, [], hnone _, .inl ⟨none, .skip due action, .nil s, by simp⟩⟩
  | descend due action =>
    exact ⟨hmode, hnone _, [], hnone _, .inl ⟨none, .descend due action, .nil s, by simp⟩⟩
  | @load p o f below entries calls fresh loaded =>
    have hcalls := (f.only_load o).run s
    rw [loaded] at hcalls
    refine ⟨hmode, hcalls, [], hnone _, .inl ⟨none, ?_, .nil s, by simp⟩⟩
    rw [List.append_nil]
    exact .load fresh loaded
  | @loadFailed p o f below e calls fresh refused =>
    have hcalls := (f.only_load o).run s
    rw [refused] at hcalls
    refine ⟨hmode, hcalls, [], hnone _, .inl ⟨some (.failed e), ?_, .terminal rfl, ?_⟩⟩
    · rw [List.append_nil]
      exact .loadFailed fresh refused
    · rintro _ ⟨⟩
      exact (GivesUp.load f o).ofContents_eq refused hcalls
  | @emit p o f below taken ahead e found calls due action read =>
    rw [f.matchOf_stats hmode] at read
    cases read
    have hreads := (Match.only_filled (P := fun c => c.isRead = true)
      (m := ⟨f.pathOf e, e.metadata, none⟩) rfl).run s
    have hsame := congrArg (Access.run s) (f.matchOf_content o e)
    refine ⟨hmode, hnone _, _, hreads, ?_⟩
    rcases hrun : (Match.filled ⟨f.pathOf e, e.metadata, none⟩).run s with ⟨error | found, reads⟩
    · rw [hrun] at hreads hsame
      exact .inr ⟨error, _, .emitFailed due action hsame,
        (GivesUp.matchOf _ _ _).ofContents_eq hsame hreads, run_readMatches_of_error hrun⟩
    · exact .inl ⟨found.map .found, .emit due action (hsame.trans hrun), .found hrun, by simp⟩
  | @emitFailed p o f below taken ahead e error calls due action refused =>
    rw [f.matchOf_stats hmode] at refused
    cases refused

/-! ## Many steps -/

/-- **A walk with contents along a walk without them**: what steps or waits of either
come to, as the walker at the end with the events, and the calls. -/
structure ReadAlong (s : Store) (stats content : (Walker × List WalkEvent) × List Call) : Prop where
  /-- The events are those without contents, gone through, and the reads are those of
  going through them. -/
  events : (readMatches stats.1.2).run s = (content.1.2, content.2.filter Call.isRead)
  /-- No other call is made than without contents. -/
  calls : content.2.filter (fun c => !c.isRead) <+: stats.2
  noRead : ∀ c ∈ stats.2, c.isRead = false
  /-- Unless a file cannot be read or parsed the same calls are made, up to the same
  walker. -/
  together : (∀ e, .failed e ∈ content.1.2 → e.ofContents = false) →
    content.2.filter (fun c => !c.isRead) = stats.2 ∧ content.1.1 = stats.1.1.withContents

/-- Calls that are not reads, and reads behind them, can be told apart. -/
theorem filter_isRead_append {calls reads : List Call} (hcalls : ∀ c ∈ calls, c.isRead = false)
    (hreads : ∀ c ∈ reads, c.isRead = true) :
    (calls ++ reads).filter Call.isRead = reads ∧
      (calls ++ reads).filter (fun c => !c.isRead) = calls := by
  rw [List.filter_append, List.filter_append]
  constructor
  · rw [List.filter_eq_nil_iff.mpr (by simpa using hcalls), List.filter_eq_self.mpr hreads,
      List.nil_append]
  · rw [List.filter_eq_self.mpr (by simpa using hcalls),
      List.filter_eq_nil_iff.mpr (by simpa using hreads), List.append_nil]

/-- **As many steps with contents as without.** -/
theorem steps_readAlong (s : Store) (n : Nat) {w : Walker} (hmode : w.options.mode = .stats) :
    ReadAlong s ((w.steps n).run s) ((w.withContents.steps n).run s) := by
  induction n generalizing w with
  | zero => exact ⟨rfl, List.prefix_rfl, by simp, fun _ => ⟨rfl, rfl⟩⟩
  | succ n ih =>
    obtain ⟨event, calls, v, hstep⟩ := exists_step s w
    obtain ⟨hmode', hcalls, reads, hreads, hkind⟩ := hstep.read_or_stop hmode
    obtain ⟨hfilter, hothers⟩ := filter_isRead_append hcalls hreads
    rw [run_steps_succ hstep]
    rcases hkind with ⟨event', hstep', hread, hevent⟩ | ⟨e, u, hstep', he, hread⟩
    · obtain ⟨hevents, hprefix, hnoRead, htogether⟩ := ih hmode'
      rw [run_steps_succ hstep']
      refine ⟨?_, ?_, List.forall_mem_append.mpr ⟨hcalls, hnoRead⟩, fun hfine => ?_⟩
      · rw [hread, hevents, List.filter_append, hfilter]
      · rw [List.filter_append, hothers]
        exact (List.prefix_append_right_inj calls).mpr hprefix
      · obtain ⟨hlog, hend⟩ := htogether fun e he => hfine e (List.mem_append_right _ he)
        exact ⟨by rw [List.filter_append, hothers, hlog], hend⟩
    · -- the walk with contents has ended here, and what the other one still does is cut off
      have hstop : (w.withContents.steps (n + 1)).run s = ((u, [.failed e]), calls ++ reads) := by
        simp [run_steps_succ hstep', run_steps_of_halted hstep'.halted_eq_isTerminal]
      rw [hstop]
      refine ⟨?_, ?_, List.forall_mem_append.mpr ⟨hcalls, (ih hmode').noRead⟩, fun hfine => ?_⟩
      · rw [hread, hfilter]
      · rw [hothers]
        exact List.prefix_append calls _
      · have hnot := hfine e (List.mem_singleton_self _)
        rw [he] at hnot
        cases hnot

/-! ## Whole walks -/

/-- A walk with contents ends where the walk without them ends, or before. -/
theorem ReadAlong.halted {stats content : (Walker × List WalkEvent) × List Call} {w : Walker}
    (h : ReadAlong s stats content) (reached : Reaches s w content.1.2 content.2 content.1.1)
    (ended : stats.1.1.halted = true) : content.1.1.halted = true := by
  by_cases hfine : ∀ e, .failed e ∈ content.1.2 → e.ofContents = false
  · rw [(h.together hfine).2]
    exact ended
  · push Not at hfine
    obtain ⟨e, hmem, _⟩ := hfine
    exact (reached.ended_of_isTerminal hmem rfl).1

/-- **Contents are read on the way.** After any number of steps, and when all events
are pulled from a walk that ends: the events with contents are those without them,
gone through match by match. The reads are those of going through the matches; the
other calls are those made without contents, all of them if no file fails to be read or
parsed; and without contents nothing is read. -/
theorem contents_read_along (p : Pattern) (o : WalkOptions) (s : Store) :
    (∀ n, ReadAlong s (((start p { o with mode := .stats }).steps n).run s)
        (((start p { o with mode := .content }).steps n).run s)) ∧
      ∀ {es log v}, Reaches s (start p { o with mode := .stats }) es log v → v.halted = true →
        ∃ enough es' log' v', v'.halted = true ∧ ReadAlong s ((v, es), log) ((v', es'), log') ∧
          ∀ bound count, enough ≤ bound → enough ≤ count →
            ((start p { o with mode := .stats }).events bound count).run s = ((v, es), log) ∧
            ((start p { o with mode := .content }).events bound count).run s
              = ((v', es'), log') := by
  refine ⟨fun n => steps_readAlong s n rfl, ?_⟩
  intro es log v hreached hended
  obtain ⟨m, hm⟩ := hreached.exists_run_events hended
  obtain ⟨n, hn⟩ := hreached
  have halong : ReadAlong s (((start p { o with mode := .stats }).steps n).run s)
      (((start p { o with mode := .content }).steps n).run s) := steps_readAlong s n rfl
  rw [hn] at halong
  have hcontent := Reaches.of_steps s n (start p { o with mode := .content })
  have hended' := halong.halted hcontent hended
  obtain ⟨m', hm'⟩ := hcontent.exists_run_events hended'
  refine ⟨max m m', _, _, _, hended', halong, fun bound count hb hc => ⟨?_, ?_⟩⟩
  · exact hm bound count (by omega) (by omega)
  · exact hm' bound count (by omega) (by omega)

end Walker

end TreeQuery
