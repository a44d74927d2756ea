import TreeQuery.Selection.Basic
import TreeQuery.Proofs.Steps

/-!
# Histories of a selection

A history is what came of a list of acts, whatever their order: polls that are
answered or given up, pauses and resumes, turns of the driver. `Turn` says once
what a turn can do, `Answered` what a poll can do and `Happens` what any act can
do; whatever each of them keeps holds along every history (`acts_induct`).

`Live` is kept as long as the selection has not been given up: the walk stands
where the events received so far, the one in the slot and the one in the
driver's hands have left it, and the calls that were made are those of this
walk. Nothing of it depends on who asked when. `Gone` is kept afterwards, and
nothing happens any more.
-/

namespace TreeQuery

namespace Selection

/-- The event that the consumer received, if any. -/
def Trace.event? : Trace → Option WalkEvent
  | .polled (.ready e) => e
  | _ => none

/-- The call that the driver made, if any. -/
def Trace.call? : Trace → Option Call
  | .called c => some c
  | _ => none

variable {s : Store} {signals : Signals}

/-- Let things happen one after the other. -/
def acts (s : Store) (signals : Signals) : List Act → Selection → Selection × List Trace
  | [], x => (x, [])
  | a :: rest, x =>
    let (x, t) := x.act s signals a
    let (x, ts) := acts s signals rest x
    (x, t :: ts)

/-- The events that the consumer received in a history. -/
def received (history : List Trace) : List WalkEvent :=
  history.filterMap Trace.event?

/-- The calls that the driver made in a history. -/
def calls (history : List Trace) : List Call :=
  history.filterMap Trace.call?

/-- A first act, and the others. -/
theorem acts_cons (s : Store) (signals : Signals) (a : Act) (as : List Act) (x : Selection) :
    acts s signals (a :: as) x =
      ((acts s signals as (x.act s signals a).1).1,
        (x.act s signals a).2 :: (acts s signals as (x.act s signals a).1).2) := rfl

/-- What happens in two parts happens one after the other. -/
theorem acts_append (s : Store) (signals : Signals) (as bs : List Act) (x : Selection) :
    acts s signals (as ++ bs) x =
      ((acts s signals bs (acts s signals as x).1).1,
        (acts s signals as x).2 ++ (acts s signals bs (acts s signals as x).1).2) := by
  induction as generalizing x with
  | nil => rfl
  | cons a as ih =>
    rw [List.cons_append, acts_cons, acts_cons, ih]
    rfl

theorem received_append (history later : List Trace) :
    received (history ++ later) = received history ++ received later :=
  List.filterMap_append

theorem calls_append (history later : List Trace) :
    calls (history ++ later) = calls history ++ calls later :=
  List.filterMap_append

/-! ## What turns and acts can do -/

/-- **What a turn can do**: the call that is made and the selection after it. -/
inductive Turn (s : Store) (signals : Signals) (x : Selection) : Option Call → Selection → Prop
  /-- The walk is over. -/
  | retire (due : x.driver = .idle ∨ x.driver = .ready) (ended : x.walker.halted = true) :
      Turn s signals x none { x with driver := .stopped }
  | accept (due : x.driver = .idle) (running : x.walker.halted = false) (asked : x.demand = true) :
      Turn s signals x none { x with driver := .ready, demand := false }
  | begin (due : x.driver = .ready) (running : x.walker.halted = false) (free : x.paused = false) :
      Turn s signals x none { x with driver := .stepping x.walker.step }
  | call {c : Call} {k : c.Answer → Access (Walker × Option WalkEvent)}
      (due : x.driver = .stepping (.ask c k)) :
      Turn s signals x (some c)
        { x with driver := .stepping (k (s c)), paused := (signals c).getD x.paused }
  /-- A step without an event has ended; the next one is due. -/
  | again {w : Walker} (due : x.driver = .stepping (.done (w, none))) :
      Turn s signals x none { x with walker := w, driver := .ready }
  | produce {w : Walker} {e : WalkEvent} (due : x.driver = .stepping (.done (w, some e))) :
      Turn s signals x none { x with walker := w, driver := .sending e }
  | send {e : WalkEvent} (due : x.driver = .sending e) (free : x.slot = none) :
      Turn s signals x none { x with slot := some e, driver := .idle }

/-- **A turn is one of its kinds.** -/
theorem turn_of_turn? {x x' : Selection} {call : Option Call}
    (h : x.turn? s signals = some (x', call)) : Turn s signals x call x' := by
  unfold turn? at h
  split at h
  · next due =>
    split at h
    · next ended => cases h; exact .retire (.inl due) ended
    · next running =>
      split at h
      · next asked => cases h; exact .accept due (Bool.eq_false_iff.mpr running) asked
      · cases h
  · next due =>
    split at h
    · next ended => cases h; exact .retire (.inr due) ended
    · next running =>
      split at h
      · cases h
      · next free =>
        cases h
        exact .begin due (Bool.eq_false_iff.mpr running) (Bool.eq_false_iff.mpr free)
  · next due => cases h; exact .call due
  · next due => cases h; exact .again due
  · next due => cases h; exact .produce due
  · next due =>
    split at h
    · cases h
    · next free => cases h; exact .send due (by simpa using free)
  · cases h

/-- A turn of its kind is what the driver does. -/
theorem turn?_of_turn {x x' : Selection} {call : Option Call}
    (turn : Turn s signals x call x') : x.turn? s signals = some (x', call) := by
  cases turn with
  | retire due ended => rcases due with due | due <;> simp [turn?, due, ended]
  | accept due running asked => simp [turn?, due, running, asked]
  | begin due running free => simp [turn?, due, running, free]
  | call due => simp [turn?, due]
  | again due => simp [turn?, due]
  | produce due => simp [turn?, due]
  | send due free => simp [turn?, due, free]

/-- **What asking once can do**: the answer and the selection after it. -/
inductive Answered (x : Selection) : Polled → Selection → Prop
  | receive {e : WalkEvent} (there : x.slot = some e) :
      Answered x (.ready (some e))
        { x with demand := x.demand || !x.requested, slot := none, requested := false }
  | closed (empty : x.slot = none) (stopped : x.driver = .stopped) :
      Answered x (.ready none)
        { x with demand := x.demand || !x.requested, requested := false }
  | wait (empty : x.slot = none) (running : x.driver ≠ .stopped) :
      Answered x .pending { x with demand := x.demand || !x.requested, requested := true }

theorem isStopped_iff {x : Selection} : x.isStopped = true ↔ x.driver = .stopped := by
  unfold isStopped
  split
  · next h => simp [h]
  · next h => simpa using h

/-- **Asking once does one of these.** -/
theorem answered_poll (x : Selection) : Answered x x.poll.2 x.poll.1 := by
  have hasked : (if x.requested then x else { x with demand := true, requested := true })
      = { x with demand := x.demand || !x.requested, requested := true } := by
    obtain ⟨w, driver, demand, slot, requested, paused⟩ := x
    cases requested <;> simp
  unfold poll
  rw [hasked]
  dsimp only
  split
  · next e there => exact .receive there
  · next empty =>
    split
    · next stopped => exact .closed empty (isStopped_iff.mp stopped)
    · next running => exact .wait empty fun stopped => running (isStopped_iff.mpr stopped)

/-- **What an act can do**: what comes of it and the selection after it. -/
inductive Happens (s : Store) (signals : Signals) (x : Selection) :
    Act → Trace → Selection → Prop
  | poll {answer : Polled} {x' : Selection} (h : Answered x answer x') :
      Happens s signals x .poll (.polled answer) x'
  | pause : Happens s signals x .pause .silent x.pause
  | resume : Happens s signals x .resume .silent x.resume
  | turn {x' : Selection} (h : Turn s signals x none x') : Happens s signals x .turn .silent x'
  | call {c : Call} {x' : Selection} (h : Turn s signals x (some c) x') :
      Happens s signals x .turn (.called c) x'
  /-- The driver has to wait. -/
  | stuck (h : x.turn? s signals = none) : Happens s signals x .turn .silent x
  | drop : Happens s signals x .drop .silent x.drop

/-- **Every act does one of these.** -/
theorem happens_act (s : Store) (signals : Signals) (x : Selection) (a : Act) :
    Happens s signals x a (x.act s signals a).2 (x.act s signals a).1 := by
  cases a with
  | poll => exact .poll x.answered_poll
  | pause => exact .pause
  | resume => exact .resume
  | drop => exact .drop
  | turn =>
    unfold act
    match h : x.turn? s signals with
    | some (x', some c) => exact .call (turn_of_turn? h)
    | some (x', none) => exact .turn (turn_of_turn? h)
    | none => exact .stuck h

/-- **What every act of a list keeps holds along their history.** -/
theorem acts_induct {I : Selection → List Trace → Prop} {as : List Act}
    (step : ∀ {x x' : Selection} {past : List Trace} {a : Act} {t : Trace},
      a ∈ as → I x past → Happens s signals x a t x' → I x' (past ++ [t]))
    {x : Selection} {past : List Trace} (start : I x past) :
    I (acts s signals as x).1 (past ++ (acts s signals as x).2) := by
  induction as generalizing x past with
  | nil =>
    rw [acts, List.append_nil]
    exact start
  | cons a as ih =>
    have hfirst := step List.mem_cons_self start (happens_act s signals x a)
    have hrest := ih (fun ha => step (List.mem_cons_of_mem a ha)) hfirst
    rw [List.append_assoc] at hrest
    exact hrest

end Selection

/-! ## What holds of a live selection -/

namespace Driver

/-- The event that the driver is about to hand over. -/
def holding : Driver → Option WalkEvent
  | .sending e => some e
  | _ => none

/-- **What the driver keeps to**, given the walk `w` that it began with, the
walk `v` as of the last step, the events that it has handed over, and the calls
that it has made. -/
def Tracks (s : Store) (w v : Walker) (handed : List WalkEvent) (log : List Call) :
    Driver → Prop
  | .idle => w.Yields s handed log v
  | .ready => v.halted = false ∧ w.Midway s handed log v
  | .stepping rest => v.halted = false ∧ ∃ before made, w.Midway s handed before v ∧
      v.step.run s = ((rest.run s).1, made ++ (rest.run s).2) ∧ log = before ++ made
  | .sending e => w.Yields s (handed ++ [e]) log v
  | .stopped => v.halted = true ∧ w.Yields s handed log v

/-- **Nothing is lost on the way**: what was handed over and what is in the driver's
hands are the events that the walk has produced. -/
theorem Tracks.exists_reaches {s : Store} {w v : Walker} {handed : List WalkEvent}
    {log : List Call} {d : Driver} (h : d.Tracks s w v handed log) :
    ∃ before, w.Reaches s (handed ++ d.holding.toList) before v := by
  cases d with
  | idle => exact ⟨log, (List.append_nil handed).symm ▸ h.reaches⟩
  | ready => exact ⟨log, (List.append_nil handed).symm ▸ h.2.reaches⟩
  | stepping rest =>
    obtain ⟨_, before, _, hmidway, _⟩ := h
    exact ⟨before, (List.append_nil handed).symm ▸ hmidway.reaches⟩
  | sending e => exact ⟨log, h.reaches⟩
  | stopped => exact ⟨log, (List.append_nil handed).symm ▸ h.2.reaches⟩

/-- **No call is the driver's own**: the calls that it has made, and those left of the
step under way, are calls of the walk. -/
theorem Tracks.exists_reaches_calls {s : Store} {w v : Walker} {handed : List WalkEvent}
    {log : List Call} {d : Driver} (h : d.Tracks s w v handed log) :
    ∃ es left v', w.Reaches s es (log ++ left) v' := by
  cases d with
  | idle => exact ⟨_, [], v, (List.append_nil log).symm ▸ h.reaches⟩
  | ready => exact ⟨_, [], v, (List.append_nil log).symm ▸ h.2.reaches⟩
  | stepping rest =>
    obtain ⟨_, before, made, hmidway, hstep, rfl⟩ := h
    have hwhole := hmidway.reaches.trans (.of_step (Walker.step_iff.mpr hstep))
    rw [← List.append_assoc] at hwhole
    exact ⟨_, (rest.run s).2, _, hwhole⟩
  | sending e => exact ⟨_, [], v, (List.append_nil log).symm ▸ h.reaches⟩
  | stopped => exact ⟨_, [], v, (List.append_nil log).symm ▸ h.2.reaches⟩

end Driver

namespace Selection

variable {w : Walker} {x x' : Selection} {past : List Trace} {a : Act} {t : Trace}

/-- **What holds along a history** that has not been given up: the driver keeps to
the events that the consumer received and the one in the slot, and to the calls. -/
def Live (s : Store) (w : Walker) (x : Selection) (past : List Trace) : Prop :=
  x.driver.Tracks s w x.walker (received past ++ x.slot.toList) (calls past)

theorem received_concat (past : List Trace) (t : Trace) :
    received (past ++ [t]) = received past ++ t.event?.toList := by
  unfold received
  rw [List.filterMap_append]
  cases h : t.event? <;> simp [h]

theorem calls_concat (past : List Trace) (t : Trace) :
    calls (past ++ [t]) = calls past ++ t.call?.toList := by
  unfold calls
  rw [List.filterMap_append]
  cases h : t.call? <;> simp [h]

theorem received_cons (t : Trace) (history : List Trace) :
    received (t :: history) = t.event?.toList ++ received history := by
  rw [← List.singleton_append, received_append]
  exact congrArg (· ++ received history) (received_concat [] t)

theorem calls_cons (t : Trace) (history : List Trace) :
    calls (t :: history) = t.call?.toList ++ calls history := by
  rw [← List.singleton_append, calls_append]
  exact congrArg (· ++ calls history) (calls_concat [] t)

theorem live_start (s : Store) (w : Walker) : Live s w (start w) [] := .start

/-- **A turn keeps to the walk**: it makes the next call of the step under way,
takes up what a step has produced, or hands it over. -/
theorem tracks_turn {received : List WalkEvent} {log : List Call} {call : Option Call}
    (h : x.driver.Tracks s w x.walker (received ++ x.slot.toList) log)
    (turn : Turn s signals x call x') :
    x'.driver.Tracks s w x'.walker (received ++ x'.slot.toList) (log ++ call.toList) := by
  cases turn with
  | retire due ended =>
    rw [Option.toList_none, List.append_nil]
    rcases due with due | due
    · rw [due] at h
      exact ⟨ended, h⟩
    · rw [due] at h
      exact absurd (ended.symm.trans h.1) (by decide)
  | accept due running asked =>
    rw [due] at h
    rw [Option.toList_none, List.append_nil]
    exact ⟨running, h.midway⟩
  | begin due running free =>
    rw [due] at h
    rw [Option.toList_none, List.append_nil]
    exact ⟨running, log, [], h.2, rfl, (List.append_nil log).symm⟩
  | @call c k due =>
    rw [due] at h
    obtain ⟨running, before, made, hmidway, hstep, rfl⟩ := h
    refine ⟨running, before, made ++ [c], hmidway, ?_, List.append_assoc _ _ _⟩
    rw [hstep, Access.run_ask, List.append_assoc]
    rfl
  | again due =>
    rw [due] at h
    obtain ⟨running, before, made, hmidway, hstep, rfl⟩ := h
    -- nothing is left of the step, so what it did is the whole step
    rw [Access.run_done, List.append_nil] at hstep
    rw [Option.toList_none, List.append_nil]
    have hkind := Walker.step_iff.mpr hstep
    exact ⟨hkind.halted_of_silent.trans running, hmidway.silent hkind⟩
  | produce due =>
    rw [due] at h
    obtain ⟨running, before, made, hmidway, hstep, rfl⟩ := h
    rw [Access.run_done, List.append_nil] at hstep
    rw [Option.toList_none, List.append_nil]
    exact hmidway.event (Walker.step_iff.mpr hstep)
  | send due free =>
    rw [due, free, Option.toList_none, List.append_nil] at h
    rw [Option.toList_none, List.append_nil]
    exact h

/-- **Every act keeps to the walk**, short of giving the selection up. -/
theorem live_happens (h : Live s w x past) (ha : a ≠ .drop)
    (happens : Happens s signals x a t x') : Live s w x' (past ++ [t]) := by
  unfold Live at h ⊢
  rw [received_concat, calls_concat]
  cases happens with
  | poll answered =>
    cases answered with
    | receive there =>
      -- the event goes from the slot to the consumer
      rw [there] at h
      simpa [Trace.event?, Trace.call?] using h
    | closed empty stopped => simpa [Trace.event?, Trace.call?] using h
    | wait empty running => simpa [Trace.event?, Trace.call?] using h
  | pause => simpa [Trace.event?, Trace.call?, pause] using h
  | resume => simpa [Trace.event?, Trace.call?, resume] using h
  | stuck _ => simpa [Trace.event?, Trace.call?] using h
  | turn turn => simpa [Trace.event?, Trace.call?] using tracks_turn h turn
  | call turn => simpa [Trace.event?, Trace.call?] using tracks_turn h turn
  | drop => exact absurd rfl ha

/-- A selection that is not given up stays live. -/
theorem live_acts (s : Store) (signals : Signals) (w : Walker) {as : List Act}
    (kept : .drop ∉ as) : Live s w (acts s signals as (start w)).1 (acts s signals as (start w)).2 :=
  acts_induct (I := Live s w)
    (fun ha h happens => live_happens h (fun hdrop => kept (hdrop ▸ ha)) happens) (live_start s w)

/-! ## What holds of a selection that was given up -/

/-- **Nothing is left**: the driver is done for good, and nothing lies in the
slot. -/
structure Gone (x : Selection) : Prop where
  stopped : x.driver = .stopped
  empty : x.slot = none

/-- Giving a selection up leaves nothing. -/
theorem gone_drop (x : Selection) : x.drop.Gone := ⟨rfl, rfl⟩

/-- **Nothing happens any more**, whatever is done: no event is received and no
call is made. -/
theorem gone_happens (h : x.Gone) (happens : Happens s signals x a t x') :
    x'.Gone ∧ t.event? = none ∧ t.call? = none := by
  have hstuck : ∀ {call : Option Call} {x' : Selection}, ¬ Turn s signals x call x' := by
    intro call x' turn
    cases turn <;> simp_all [h.stopped]
  cases happens with
  | poll answered =>
    cases answered with
    | receive there => exact absurd (there.symm.trans h.empty) (by simp)
    | closed empty stopped => exact ⟨⟨stopped, empty⟩, rfl, rfl⟩
    | wait empty running => exact absurd h.stopped running
  | pause => exact ⟨⟨h.stopped, h.empty⟩, rfl, rfl⟩
  | resume => exact ⟨⟨h.stopped, h.empty⟩, rfl, rfl⟩
  | stuck _ => exact ⟨h, rfl, rfl⟩
  | drop => exact ⟨gone_drop x, rfl, rfl⟩
  | turn turn => exact absurd turn hstuck
  | call turn => exact absurd turn hstuck

end Selection

end TreeQuery
