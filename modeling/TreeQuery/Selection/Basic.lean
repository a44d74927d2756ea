import TreeQuery.Walk.Walker

/-!
# Selections: a walk driven on demand

A *selection* is a walk that a driver works off beside its consumer. The
driver waits until an event is asked for, then steps the walk until it has
one, hands it over, and waits again. It never runs ahead: nothing is read
before the first event is asked for, nor between an event and the next demand.

A flag can pause the driver. It is looked at before every step, so a step that
has begun is finished; the flag is a flag and not a count, so one resume undoes
any number of pauses.

Three things lie between the two sides: at most one stored demand, a slot for
at most one event, and the consumer's own note that an event has been asked
for and not yet received. That note outlives a consumer who stops waiting: the
demand stands, and asking again does not repeat it.

`turn?` is one turn of the driver, as small as it can be – taking a demand,
starting a step, making one call of it, ending it, handing over its event – so
that the consumer's doings may fall between any two calls. `Act` lists all that
can happen to a selection.
-/

namespace TreeQuery

/-- What the driver of a selection is about to do. -/
inductive Driver
  /-- Wait for a demand. -/
  | idle
  /-- A demand has been taken: start a step, unless paused. -/
  | ready
  /-- Go on with a step. -/
  | stepping (rest : Access (Walker × Option WalkEvent))
  /-- Hand over an event. -/
  | sending (event : WalkEvent)
  /-- Nothing any more: the walk is over, or nobody wants its events. -/
  | stopped

/-- A walk, its driver, and what lies between driver and consumer. -/
structure Selection where
  /-- The walk as of the last step that has ended. -/
  walker : Walker
  driver : Driver
  /-- A demand that the driver has not taken yet. -/
  demand : Bool
  /-- An event that the consumer has not taken yet. -/
  slot : Option WalkEvent
  /-- Has an event been asked for and not been received? -/
  requested : Bool
  paused : Bool

/-- How calls set the pause flag: a call may pause the selection, resume it, or
leave the flag alone. -/
abbrev Signals := Call → Option Bool

namespace Selection

/-- Start driving a walk. -/
def start (w : Walker) : Selection :=
  ⟨w, .idle, false, none, false, false⟩

/-- Start no step from now on. -/
def pause (x : Selection) : Selection :=
  { x with paused := true }

/-- Go on from where the walk stopped. -/
def resume (x : Selection) : Selection :=
  { x with paused := false }

/-- Give the selection up: its driver never runs again. The flag remains, for
those who hold it.

That the driver never runs again is an assumption about what runs it. Giving up
aborts the task that the driver is, and an aborted task is taken to make no call
after that, not even the rest of a step that it was in the middle of. -/
def drop (x : Selection) : Selection :=
  { x with driver := .stopped, demand := false, slot := none, requested := false }

/-- Is the driver done for good? -/
def isStopped (x : Selection) : Bool :=
  match x.driver with
  | .stopped => true
  | _ => false

/-- Ask once for the next event, without letting the driver run. The first
asking leaves a demand, which stands until an event is received. -/
def poll (x : Selection) : Selection × Polled :=
  let x := if x.requested then x else { x with demand := true, requested := true }
  match x.slot with
  | some e => ({ x with slot := none, requested := false }, .ready (some e))
  | none =>
    if x.isStopped then ({ x with requested := false }, .ready none) else (x, .pending)

/-- One turn of the driver against a store, with the call that it made, if any.
There is none while the driver has to wait. Before it waits for a demand, and
before it looks at the flag, the driver sees whether the walk has ended. -/
def turn? (s : Store) (signals : Signals) (x : Selection) :
    Option (Selection × Option Call) :=
  match x.driver with
  | .idle =>
    if x.walker.halted then some ({ x with driver := .stopped }, none)
    else if x.demand then some ({ x with driver := .ready, demand := false }, none) else none
  | .ready =>
    if x.walker.halted then some ({ x with driver := .stopped }, none)
    else if x.paused then none else some ({ x with driver := .stepping x.walker.step }, none)
  | .stepping (.ask c k) =>
    some ({ x with driver := .stepping (k (s c)), paused := (signals c).getD x.paused }, some c)
  | .stepping (.done (w, none)) => some ({ x with walker := w, driver := .ready }, none)
  | .stepping (.done (w, some e)) => some ({ x with walker := w, driver := .sending e }, none)
  | .sending e =>
    if x.slot.isSome then none else some ({ x with slot := some e, driver := .idle }, none)
  | .stopped => none

/-- All that can happen to a selection. -/
inductive Act
  | poll
  | pause
  | resume
  | turn
  | drop
  deriving DecidableEq, Repr

/-- What came of an act: an answer for the consumer, or a call of the driver. -/
inductive Trace
  | silent
  | polled (answer : Polled)
  | called (call : Call)
  deriving Repr

/-- Let something happen. A turn of a driver that has to wait changes nothing. -/
def act (s : Store) (signals : Signals) (x : Selection) : Act → Selection × Trace
  | .poll => let (x, answer) := x.poll; (x, .polled answer)
  | .pause => (x.pause, .silent)
  | .resume => (x.resume, .silent)
  | .turn =>
    match x.turn? s signals with
    | some (x, some c) => (x, .called c)
    | some (x, none) => (x, .silent)
    | none => (x, .silent)
  | .drop => (x.drop, .silent)

end Selection

end TreeQuery
