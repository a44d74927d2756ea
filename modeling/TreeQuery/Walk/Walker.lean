import TreeQuery.Walk.Frame

/-!
# Walkers

A `Walker` is a walk between two of its steps. One `step` does one unit of
work on the top frame: load it, take one entry, or drop the frame when no entry
is ahead. When the stack is empty the step reports that the walk is finished;
a failure empties the stack. From then on the walker is *halted*: it makes no
call and gives no event.

A step is a computation over a store (`Access`), so a driver can stop between
two of its calls. The loops over steps – up to the next event, or up to the
end – are bounded by a number of steps; `TreeQuery.Walk.Bound` has bounds that
are never reached.
-/

namespace TreeQuery

/-- A walk between two steps. -/
structure Walker where
  pattern : Pattern
  options : WalkOptions
  /-- The directories that the walk is inside of, the deepest first. -/
  stack : List Frame
  /-- Has the walk ended? -/
  halted : Bool

namespace Walker

/-- A walk that is about to begin. Nothing has been read. -/
def start (p : Pattern) (o : WalkOptions) : Walker :=
  ⟨p, o, [Frame.enter .root false p.first p.rest], false⟩

/-- A walk for a query. -/
def ofQuery (query : String) (o : WalkOptions) : Except PatternError Walker :=
  (Pattern.parse query).map fun p => start p o

/-- How many directories the walk is inside of. -/
def depth (w : Walker) : Nat :=
  w.stack.length

/-- The walker as shown in messages. -/
def text (w : Walker) : String :=
  "FsWalker \x7b pattern: " ++ Text.quoted w.pattern.text ++
    s!", options: {w.options}, depth: {w.depth}, halted: {w.halted} \x7d"

instance : ToString Walker := ⟨text⟩

/-- The end of a walk that failed. -/
def fail (w : Walker) (e : WalkError) : Walker × Option WalkEvent :=
  ({ w with stack := [], halted := true }, some (.failed e))

/-- Take the entry `e`, behind which `ahead` remains, from the loaded frame `f`
above `below`. -/
def take (w : Walker) (f : Frame) (taken : List Entry) (e : Entry) (ahead : List Entry)
    (below : List Frame) : Access (Walker × Option WalkEvent) :=
  let stack := { f with cursor := some ⟨e :: taken, ahead⟩ } :: below
  match f.action e with
  | .skip => pure ({ w with stack := stack }, none)
  | .descend frame => pure ({ w with stack := frame :: stack }, none)
  | .emit => do
    match ← matchOf w.options (f.pathOf e) e with
    | .error e => pure (w.fail e)
    | .ok found => pure ({ w with stack := stack }, found.map .found)

/-- One unit of work, and the event that it produced, if any. -/
def step (w : Walker) : Access (Walker × Option WalkEvent) :=
  if w.halted then pure (w, none)
  else match w.stack with
    | [] => pure ({ w with halted := true }, some .finished)
    | f :: below =>
      match f.cursor with
      | none => do
        match ← f.load w.options with
        | .error e => pure (w.fail e)
        | .ok entries =>
          pure ({ w with stack := { f with cursor := some ⟨[], entries⟩ } :: below }, none)
      | some ⟨_, []⟩ => pure ({ w with stack := below }, none)
      | some ⟨taken, e :: ahead⟩ => w.take f taken e ahead below

/-- Is the next step one that drops a frame? -/
def isSpent (w : Walker) : Bool :=
  match w.stack with
  | { cursor := some ⟨_, []⟩, .. } :: _ => true
  | _ => false

/-- Step up to the next event; there is none once the walk has ended. -/
def next (bound : Nat) (w : Walker) : Access (Walker × Option WalkEvent) :=
  match bound with
  | 0 => pure (w, none)
  | bound + 1 =>
    if w.halted then pure (w, none)
    else do
      match ← w.step with
      | (w, some e) => pure (w, some e)
      | (w, none) => w.next bound

/-- Ask once for the next event without waiting: the walk steps until it has
an event, but gives way to others before it drops a frame.

This is the walk of a store whose calls answer at once. Where a call has the walk
wait, asking once may be given up in the middle of a step too. -/
def poll (bound : Nat) (w : Walker) : Access (Walker × Polled) :=
  match bound with
  | 0 => pure (w, .pending)
  | bound + 1 =>
    if w.halted then pure (w, .ready none)
    else if w.isSpent then pure (w, .pending)
    else do
      match ← w.step with
      | (w, some e) => pure (w, .ready (some e))
      | (w, none) => w.poll bound

/-- All events that are still to come, at most `count` of them. -/
def events (bound : Nat) : (count : Nat) → Walker → Access (Walker × List WalkEvent)
  | 0, w => pure (w, [])
  | count + 1, w => do
    match ← w.next bound with
    | (w, none) => pure (w, [])
    | (w, some e) =>
      let (w, es) ← events bound count w
      pure (w, e :: es)

/-- All matches that are still to come, or the failure that ends the walk. -/
def collect (bound : Nat) : (count : Nat) → Walker → Access (Except WalkError (List Match))
  | 0, _ => pure (.ok [])
  | count + 1, w => do
    match ← w.next bound with
    | (_, none) => pure (.ok [])
    | (_, some .finished) => pure (.ok [])
    | (_, some (.failed e)) => pure (.error e)
    | (w, some (.found m)) => return (← collect bound count w).map (m :: ·)

/-- The walk as a stream: its matches, and the failure at the end if it fails. -/
def stream (bound : Nat) : (count : Nat) → Walker → Access (List (Except WalkError Match))
  | 0, _ => pure []
  | count + 1, w => do
    match ← w.next bound with
    | (_, none) => pure []
    | (_, some .finished) => pure []
    | (w, some (.failed e)) => return .error e :: (← stream bound count w)
    | (w, some (.found m)) => return .ok m :: (← stream bound count w)

end Walker

end TreeQuery
