import TreeQuery.Selection.Basic

/-!
# Consuming a selection

A consumer who waits lets the driver run until it has to wait itself. All that
a consumer does is built from asking once (`Selection.poll`) and letting the
driver run (`settle`). Every function returns the calls that were made.
-/

namespace TreeQuery.Selection

/-- Let the driver run until it has to wait, for at most `turns` turns. -/
def settle (s : Store) (signals : Signals) : (turns : Nat) → Selection → Selection × List Call
  | 0, x => (x, [])
  | turns + 1, x =>
    match x.turn? s signals with
    | none => (x, [])
    | some (x, call) =>
      let (x, calls) := settle s signals turns x
      (x, call.toList ++ calls)

/-- Wait for the next event. It stays pending if the driver cannot go on. -/
def next (s : Store) (signals : Signals) (turns : Nat) (x : Selection) :
    Selection × Polled × List Call :=
  match x.poll with
  | (x, .ready e) => (x, .ready e, [])
  | (x, .pending) =>
    let (x, calls) := x.settle s signals turns
    let (x, answer) := x.poll
    (x, answer, calls)

/-- Pause after a match, let some time pass, and go on. -/
def pauseAfter (s : Store) (signals : Signals) (turns : Nat) (x : Selection) :
    WalkEvent → Selection × List Call
  | .found _ =>
    let (x, calls) := x.pause.settle s signals turns
    (x.resume, calls)
  | _ => (x, [])

/-- Receive events until there are no more, at most `count` of them, pausing
after each match if `pausing` says so. -/
def events (s : Store) (signals : Signals) (turns : Nat) (pausing : Bool) :
    (count : Nat) → Selection → Selection × List WalkEvent × List Call
  | 0, x => (x, [], [])
  | count + 1, x =>
    match x.next s signals turns with
    | (x, .ready (some e), calls) =>
      let (x, more) := if pausing then x.pauseAfter s signals turns e else (x, [])
      let (x, es, rest) := events s signals turns pausing count x
      (x, e :: es, calls ++ more ++ rest)
    | (x, _, calls) => (x, [], calls)

/-- Receive all matches, or the failure that ends the walk. There is no result
if an event stays pending. The selection is used up either way. -/
def collect (s : Store) (signals : Signals) (turns : Nat) :
    (count : Nat) → Selection →
      Selection × Option (Except WalkError (List Match)) × List Call
  | 0, x => (x.drop, none, [])
  | count + 1, x =>
    match x.next s signals turns with
    | (x, .pending, calls) => (x.drop, none, calls)
    | (x, .ready none, calls) => (x.drop, some (.ok []), calls)
    | (x, .ready (some .finished), calls) => (x.drop, some (.ok []), calls)
    | (x, .ready (some (.failed e)), calls) => (x.drop, some (.error e), calls)
    | (x, .ready (some (.found m)), calls) =>
      let (x, result, rest) := collect s signals turns count x
      (x, result.map (·.map (m :: ·)), calls ++ rest)

end TreeQuery.Selection
