import TreeQuery.Selection.Session
import TreeQuery.Proofs.Histories
import TreeQuery.Proofs.Trees

/-!
# Giving a selection up

A driver that waits for the flag goes on when the flag is cleared, and whoever holds the
flag can clear it, also after the selection itself has been given up. So what keeps such a
driver from reading on is not the flag. Giving a selection up takes the driver away, in
whatever it was about to do, and nothing that is done later brings it back
(`Selection.gone_acts`).

The flag outlives the selection. It belongs to those who hold it, and goes on to tell what
they last did to it.

A selection is given up by dropping it, and also by collecting from it: collecting uses it
up, whether it comes to an end or is given up on the way (`Selection.exists_collect_eq_drop`).
-/

namespace TreeQuery

namespace Selection

/-- What an act sets the flag to, if it does. -/
def Act.flag? : Act → Option Bool
  | .pause => some true
  | .resume => some false
  | .poll => none
  | .turn => none
  | .drop => none

/-- What the last pause or resume sets the flag to, if there is one. -/
def lastFlag? : List Act → Option Bool
  | [] => none
  | a :: rest => (lastFlag? rest).or a.flag?

/-- **The selection is over for good**: whatever is done to it, and however long the driver
is let run, no call is made and no event is received, the walk stands where it stood, and the
flag tells the last pause or resume. -/
structure Over (s : Store) (signals : Signals) (x : Selection) : Prop where
  calls : ∀ as, calls (acts s signals as x).2 = []
  received : ∀ as, received (acts s signals as x).2 = []
  walker : ∀ as, (acts s signals as x).1.walker = x.walker
  flag : ∀ as, (acts s signals as x).1.paused = (lastFlag? as).getD x.paused

variable {s : Store} {signals : Signals} {x x' : Selection} {a : Act} {t : Trace}

/-- With the driver gone, an act changes at most the flag. -/
theorem stays_happens (h : x.Gone) (happens : Happens s signals x a t x') :
    x'.walker = x.walker ∧ x'.paused = a.flag?.getD x.paused := by
  cases happens with
  | poll answered => cases answered <;> exact ⟨rfl, rfl⟩
  | pause | resume | stuck _ | drop => exact ⟨rfl, rfl⟩
  | turn turn | call turn => cases turn <;> simp_all [h.stopped]

/-- **With the driver gone, nothing comes of any acts**, and the flag is what the last of
them set it to. -/
theorem gone_acts (s : Store) (signals : Signals) (h : x.Gone) (as : List Act) :
    calls (acts s signals as x).2 = [] ∧ received (acts s signals as x).2 = [] ∧
      (acts s signals as x).1.walker = x.walker ∧
      (acts s signals as x).1.paused = (lastFlag? as).getD x.paused := by
  induction as generalizing x with
  | nil => exact ⟨rfl, rfl, rfl, rfl⟩
  | cons a as ih =>
    have happens := happens_act s signals x a
    obtain ⟨hgone, hevent, hcall⟩ := gone_happens h happens
    obtain ⟨hwalker, hflag⟩ := stays_happens h happens
    obtain ⟨hcalls, hreceived, hwalker', hflag'⟩ := ih hgone
    rw [acts_cons, calls_cons, received_cons, hevent, hcall, hcalls, hreceived]
    refine ⟨rfl, rfl, hwalker'.trans hwalker, ?_⟩
    rw [hflag', hflag, lastFlag?]
    cases lastFlag? as <;> rfl

/-- A selection is over when its driver is gone. -/
theorem Gone.over (h : x.Gone) (s : Store) (signals : Signals) : x.Over s signals where
  calls as := (gone_acts s signals h as).1
  received as := (gone_acts s signals h as).2.1
  walker as := (gone_acts s signals h as).2.2.1
  flag as := (gone_acts s signals h as).2.2.2

/-- **Collecting uses a selection up**: whatever it comes to, the selection is dropped in the
end. -/
theorem exists_collect_eq_drop (s : Store) (signals : Signals) (turns count : Nat)
    (x : Selection) : ∃ y : Selection, (x.collect s signals turns count).1 = y.drop := by
  induction count generalizing x with
  | zero => exact ⟨x, rfl⟩
  | succ count ih =>
    rw [collect]
    split
    · next y _ _ => exact ⟨y, rfl⟩
    · next y _ _ => exact ⟨y, rfl⟩
    · next y _ _ => exact ⟨y, rfl⟩
    · next y _ _ _ => exact ⟨y, rfl⟩
    · next y _ _ _ => exact ih y

/-- **Giving a selection up ends the walk for good.** Take any history of a selection of any
walk: the driver may wait for a demand or for the flag, be in the middle of a step, or hold
an event in its hands. If the selection is dropped then, the walk and the flag are left as
they are, and the selection is over: of whatever is done later, and however long the driver
is let run, no call comes, so that all calls are those made before, and the flag tells the
last pause or resume. The same holds when events are collected from the selection, also
where collecting is given up. -/
theorem over_of_given_up (s : Store) (signals : Signals) (w : Walker) (as : List Act) :
    let x := (acts s signals as (start w)).1
    x.drop.Over s signals ∧ x.drop.walker = x.walker ∧ x.drop.paused = x.paused ∧
      (∀ later, calls (acts s signals (as ++ .drop :: later) (start w)).2
        = calls (acts s signals as (start w)).2) ∧
      ∀ turns count, (x.collect s signals turns count).1.Over s signals := by
  intro x
  have hover : x.drop.Over s signals := x.gone_drop.over s signals
  refine ⟨hover, rfl, rfl, fun later => ?_, fun turns count => ?_⟩
  · have hlater : calls (acts s signals later x.drop).2 = [] := hover.calls later
    rw [acts_append, acts_cons, calls_append, calls_cons]
    exact (congrArg _ hlater).trans (List.append_nil _)
  · obtain ⟨y, hy⟩ := exists_collect_eq_drop s signals turns count x
    rw [hy]
    exact y.gone_drop.over s signals

/-- The driver waits for the flag when the selection is dropped. Clearing the flag then leads
to no call, where without the drop it would have led to three. -/
example :
    let acts := acts Memory.refusing.store fun _ => none
    let parked := [.poll, .pause, .turn, .turn]
    let walk := start (Walker.start ⟨.globstar, [.wildcard "*.json"]⟩ {})
    calls (acts (parked ++ [.drop, .resume] ++ List.replicate 4 .turn) walk).2 = [] ∧
      calls (acts (parked ++ [.resume] ++ List.replicate 4 .turn) walk).2
        = [.list ⟨""⟩, .stat ⟨"a"⟩, .stat ⟨"c.json"⟩] := by
  decide +kernel

end Selection

end TreeQuery
