import TreeQuery.Store.Memory
import TreeQuery.Proofs.Trees
import TreeQuery.Proofs.Steps

/-!
# Walks under command

Whoever holds a walker may have it take a step, wait for its next event, or ask for
the event once and give up if it is not there. Giving up undoes nothing: the steps
that were taken stay taken. It leaves nothing half done either, because the one place
where a walker gives way to others lies between two steps, in front of the one that
drops a frame.

So every command is a number of steps (`Walker.reaches_of_obey`), and whatever is
commanded, the walk is somewhere on its one way: it has given the events of the steps
that lead there, it has made their calls, and what it has not given yet is still to
come.
-/

namespace TreeQuery

/-- The event in an answer, if there is one. -/
def Polled.event? : Polled → Option WalkEvent
  | .ready event => event
  | .pending => none

namespace Walker

/-- What a walker can be told. -/
inductive Command
  /-- Take one step. -/
  | step
  /-- Wait for the next event. -/
  | next
  /-- Ask once for the next event, and give up if it is not there. -/
  | poll
  deriving DecidableEq, Repr

/-- Do as told. Waiting and asking may take `bound` steps. -/
def obey (bound : Nat) (w : Walker) : Command → Access (Walker × Option WalkEvent)
  | .step => w.step
  | .next => w.next bound
  | .poll => do
    let (w, answer) ← w.poll bound
    pure (w, answer.event?)

/-- Do as told, one command after the other, and keep the events. -/
def obeyAll (bound : Nat) : List Command → Walker → Access (Walker × List WalkEvent)
  | [], w => pure (w, [])
  | c :: commands, w => do
    let (w, e) ← w.obey bound c
    let (w, es) ← obeyAll bound commands w
    pure (w, e.toList ++ es)

variable {s : Store} {w v : Walker} {calls : List Call}

/-! ## Asking once -/

/-- Asking once is given up in front of a frame that is to be dropped. -/
theorem poll_of_isSpent (hw : w.halted = false) (hspent : w.isSpent = true) (bound : Nat) :
    w.poll (bound + 1) = pure (w, .pending) := by
  rw [poll, if_neg (by simp [hw]), if_pos hspent]

/-- Asking once goes past a step without an event. -/
theorem run_poll_of_silent (hw : w.halted = false) (hspent : w.isSpent = false)
    (h : Step s w none calls v) (bound : Nat) :
    (w.poll (bound + 1)).run s =
      (((v.poll bound).run s).1, calls ++ ((v.poll bound).run s).2) := by
  simp [poll, hw, hspent, Access.run_bind, h.run_eq]

/-- Asking once stops at a step that produces an event. -/
theorem run_poll_of_event {e : WalkEvent} (hspent : w.isSpent = false)
    (h : Step s w (some e) calls v) (bound : Nat) :
    (w.poll (bound + 1)).run s = ((v, .ready (some e)), calls) := by
  simp [poll, h.running, hspent, Access.run_bind, h.run_eq]

/-- A walk whose top frame has no entry ahead is about to drop it. -/
theorem isSpent_of_cursor {p : Pattern} {o : WalkOptions} {f : Frame} {below : List Frame}
    {taken : List Entry} {halted : Bool} (spent : f.cursor = some ⟨taken, []⟩) :
    isSpent ⟨p, o, f :: below, halted⟩ = true := by
  obtain ⟨dir, t, later, r, cursor⟩ := f
  cases spent
  rfl

/-- Only the step that is given way before drops a frame. -/
theorem Step.depth_le (h : Step s w none calls v) (hspent : w.isSpent = false) :
    w.depth ≤ v.depth := by
  generalize he : none = event at h
  cases h with
  | pop spent => exact absurd hspent (by rw [isSpent_of_cursor spent]; exact Bool.noConfusion)
  | descend due action => exact Nat.le_succ _
  | finish | loadFailed | emitFailed => cases he
  | _ => exact Nat.le_refl _

/-- **What asking once comes to**: a number of steps, with the event among its answer.
If it is given up, no frame has been dropped, and the walker stands in front of one that
is to be dropped – unless it has taken all the steps that it may. -/
theorem exists_steps_of_poll {bound : Nat} {answer : Polled}
    (h : (w.poll bound).run s = ((v, answer), calls)) :
    ∃ n ≤ bound, (w.steps n).run s = ((v, answer.event?.toList), calls) ∧
      (answer = .pending → w.depth ≤ v.depth ∧ (v.isSpent = true ∨ n = bound)) := by
  induction bound generalizing w calls with
  | zero =>
    cases h
    exact ⟨0, Nat.le_refl 0, rfl, fun _ => ⟨Nat.le_refl _, .inr rfl⟩⟩
  | succ bound ih =>
    cases hw : w.halted with
    | true =>
      rw [poll, if_pos hw] at h
      cases h
      exact ⟨0, Nat.zero_le _, rfl, fun hpending => nomatch hpending⟩
    | false =>
      cases hspent : w.isSpent with
      | true =>
        rw [poll_of_isSpent hw hspent] at h
        cases h
        exact ⟨0, Nat.zero_le _, rfl, fun _ => ⟨Nat.le_refl _, .inl hspent⟩⟩
      | false =>
        obtain ⟨e, made, u, hstep⟩ := exists_step s w
        cases e with
        | some e =>
          rw [run_poll_of_event hspent hstep] at h
          cases h
          refine ⟨1, Nat.succ_le_succ (Nat.zero_le bound), ?_, fun hpending => nomatch hpending⟩
          rw [run_steps_succ hstep]
          simp [Polled.event?]
        | none =>
          rw [run_poll_of_silent hw hspent hstep] at h
          simp only [Prod.mk.injEq] at h
          obtain ⟨hrest, rfl⟩ := h
          obtain ⟨n, hn, hsteps, hpending⟩ := ih (Prod.ext hrest rfl)
          refine ⟨n + 1, Nat.succ_le_succ hn, ?_, fun hgiven => ?_⟩
          · rw [run_steps_succ hstep, hsteps]
            rfl
          · obtain ⟨hdepth, hstop⟩ := hpending hgiven
            exact ⟨Nat.le_trans (hstep.depth_le hspent) hdepth, hstop.imp_right (congrArg (· + 1))⟩

/-- **Asking once is told that nothing is left only where the walk has ended**: no step before
the answer has ended it, for that would have produced an event. -/
theorem halted_of_poll_none {bound : Nat}
    (h : (w.poll bound).run s = ((v, .ready none), calls)) :
    w.halted = true ∧ v = w ∧ calls = [] := by
  induction bound generalizing w calls with
  | zero => cases h
  | succ bound ih =>
    cases hw : w.halted with
    | true =>
      rw [poll, if_pos hw] at h
      cases h
      exact ⟨rfl, rfl, rfl⟩
    | false =>
      cases hspent : w.isSpent with
      | true =>
        rw [poll_of_isSpent hw hspent] at h
        cases h
      | false =>
        obtain ⟨e, made, u, hstep⟩ := exists_step s w
        cases e with
        | some e =>
          rw [run_poll_of_event hspent hstep] at h
          cases h
        | none =>
          rw [run_poll_of_silent hw hspent hstep] at h
          have hrest : ((u.poll bound).run s).1 = (v, .ready none) := congrArg Prod.fst h
          obtain ⟨hended, -⟩ := ih (Prod.ext hrest rfl)
          rw [hstep.halted_of_silent, hw] at hended
          cases hended

/-! ## Commands one after the other -/

/-- **Every command is a number of steps.** -/
theorem reaches_of_obey (s : Store) (bound : Nat) (w : Walker) (c : Command) :
    Reaches s w ((w.obey bound c).run s).1.2.toList ((w.obey bound c).run s).2
      ((w.obey bound c).run s).1.1 := by
  cases c with
  | step =>
    obtain ⟨e, calls, v, hstep⟩ := exists_step s w
    show Reaches s w (w.step.run s).1.2.toList (w.step.run s).2 (w.step.run s).1.1
    rw [hstep.run_eq]
    exact .of_step hstep
  | next => exact .of_next s bound w
  | poll =>
    obtain ⟨n, _, hsteps, _⟩ := exists_steps_of_poll (Eq.refl ((w.poll bound).run s))
    refine ⟨n, hsteps.trans ?_⟩
    simp [obey, Access.run_bind]

/-- **Commands take steps.** -/
theorem reaches_of_obeyAll (s : Store) (bound : Nat) (commands : List Command) (w : Walker) :
    Reaches s w ((w.obeyAll bound commands).run s).1.2 ((w.obeyAll bound commands).run s).2
      ((w.obeyAll bound commands).run s).1.1 := by
  induction commands generalizing w with
  | nil => exact .refl s w
  | cons c commands ih =>
    have hboth := (reaches_of_obey s bound w c).trans (ih ((w.obey bound c).run s).1.1)
    simpa [obeyAll, Access.run_bind] using hboth

/-- **Nothing is lost by giving up.** Whatever commands a walk is given from its start
on, one after the other: some number of plain steps leads to the same walker, with the
same events and by the same calls. Asking once and giving up takes steps without an
event and drops no frame; the walker then stands in front of a frame that is to be
dropped, unless it was allowed no more steps. Asking once is told that nothing is left
only by a walker that has ended, and changes nothing there. And where the walk ends, the events and
calls that the commands have not come to are exactly those of the steps that remain. -/
theorem commands_take_steps (p : Pattern) (o : WalkOptions) {bound : Nat}
    {commands : List Command} {es : List WalkEvent} {log : List Call}
    (obeyed : ((start p o).obeyAll bound commands).run s = ((w, es), log)) :
    (∃ n, ((start p o).steps n).run s = ((w, es), log)) ∧
      (∀ {more v calls}, (w.poll more).run s = ((v, .pending), calls) →
        ∃ n ≤ more, (w.steps n).run s = ((v, []), calls) ∧ w.depth ≤ v.depth ∧
          (v.isSpent = true ∨ n = more)) ∧
      (∀ {more v calls}, (w.poll more).run s = ((v, .ready none), calls) →
        w.halted = true ∧ v = w ∧ calls = []) ∧
      ∀ {n v all total}, ((start p o).steps n).run s = ((v, all), total) → v.halted = true →
        ∃ later calls, all = es ++ later ∧ total = log ++ calls ∧
          (w.steps n).run s = ((v, later), calls) := by
  have hreached := reaches_of_obeyAll s bound commands (start p o)
  rw [obeyed] at hreached
  refine ⟨hreached, fun hpending => ?_, halted_of_poll_none,
    fun hwhole hended => hreached.rest_of_halted hwhole hended⟩
  obtain ⟨n, hn, hsteps, hgiven⟩ := exists_steps_of_poll hpending
  exact ⟨n, hn, hsteps, hgiven rfl⟩

/-- Asking is given up twice inside of a nested directory, and would be once more.
A match and the end are still to come, so it is never told that nothing is left. -/
theorem commands_take_steps_abandoned :
    let p : Pattern := ⟨.globstar, [.wildcard "*.json"]⟩
    let s := Memory.nested.store
    ∃ w es log, ((start p {}).obeyAll 20 [.next, .next, .poll, .poll]).run s = ((w, es), log) ∧
      es.length = 2 ∧ w.depth = 3 ∧ (∃ n, ((start p {}).steps n).run s = ((w, es), log)) ∧
      (∃ n v calls, (w.poll 20).run s = ((v, .pending), calls) ∧
        (w.steps n).run s = ((v, []), calls) ∧ w.depth ≤ v.depth) ∧
      (∀ more v calls, (w.poll more).run s ≠ ((v, .ready none), calls)) ∧
      ∃ v later calls, ((start p {}).steps 20).run s = ((v, es ++ later), log ++ calls) ∧
        later.length = 2 ∧ (w.steps 20).run s = ((v, later), calls) := by
  intro p s
  have hpending := congrArg (Access.run s) (poll_of_isSpent
    (w := (((start p {}).obeyAll 20 [.next, .next, .poll, .poll]).run s).1.1)
    (by decide +kernel) (by decide +kernel) 19)
  have hgave : (((start p {}).obeyAll 20 [.next, .next, .poll, .poll]).run s).1.2.length = 2 ∧
      (((start p {}).obeyAll 20 [.next, .next, .poll, .poll]).run s).1.1.depth = 3 ∧
      (((start p {}).obeyAll 20 [.next, .next, .poll, .poll]).run s).1.1.halted = false := by
    decide +kernel
  have hended : (((start p {}).steps 20).run s).1.2.length = 4 ∧
      (((start p {}).steps 20).run s).1.1.halted = true := by decide +kernel
  generalize hobeyed : ((start p {}).obeyAll 20 [.next, .next, .poll, .poll]).run s = run
    at hpending hgave ⊢
  generalize hwhole : ((start p {}).steps 20).run s = whole at hended ⊢
  obtain ⟨⟨w, es⟩, log⟩ := run
  obtain ⟨⟨v, all⟩, total⟩ := whole
  obtain ⟨hsteps, hgiven, hover, hrest⟩ := commands_take_steps p {} hobeyed
  obtain ⟨n, _, hn, hdepth, _⟩ := hgiven hpending
  obtain ⟨later, calls, rfl, rfl, hlater⟩ := hrest hwhole hended.2
  have hlength : later.length = 2 := by
    have hall := hended.1
    rw [List.length_append, hgave.1] at hall
    omega
  have hgoesOn : ∀ more v calls, (w.poll more).run s ≠ ((v, .ready none), calls) :=
    fun more v calls hnone => Bool.false_ne_true (hgave.2.2.symm.trans (hover hnone).1)
  exact ⟨w, es, log, rfl, hgave.1, hgave.2.1, hsteps, ⟨n, w, [], hpending, hn, hdepth⟩,
    hgoesOn, v, later, calls, rfl, hlength, hlater⟩

end Walker

end TreeQuery
