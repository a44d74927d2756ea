import TreeQuery.Walk.Walker

/-!
# Runs of a walk

What a step can do is said once, as a relation: `Walker.Step` has one
constructor for each kind of step, and `Walker.step_iff` says that the relation
is the step function run against a store. Whatever every step keeps is shown by
a case split over these constructors.

`Walker.steps` takes a number of steps and keeps the events; `Walker.Reaches`
forgets the number. The loops `Walker.next` and `Walker.events` are then no
more than steps that are taken together: a run that has produced some events is
found again by asking for that many events, with any bound that is large
enough.
-/

namespace TreeQuery

namespace Frame

/-- The frame with its cursor moved. -/
def moved (f : Frame) (c : Cursor) : Frame :=
  { f with cursor := some c }

end Frame

namespace Walker

/-- **What a step can do** against a store: the walker after it, the event that
it produces and the calls that it makes. -/
inductive Step (s : Store) : Walker → Option WalkEvent → List Call → Walker → Prop
  /-- A walk that has ended stays as it is. -/
  | rest {w : Walker} (ended : w.halted = true) : Step s w none [] w
  /-- With no frame left everything has been visited. -/
  | finish {p : Pattern} {o : WalkOptions} :
      Step s ⟨p, o, [], false⟩ (some .finished) [] ⟨p, o, [], true⟩
  | load {p : Pattern} {o : WalkOptions} {f : Frame} {below : List Frame} {entries : List Entry}
      {calls : List Call} (fresh : f.cursor = none)
      (loaded : (f.load o).run s = (.ok entries, calls)) :
      Step s ⟨p, o, f :: below, false⟩ none calls ⟨p, o, f.moved ⟨[], entries⟩ :: below, false⟩
  | loadFailed {p : Pattern} {o : WalkOptions} {f : Frame} {below : List Frame} {e : WalkError}
      {calls : List Call} (fresh : f.cursor = none)
      (refused : (f.load o).run s = (.error e, calls)) :
      Step s ⟨p, o, f :: below, false⟩ (some (.failed e)) calls ⟨p, o, [], true⟩
  | pop {p : Pattern} {o : WalkOptions} {f : Frame} {below : List Frame} {taken : List Entry}
      (spent : f.cursor = some ⟨taken, []⟩) :
      Step s ⟨p, o, f :: below, false⟩ none [] ⟨p, o, below, false⟩
  | skip {p : Pattern} {o : WalkOptions} {f : Frame} {below : List Frame}
      {taken ahead : List Entry} {e : Entry} (due : f.cursor = some ⟨taken, e :: ahead⟩)
      (action : f.action e = .skip) :
      Step s ⟨p, o, f :: below, false⟩ none []
        ⟨p, o, f.moved ⟨e :: taken, ahead⟩ :: below, false⟩
  | descend {p : Pattern} {o : WalkOptions} {f g : Frame} {below : List Frame}
      {taken ahead : List Entry} {e : Entry} (due : f.cursor = some ⟨taken, e :: ahead⟩)
      (action : f.action e = .descend g) :
      Step s ⟨p, o, f :: below, false⟩ none []
        ⟨p, o, g :: f.moved ⟨e :: taken, ahead⟩ :: below, false⟩
  | emit {p : Pattern} {o : WalkOptions} {f : Frame} {below : List Frame}
      {taken ahead : List Entry} {e : Entry} {found : Option Match} {calls : List Call}
      (due : f.cursor = some ⟨taken, e :: ahead⟩) (action : f.action e = .emit)
      (read : (matchOf o (f.pathOf e) e).run s = (.ok found, calls)) :
      Step s ⟨p, o, f :: below, false⟩ (found.map .found) calls
        ⟨p, o, f.moved ⟨e :: taken, ahead⟩ :: below, false⟩
  | emitFailed {p : Pattern} {o : WalkOptions} {f : Frame} {below : List Frame}
      {taken ahead : List Entry} {e : Entry} {error : WalkError} {calls : List Call}
      (due : f.cursor = some ⟨taken, e :: ahead⟩) (action : f.action e = .emit)
      (refused : (matchOf o (f.pathOf e) e).run s = (.error error, calls)) :
      Step s ⟨p, o, f :: below, false⟩ (some (.failed error)) calls ⟨p, o, [], true⟩

theorem step_of_halted {w : Walker} (h : w.halted = true) : w.step = pure (w, none) := by
  rw [step, if_pos h]

/-- What the relation says is what the step function does. -/
theorem Step.run_eq {s : Store} {w w' : Walker} {e : Option WalkEvent} {calls : List Call}
    (h : Step s w e calls w') : w.step.run s = ((w', e), calls) := by
  cases h with
  | rest ended => rw [step_of_halted ended]; rfl
  | finish => rfl
  | load fresh loaded => simp [step, fresh, Access.run_bind, loaded, Frame.moved]
  | loadFailed fresh refused => simp [step, fresh, Access.run_bind, refused, fail]
  | pop spent => simp [step, spent]
  | skip due action => simp [step, due, take, action, Frame.moved]
  | descend due action => simp [step, due, take, action, Frame.moved]
  | emit due action read => simp [step, due, take, action, Access.run_bind, read, Frame.moved]
  | emitFailed due action refused =>
    simp [step, due, take, action, Access.run_bind, refused, fail]

/-- Every walker takes a step of some kind. -/
theorem exists_step (s : Store) (w : Walker) : ∃ e calls w', Step s w e calls w' := by
  obtain ⟨p, o, stack, halted⟩ := w
  cases halted with
  | true => exact ⟨_, _, _, .rest rfl⟩
  | false =>
    match stack with
    | [] => exact ⟨_, _, _, .finish⟩
    | f :: below =>
      match hc : f.cursor with
      | none =>
        match hl : (f.load o).run s with
        | (.error e, calls) => exact ⟨_, _, _, .loadFailed hc hl⟩
        | (.ok entries, calls) => exact ⟨_, _, _, .load hc hl⟩
      | some ⟨taken, []⟩ => exact ⟨_, _, _, .pop hc⟩
      | some ⟨taken, e :: ahead⟩ =>
        match ha : f.action e with
        | .skip => exact ⟨_, _, _, .skip hc ha⟩
        | .descend g => exact ⟨_, _, _, .descend hc ha⟩
        | .emit =>
          match hm : (matchOf o (f.pathOf e) e).run s with
          | (.error error, calls) => exact ⟨_, _, _, .emitFailed hc ha hm⟩
          | (.ok found, calls) => exact ⟨_, _, _, .emit hc ha hm⟩

/-- **A step is one of its kinds.** -/
theorem step_iff {s : Store} {w w' : Walker} {e : Option WalkEvent} {calls : List Call} :
    Step s w e calls w' ↔ w.step.run s = ((w', e), calls) := by
  refine ⟨Step.run_eq, fun h => ?_⟩
  obtain ⟨e', calls', w'', h'⟩ := exists_step s w
  have heq := h'.run_eq
  rw [h] at heq
  cases heq
  exact h'

/-- Only a walk that has not ended produces an event. -/
theorem Step.running {s : Store} {w w' : Walker} {e : WalkEvent} {calls : List Call}
    (h : Step s w (some e) calls w') : w.halted = false := by
  generalize he : some e = event at h
  cases h <;> first | rfl | cases he

/-- A step without an event neither ends a walk nor takes it up again. -/
theorem Step.halted_of_silent {s : Store} {w w' : Walker} {calls : List Call}
    (h : Step s w none calls w') : w'.halted = w.halted := by
  generalize he : none = event at h
  cases h <;> first | rfl | cases he

/-- **An event that ends the walk ends it.** -/
theorem Step.halted_eq_isTerminal {s : Store} {w w' : Walker} {e : WalkEvent}
    {calls : List Call} (h : Step s w (some e) calls w') :
    w'.halted = e.isTerminal := by
  generalize he : some e = event at h
  cases h with
  | finish => cases he; rfl
  | loadFailed fresh refused => cases he; rfl
  | emitFailed due action refused => cases he; rfl
  | emit due action read =>
    obtain ⟨m, _, rfl⟩ := Option.map_eq_some_iff.mp he.symm
    rfl
  | _ => cases he

/-- A walk that has ended has nothing left on its stack. -/
theorem Step.stack_eq_nil_of_isTerminal {s : Store} {w w' : Walker} {e : WalkEvent}
    {calls : List Call} (h : Step s w (some e) calls w') (he : e.isTerminal = true) :
    w'.stack = [] := by
  generalize hevent : some e = event at h
  cases h with
  | finish => rfl
  | loadFailed fresh refused => rfl
  | emitFailed due action refused => rfl
  | emit due action read =>
    obtain ⟨m, _, rfl⟩ := Option.map_eq_some_iff.mp hevent.symm
    cases he
  | _ => cases hevent

/-! ## Steps taken together -/

/-- So many steps, and the events that they produce. -/
def steps : (count : Nat) → Walker → Access (Walker × List WalkEvent)
  | 0, w => pure (w, [])
  | count + 1, w => do
    let (w, e) ← w.step
    let (w, es) ← steps count w
    pure (w, e.toList ++ es)

/-- **Some number of steps leads from `w` to `w'`**, produces the events `es`
and makes the calls `log`. -/
def Reaches (s : Store) (w : Walker) (es : List WalkEvent) (log : List Call) (w' : Walker) :
    Prop :=
  ∃ n, (w.steps n).run s = ((w', es), log)

@[simp] theorem run_steps_zero (s : Store) (w : Walker) :
    (w.steps 0).run s = ((w, []), []) := rfl

/-- Steps are a first step and the others. -/
theorem run_steps_succ {s : Store} {w w₁ : Walker} {e : Option WalkEvent} {calls : List Call}
    (h : Step s w e calls w₁) (n : Nat) :
    (w.steps (n + 1)).run s =
      ((((w₁.steps n).run s).1.1, e.toList ++ ((w₁.steps n).run s).1.2),
        calls ++ ((w₁.steps n).run s).2) := by
  simp [steps, Access.run_bind, h.run_eq]

/-- Where steps lead to the end of a walk, a first one is taken off. -/
theorem Step.exists_steps_pred {s : Store} {w w₁ : Walker} {e : Option WalkEvent}
    {calls : List Call} (h : Step s w e calls w₁) (running : w.halted = false) {n : Nat}
    (ends : ((w.steps n).run s).1.1.halted = true) :
    ∃ n', n = n' + 1 ∧ ((w₁.steps n').run s).1.1.halted = true := by
  cases n with
  | zero => exact absurd (running.symm.trans ends) Bool.false_ne_true
  | succ n =>
    rw [run_steps_succ h] at ends
    exact ⟨n, rfl, ends⟩

/-- A walk that has ended goes on for ever, and nothing happens. -/
theorem run_steps_of_halted {s : Store} {w : Walker} (h : w.halted = true) (n : Nat) :
    (w.steps n).run s = ((w, []), []) := by
  induction n with
  | zero => rfl
  | succ n ih => rw [run_steps_succ (.rest h), ih]; rfl

/-- Steps may be taken in two parts. -/
theorem run_steps_add (s : Store) (m n : Nat) (w : Walker) :
    (w.steps (m + n)).run s =
      let first := (w.steps m).run s
      let second := (first.1.1.steps n).run s
      ((second.1.1, first.1.2 ++ second.1.2), first.2 ++ second.2) := by
  induction m generalizing w with
  | zero => simp
  | succ m ih =>
    obtain ⟨e, calls, w₁, h⟩ := exists_step s w
    rw [show m + 1 + n = m + n + 1 from by omega, run_steps_succ h, run_steps_succ h, ih w₁]
    simp [List.append_assoc]

namespace Reaches

variable {s : Store} {w w₁ w₂ : Walker} {es es' : List WalkEvent} {log log' : List Call}

theorem refl (s : Store) (w : Walker) : Reaches s w [] [] w := ⟨0, rfl⟩

theorem of_steps (s : Store) (n : Nat) (w : Walker) :
    Reaches s w ((w.steps n).run s).1.2 ((w.steps n).run s).2 ((w.steps n).run s).1.1 :=
  ⟨n, rfl⟩

theorem trans (h : Reaches s w es log w₁) (h' : Reaches s w₁ es' log' w₂) :
    Reaches s w (es ++ es') (log ++ log') w₂ := by
  obtain ⟨m, hm⟩ := h
  obtain ⟨n, hn⟩ := h'
  refine ⟨m + n, ?_⟩
  rw [run_steps_add, hm]
  simp only [hn]

theorem of_step {e : Option WalkEvent} (h : Step s w e log w₁) :
    Reaches s w e.toList log w₁ := by
  refine ⟨1, ?_⟩
  rw [run_steps_succ h, run_steps_zero, List.append_nil, List.append_nil]

/-- A first step, and what is reached from there. -/
theorem head {e : Option WalkEvent} {calls : List Call} (h : Step s w e calls w₁)
    (h' : Reaches s w₁ es log w₂) : Reaches s w (e.toList ++ es) (calls ++ log) w₂ :=
  (of_step h).trans h'

/-- Runs are taken apart at their first step. -/
@[elab_as_elim]
theorem head_induction_on
    {motive : ∀ (w : Walker) (es : List WalkEvent) (log : List Call),
      Reaches s w es log w₁ → Prop}
    (h : Reaches s w es log w₁) (refl : motive w₁ [] [] (refl s w₁))
    (head : ∀ {v v' : Walker} {e : Option WalkEvent} {calls : List Call} {es : List WalkEvent}
      {log : List Call} (first : Step s v e calls v') (rest : Reaches s v' es log w₁),
      motive v' es log rest → motive v (e.toList ++ es) (calls ++ log) (rest.head first)) :
    motive w es log h := by
  obtain ⟨n, hn⟩ := h
  induction n generalizing w es log with
  | zero =>
    cases hn
    exact refl
  | succ n ih =>
    obtain ⟨e, calls, v, hv⟩ := exists_step s w
    have hsteps := hn
    rw [run_steps_succ hv] at hsteps
    cases hsteps
    exact head hv ⟨n, rfl⟩ (ih rfl)

/-- **What every step keeps holds of all that is reached.** `I` is the
invariant and `Q` what it says of the events on the way. -/
theorem induct {I : Walker → Prop} {Q : WalkEvent → Prop} (h : Reaches s w es log w₁)
    (start : I w)
    (step : ∀ {v v' : Walker} {e : Option WalkEvent} {calls : List Call},
      I v → Step s v e calls v' → I v' ∧ ∀ e' ∈ e, Q e') :
    I w₁ ∧ ∀ e ∈ es, Q e := by
  induction h using head_induction_on with
  | refl => exact ⟨start, fun e he => absurd he List.not_mem_nil⟩
  | head first _ ih =>
    obtain ⟨hI, hQ⟩ := step start first
    obtain ⟨hend, hes⟩ := ih hI
    exact ⟨hend, List.forall_mem_append.mpr ⟨fun e he => hQ e (Option.mem_toList.mp he), hes⟩⟩

/-- Nothing happens after the end of a walk. -/
theorem eq_of_halted (h : Reaches s w es log w₁) (hw : w.halted = true) :
    w₁ = w ∧ es = [] ∧ log = [] := by
  obtain ⟨n, hn⟩ := h
  rw [run_steps_of_halted hw] at hn
  cases hn
  exact ⟨rfl, rfl, rfl⟩

/-- **Nothing comes after the event that ends the walk.** -/
theorem eq_nil_of_isTerminal (h : Reaches s w es log w₁) {before after : List WalkEvent}
    {e : WalkEvent} (hes : es = before ++ e :: after) (he : e.isTerminal = true) :
    after = [] := by
  induction h using head_induction_on generalizing before with
  | refl => exact absurd hes.symm (List.append_ne_nil_of_right_ne_nil _ (List.cons_ne_nil _ _))
  | @head v v' first calls es log hstep hrest ih =>
    match first, before with
    | none, _ => exact ih hes
    | some first, _ :: before => exact ih (List.cons.inj hes).2
    | some first, [] =>
      obtain ⟨rfl, rfl⟩ := List.cons.inj hes
      exact (hrest.eq_of_halted (hstep.halted_eq_isTerminal.trans he)).2.1

/-- **A walk that has given the event that ends it has ended**, with nothing left on
its stack. -/
theorem ended_of_isTerminal (h : Reaches s w es log w₁) {e : WalkEvent} (hmem : e ∈ es)
    (he : e.isTerminal = true) : w₁.halted = true ∧ w₁.stack = [] := by
  induction h using head_induction_on with
  | refl => cases hmem
  | @head v v' first calls es log hstep hrest ih =>
    rcases List.mem_append.mp hmem with hfirst | hmem
    · obtain rfl := Option.mem_toList.mp hfirst
      have hended := hstep.halted_eq_isTerminal.trans he
      obtain ⟨rfl, _⟩ := hrest.eq_of_halted hended
      exact ⟨hended, hstep.stack_eq_nil_of_isTerminal he⟩
    · exact ih hmem

/-- A walk that comes to its end has given the event that ends it. -/
theorem exists_isTerminal (h : Reaches s w es log w₁) (running : w.halted = false)
    (ended : w₁.halted = true) : ∃ e ∈ es, e.isTerminal = true := by
  induction h using head_induction_on with
  | refl => exact absurd (running.symm.trans ended) Bool.false_ne_true
  | @head v v' first calls es log hstep hrest ih =>
    cases first with
    | none => exact ih (hstep.halted_of_silent.trans running)
    | some e =>
      cases he : e.isTerminal with
      | true => exact ⟨e, List.mem_cons_self, he⟩
      | false =>
        obtain ⟨e', hmem, he'⟩ := ih (hstep.halted_eq_isTerminal.trans he)
        exact ⟨e', List.mem_cons_of_mem e hmem, he'⟩

/-- **A walk has one way to its end**: what is reached on the way lies on it, and the
events and calls that remain are those still to come. -/
theorem rest_of_halted {n : Nat} (part : Reaches s w es log w₁)
    (whole : (w.steps n).run s = ((w₂, es'), log')) (ended : w₂.halted = true) :
    ∃ later calls, es' = es ++ later ∧ log' = log ++ calls ∧
      (w₁.steps n).run s = ((w₂, later), calls) := by
  obtain ⟨m, hm⟩ := part
  have hover : (w.steps (n + m)).run s = ((w₂, es'), log') := by
    simp [run_steps_add, whole, run_steps_of_halted ended]
  rw [Nat.add_comm, run_steps_add, hm] at hover
  simp only [Prod.mk.injEq] at hover
  obtain ⟨⟨hend, rfl⟩, rfl⟩ := hover
  exact ⟨_, _, rfl, rfl, Prod.ext (Prod.ext hend rfl) rfl⟩

end Reaches

/-! ## Waiting for events -/

/-- A walk that has ended has no next event. -/
theorem next_of_halted {w : Walker} (h : w.halted = true) (bound : Nat) :
    w.next bound = pure (w, none) := by
  cases bound with
  | zero => rfl
  | succ bound => rw [next, if_pos h]

/-- Waiting for an event goes past a step without one. -/
theorem run_next_of_silent {s : Store} {w w₁ : Walker} {calls : List Call}
    (hw : w.halted = false) (h : Step s w none calls w₁) (bound : Nat) :
    (w.next (bound + 1)).run s =
      (((w₁.next bound).run s).1, calls ++ ((w₁.next bound).run s).2) := by
  simp [next, hw, Access.run_bind, h.run_eq]

/-- Waiting for an event stops at a step that produces one. -/
theorem run_next_of_event {s : Store} {w w₁ : Walker} {e : WalkEvent} {calls : List Call}
    (h : Step s w (some e) calls w₁) (bound : Nat) :
    (w.next (bound + 1)).run s = ((w₁, some e), calls) := by
  simp [next, h.running, Access.run_bind, h.run_eq]

/-- Where steps lead to the end of the walk without an event, waiting gives
none. -/
theorem run_next_of_steps_nil {s : Store} {n : Nat} {w w' : Walker} {log : List Call}
    (h : (w.steps n).run s = ((w', []), log)) (hend : w'.halted = true) {bound : Nat}
    (hb : n ≤ bound) : (w.next bound).run s = ((w', none), log) := by
  induction n generalizing w log bound with
  | zero =>
    cases h
    rw [next_of_halted hend]
    rfl
  | succ n ih =>
    obtain ⟨e, calls, w₁, h₁⟩ := exists_step s w
    cases hw : w.halted with
    | true =>
      rw [run_steps_of_halted hw] at h
      cases h
      rw [next_of_halted hw]
      rfl
    | false =>
      rw [run_steps_succ h₁] at h
      obtain ⟨b, rfl⟩ : ∃ b, bound = b + 1 := ⟨bound - 1, by omega⟩
      cases e with
      | some e => simp at h
      | none =>
        rw [run_next_of_silent hw h₁]
        simp only [Prod.mk.injEq, Option.toList_none, List.nil_append] at h
        obtain ⟨⟨hw', hes⟩, rfl⟩ := h
        have hrest : (w₁.steps n).run s = ((w', []), ((w₁.steps n).run s).2) :=
          Prod.ext (Prod.ext hw' hes) rfl
        rw [ih hrest (by omega)]

/-- **Where steps produce an event, waiting finds the first one**, and the
steps that remain produce the others. -/
theorem exists_next_of_steps_cons {s : Store} {n : Nat} {w w' : Walker} {e : WalkEvent}
    {es : List WalkEvent} {log : List Call} (h : (w.steps n).run s = ((w', e :: es), log)) :
    ∃ m w₁ first rest, m ≤ n ∧ log = first ++ rest ∧
      (∀ bound, n ≤ bound → (w.next bound).run s = ((w₁, some e), first)) ∧
      (w₁.steps m).run s = ((w', es), rest) := by
  induction n generalizing w log with
  | zero => simp at h
  | succ n ih =>
    obtain ⟨e₁, calls, w₁, h₁⟩ := exists_step s w
    have hw : w.halted = false := by
      cases hh : w.halted with
      | false => rfl
      | true =>
        rw [run_steps_of_halted hh] at h
        cases h
    rw [run_steps_succ h₁] at h
    cases e₁ with
    | some e₁ =>
      simp only [Prod.mk.injEq, Option.toList_some, List.singleton_append, List.cons.injEq] at h
      obtain ⟨⟨hw', rfl, hes⟩, rfl⟩ := h
      refine ⟨n, w₁, calls, _, by omega, rfl, fun bound hb => ?_, Prod.ext (Prod.ext hw' hes) rfl⟩
      obtain ⟨b, rfl⟩ : ∃ b, bound = b + 1 := ⟨bound - 1, by omega⟩
      exact run_next_of_event h₁ b
    | none =>
      simp only [Prod.mk.injEq, Option.toList_none, List.nil_append] at h
      obtain ⟨⟨hw', hes⟩, rfl⟩ := h
      have hrest : (w₁.steps n).run s = ((w', e :: es), ((w₁.steps n).run s).2) :=
        Prod.ext (Prod.ext hw' hes) rfl
      obtain ⟨m, w₂, first, rest, hm, hlog, hnext, hsteps⟩ := ih hrest
      refine ⟨m, w₂, calls ++ first, rest, by omega, ?_, fun bound hb => ?_, hsteps⟩
      · rw [hlog, List.append_assoc]
      · obtain ⟨b, rfl⟩ : ∃ b, bound = b + 1 := ⟨bound - 1, by omega⟩
        rw [run_next_of_silent hw h₁, hnext b (by omega)]

/-- One event more is one waiting more. -/
theorem run_events_succ_some {s : Store} {bound : Nat} {w w₁ : Walker} {e : WalkEvent}
    {first : List Call} (h : (w.next bound).run s = ((w₁, some e), first)) (count : Nat) :
    (w.events bound (count + 1)).run s =
      (((((w₁.events bound count).run s).1.1), e :: ((w₁.events bound count).run s).1.2),
        first ++ ((w₁.events bound count).run s).2) := by
  simp [events, Access.run_bind, h]

/-- Without a next event there are no more events. -/
theorem run_events_succ_none {s : Store} {bound : Nat} {w w₁ : Walker} {first : List Call}
    (h : (w.next bound).run s = ((w₁, none), first)) (count : Nat) :
    (w.events bound (count + 1)).run s = ((w₁, []), first) := by
  simp [events, Access.run_bind, h]

/-- Waiting for an event takes some steps. -/
theorem Reaches.of_next (s : Store) (bound : Nat) (w : Walker) :
    Reaches s w ((w.next bound).run s).1.2.toList ((w.next bound).run s).2
      ((w.next bound).run s).1.1 := by
  induction bound generalizing w with
  | zero => exact .refl s w
  | succ bound ih =>
    cases hw : w.halted with
    | true =>
      rw [next_of_halted hw]
      exact .refl s w
    | false =>
      obtain ⟨e, calls, w₁, h⟩ := exists_step s w
      cases e with
      | none =>
        rw [run_next_of_silent hw h]
        exact (ih w₁).head h
      | some e =>
        rw [run_next_of_event h]
        exact .of_step h

/-- **Asking for events takes some steps**, which produce them. -/
theorem Reaches.of_events (s : Store) (bound count : Nat) (w : Walker) :
    Reaches s w ((w.events bound count).run s).1.2 ((w.events bound count).run s).2
      ((w.events bound count).run s).1.1 := by
  induction count generalizing w with
  | zero => exact .refl s w
  | succ count ih =>
    have hfirst := Reaches.of_next s bound w
    match h : (w.next bound).run s with
    | ((w₁, none), first) =>
      rw [h] at hfirst
      rw [run_events_succ_none h]
      exact hfirst
    | ((w₁, some e), first) =>
      rw [h] at hfirst
      rw [run_events_succ_some h]
      exact hfirst.trans (ih w₁)

/-- **All events of a walk that ends**: asking for events until there are none
takes the steps that lead to the end, no more and no fewer. -/
theorem run_events_of_steps {s : Store} {n : Nat} {w w' : Walker} {es : List WalkEvent}
    {log : List Call} (h : (w.steps n).run s = ((w', es), log)) (hend : w'.halted = true)
    {bound count : Nat} (hb : n ≤ bound) (hc : es.length < count) :
    (w.events bound count).run s = ((w', es), log) := by
  induction es generalizing n w log count with
  | nil =>
    obtain ⟨c, rfl⟩ : ∃ c, count = c + 1 := ⟨count - 1, by simp at hc; omega⟩
    exact run_events_succ_none (run_next_of_steps_nil h hend hb) c
  | cons e es ih =>
    obtain ⟨c, rfl⟩ : ∃ c, count = c + 1 := ⟨count - 1, by simp at hc; omega⟩
    obtain ⟨m, w₁, first, rest, hm, rfl, hnext, hsteps⟩ := exists_next_of_steps_cons h
    rw [run_events_succ_some (hnext bound hb), ih hsteps (by omega) (by simpa using hc)]

/-- **All events of a walk that reaches its end**, with any bounds that are
large enough. -/
theorem Reaches.exists_run_events {s : Store} {w w' : Walker} {es : List WalkEvent}
    {log : List Call} (h : Reaches s w es log w') (hend : w'.halted = true) :
    ∃ enough, ∀ bound count, enough ≤ bound → enough ≤ count →
      (w.events bound count).run s = ((w', es), log) := by
  obtain ⟨n, hn⟩ := h
  refine ⟨max n (es.length + 1), fun bound count hb hc => ?_⟩
  exact run_events_of_steps hn hend (by omega) (by omega)

/-- **Events that have been produced are the first ones that are asked for.** -/
theorem prefix_events_of_steps {s : Store} {n : Nat} {w w' : Walker} {es : List WalkEvent}
    {log : List Call} (h : (w.steps n).run s = ((w', es), log)) {bound count : Nat}
    (hb : n ≤ bound) (hc : es.length ≤ count) : es <+: ((w.events bound count).run s).1.2 := by
  induction es generalizing n w log count with
  | nil => exact List.nil_prefix
  | cons e es ih =>
    obtain ⟨c, rfl⟩ : ∃ c, count = c + 1 := ⟨count - 1, by simp at hc; omega⟩
    obtain ⟨m, w₁, first, rest, hm, rfl, hnext, hsteps⟩ := exists_next_of_steps_cons h
    rw [run_events_succ_some (hnext bound hb)]
    exact List.cons_prefix_cons.mpr ⟨rfl, ih hsteps (by omega) (by simpa using hc)⟩

/-! ## From one event to the next -/

/-- **As many waits as events**: the last step, if any, has produced the last
event. -/
inductive Yields (s : Store) (w : Walker) : List WalkEvent → List Call → Walker → Prop
  | start : Yields s w [] [] w
  | next {es : List WalkEvent} {log quiet calls : List Call} {v v' v'' : Walker} {e : WalkEvent}
      (before : Yields s w es log v) (silent : Reaches s v [] quiet v')
      (event : Step s v' (some e) calls v'') :
      Yields s w (es ++ [e]) (log ++ quiet ++ calls) v''

/-- **On the way to the next event**: some waits, and steps without an event. -/
def Midway (s : Store) (w : Walker) (es : List WalkEvent) (log : List Call) (v : Walker) : Prop :=
  ∃ u done quiet, Yields s w es done u ∧ Reaches s u [] quiet v ∧ log = done ++ quiet

section

variable {s : Store} {w v v' : Walker} {es : List WalkEvent} {log calls : List Call}

theorem Yields.midway (h : Yields s w es log v) : Midway s w es log v :=
  ⟨v, log, [], h, .refl s v, (List.append_nil log).symm⟩

/-- A step without an event leads on. -/
theorem Midway.silent (h : Midway s w es log v) (step : Step s v none calls v') :
    Midway s w es (log ++ calls) v' := by
  obtain ⟨u, done, quiet, hyields, hquiet, rfl⟩ := h
  exact ⟨u, done, quiet ++ calls, hyields, hquiet.trans (.of_step step), List.append_assoc _ _ _⟩

/-- A step with an event is the end of a wait. -/
theorem Midway.event {e : WalkEvent} (h : Midway s w es log v)
    (step : Step s v (some e) calls v') : Yields s w (es ++ [e]) (log ++ calls) v' := by
  obtain ⟨u, done, quiet, hyields, hquiet, rfl⟩ := h
  exact hyields.next hquiet step

theorem Yields.reaches (h : Yields s w es log v) : Reaches s w es log v := by
  induction h with
  | start => exact .refl s w
  | next _ silent event ih =>
    have hall := (ih.trans silent).trans (.of_step event)
    rwa [List.append_nil] at hall

theorem Midway.reaches (h : Midway s w es log v) : Reaches s w es log v := by
  obtain ⟨u, done, quiet, hyields, hquiet, rfl⟩ := h
  have hall := hyields.reaches.trans hquiet
  rwa [List.append_nil] at hall

end

end Walker

end TreeQuery
