import TreeQuery.Proofs.Steps

/-!
# What pulling events reads

Pulling a number of events from a walk takes the steps up to the one that
produces the last of them, and so it makes the calls of these steps and no
others. Waits that have been put together one by one (`Walker.Yields`) are found
again by pulling as many events, with the same calls and the same walker at the
end. Where a walk is on its way to its next event, the calls so far are the
beginning of those that pulling one event more makes.
-/

namespace TreeQuery

namespace Walker

variable {s : Store} {w v v' : Walker} {es : List WalkEvent} {log quiet calls : List Call}

/-! ## One wait -/

/-- The first of several steps without an event, and the others. -/
theorem exists_silent_of_steps_succ {n : Nat} (h : (w.steps (n + 1)).run s = ((v, []), log)) :
    ∃ made w₁ rest, Step s w none made w₁ ∧ log = made ++ rest ∧
      (w₁.steps n).run s = ((v, []), rest) := by
  obtain ⟨first, made, w₁, hstep⟩ := exists_step s w
  rw [run_steps_succ hstep] at h
  simp only [Prod.mk.injEq, List.append_eq_nil_iff, Option.toList_eq_nil_iff] at h
  obtain ⟨⟨hv, rfl, hes⟩, rfl⟩ := h
  exact ⟨made, w₁, _, hstep, rfl, Prod.ext (Prod.ext hv hes) rfl⟩

/-- **A wait ends with the step that produces an event**, and makes the calls of
this step and of those before it. -/
theorem Reaches.exists_run_next {e : WalkEvent} (silent : Reaches s w [] quiet v)
    (event : Step s v (some e) calls v') :
    ∃ enough, ∀ bound, enough ≤ bound →
      (w.next bound).run s = ((v', some e), quiet ++ calls) := by
  obtain ⟨n, hn⟩ := silent
  refine ⟨n + 1, fun bound hb => ?_⟩
  induction n generalizing w quiet bound with
  | zero =>
    cases hn
    obtain ⟨b, rfl⟩ : ∃ b, bound = b + 1 := ⟨bound - 1, by omega⟩
    exact run_next_of_event event b
  | succ n ih =>
    have hw : w.halted = false := by
      cases hh : w.halted with
      | false => rfl
      | true =>
        obtain ⟨rfl, _, _⟩ := Reaches.eq_of_halted ⟨_, hn⟩ hh
        exact hh.symm.trans event.running
    obtain ⟨made, w₁, rest, hstep, rfl, hrest⟩ := exists_silent_of_steps_succ hn
    obtain ⟨b, rfl⟩ : ∃ b, bound = b + 1 := ⟨bound - 1, by omega⟩
    rw [run_next_of_silent hw hstep, ih hrest b (by omega), List.append_assoc]

/-- Where steps have produced no event yet, a wait begins with their calls. -/
theorem prefix_next_of_steps_nil {n : Nat} (h : (w.steps n).run s = ((v, []), log))
    {bound : Nat} (hb : n ≤ bound) : log <+: ((w.next bound).run s).2 := by
  induction n generalizing w log bound with
  | zero =>
    cases h
    exact List.nil_prefix
  | succ n ih =>
    cases hw : w.halted with
    | true =>
      obtain ⟨_, _, rfl⟩ := Reaches.eq_of_halted ⟨_, h⟩ hw
      exact List.nil_prefix
    | false =>
      obtain ⟨made, w₁, rest, hstep, rfl, hrest⟩ := exists_silent_of_steps_succ h
      obtain ⟨b, rfl⟩ : ∃ b, bound = b + 1 := ⟨bound - 1, by omega⟩
      rw [run_next_of_silent hw hstep]
      exact (List.prefix_append_right_inj made).mpr (ih hrest (by omega))

/-! ## Several waits -/

/-- Pulling one event more makes more calls, if any. -/
theorem prefix_events_succ (s : Store) (bound count : Nat) (w : Walker) :
    ((w.events bound count).run s).2 <+: ((w.events bound (count + 1)).run s).2 := by
  induction count generalizing w with
  | zero => exact List.nil_prefix
  | succ count ih =>
    match h : (w.next bound).run s with
    | ((w₁, none), first) =>
      have hsame := (run_events_succ_none h count).trans (run_events_succ_none h (count + 1)).symm
      exact hsame ▸ List.prefix_refl _
    | ((w₁, some e), first) =>
      rw [run_events_succ_some h, run_events_succ_some h]
      exact (List.prefix_append_right_inj first).mpr (ih w₁)

/-- **The more events are pulled, the longer the log**: it only grows at its
end. -/
theorem prefix_events_of_le (s : Store) (bound : Nat) (w : Walker) {m n : Nat} (h : m ≤ n) :
    ((w.events bound m).run s).2 <+: ((w.events bound n).run s).2 := by
  induction h with
  | refl => exact List.prefix_refl _
  | step _ ih => exact ih.trans (prefix_events_succ s bound _ w)

/-- **One wait more**, after as many events as were asked for: it adds its event,
if there is one, and its calls. -/
theorem run_events_concat {bound n : Nat} {e : Option WalkEvent}
    (h : (w.events bound n).run s = ((v, es), log)) (hn : es.length = n)
    (hnext : (v.next bound).run s = ((v', e), calls)) :
    (w.events bound (n + 1)).run s = ((v', es ++ e.toList), log ++ calls) := by
  induction n generalizing w es log with
  | zero =>
    cases h
    cases e with
    | none => exact run_events_succ_none hnext 0
    | some e =>
      rw [run_events_succ_some hnext]
      simp [events]
  | succ n ih =>
    rcases hfirst : (w.next bound).run s with ⟨⟨w₁, _ | e₁⟩, first⟩
    · rw [run_events_succ_none hfirst] at h
      cases h
      cases hn
    · rw [run_events_succ_some hfirst] at h ⊢
      simp only [Prod.mk.injEq] at h
      obtain ⟨⟨hv, rfl⟩, rfl⟩ := h
      rw [ih (Prod.ext (Prod.ext hv rfl) rfl) (by simpa using hn), List.append_assoc]
      rfl

/-- **Waits put together are events pulled**: pulling as many events ends with the
same walker and has made the same calls. -/
theorem Yields.exists_run_events (h : Yields s w es log v) :
    ∃ enough, ∀ bound, enough ≤ bound →
      (w.events bound es.length).run s = ((v, es), log) := by
  induction h with
  | start => exact ⟨0, fun bound _ => rfl⟩
  | @next es log quiet calls v v' v'' e _ silent event ih =>
    obtain ⟨m, hm⟩ := ih
    obtain ⟨n, hn⟩ := silent.exists_run_next event
    refine ⟨max m n, fun bound hb => ?_⟩
    rw [List.length_append, List.length_singleton, List.append_assoc]
    exact run_events_concat (hm bound (by omega)) rfl (hn bound (by omega))

/-- The calls up to an event are made by whoever pulls it. -/
theorem Yields.exists_prefix_events (h : Yields s w es log v) {count : Nat}
    (hc : es.length ≤ count) :
    ∃ enough, ∀ bound, enough ≤ bound → log <+: ((w.events bound count).run s).2 := by
  obtain ⟨enough, hevents⟩ := h.exists_run_events
  refine ⟨enough, fun bound hb => ?_⟩
  have hbegins := prefix_events_of_le s bound w hc
  rwa [hevents bound hb] at hbegins

/-- **On the way to an event** only such calls have been made as are made by
whoever pulls this event. -/
theorem Midway.exists_prefix_events (h : Midway s w es log v) {count : Nat}
    (hc : es.length < count) :
    ∃ enough, ∀ bound, enough ≤ bound → log <+: ((w.events bound count).run s).2 := by
  obtain ⟨u, done, quiet, hyields, ⟨n, hn⟩, rfl⟩ := h
  obtain ⟨m, hm⟩ := hyields.exists_run_events
  refine ⟨max m n, fun bound hb => ?_⟩
  refine List.IsPrefix.trans ?_ (prefix_events_of_le s bound w hc)
  -- the wait that is under way is the one that pulling adds
  have hmore := run_events_concat (e := ((u.next bound).run s).1.2) (hm bound (by omega)) rfl rfl
  rw [hmore]
  exact (List.prefix_append_right_inj done).mpr (prefix_next_of_steps_nil hn (by omega))

end Walker

end TreeQuery
