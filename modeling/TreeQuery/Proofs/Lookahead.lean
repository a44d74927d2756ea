import TreeQuery.Proofs.Demand
import TreeQuery.Proofs.Pulls

/-!
# Nothing is read ahead

A driver reads for the event that is outstanding and for no other. Its calls are
compared with those of a walk that is pulled: where the consumer has received so
many events and has none outstanding, the driver has made the calls that pulling
as many events makes, to the last one; while an event is outstanding, it has made
some of the calls that pulling this event as well makes, from the first one on.

What the driver does is known from `Selection.Live`; that it does it for one
demand at a time, and for none that is not there, from `Selection.Balanced`. A
selection that was given up reads nothing any more.
-/

namespace TreeQuery

namespace Selection

variable {s : Store} {signals : Signals} {w : Walker} {x x' : Selection}
  {past : List Trace} {a : Act} {t : Trace}

/-- **Within one event more**: the calls so far are made by whoever pulls the
events received so far and the next one. -/
def Frugal (s : Store) (w : Walker) (past : List Trace) : Prop :=
  ∃ enough, ∀ bound, enough ≤ bound →
    calls past <+: ((w.events bound ((received past).length + 1)).run s).2

/-- **A live selection reads for one event at most**: the one in the slot, the one
in the driver's hands, or the one that its step may produce. -/
theorem Live.frugal (h : Live s w x past) (hb : x.Balanced) : Frugal s w past := by
  have hslot : x.slot.toList.length ≤ 1 := by cases x.slot <;> simp
  unfold Live at h
  cases hd : x.driver with
  | idle =>
    rw [hd] at h
    exact h.exists_prefix_events (by rw [List.length_append]; omega)
  | stopped =>
    rw [hd] at h
    exact h.2.exists_prefix_events (by rw [List.length_append]; omega)
  | ready =>
    obtain ⟨_, hempty, _⟩ := hb.of_isServing (by simp [hd])
    rw [hd, hempty, Option.toList_none, List.append_nil] at h
    exact h.2.exists_prefix_events (Nat.lt_succ_self _)
  | sending e =>
    obtain ⟨_, hempty, _⟩ := hb.of_isServing (by simp [hd])
    rw [hd, hempty, Option.toList_none, List.append_nil] at h
    exact Walker.Yields.exists_prefix_events h (by simp)
  | stepping rest =>
    obtain ⟨_, hempty, _⟩ := hb.of_isServing (by simp [hd])
    rw [hd, hempty, Option.toList_none, List.append_nil] at h
    obtain ⟨_, before, made, hmidway, hstep, hcalls⟩ := h
    -- the calls so far and those that the step has still to make
    have hwhole : ∃ enough, ∀ bound, enough ≤ bound → before ++ (made ++ (rest.run s).2) <+:
        ((w.events bound ((received past).length + 1)).run s).2 := by
      have hkind := Walker.step_iff.mpr hstep
      cases hevent : (rest.run s).1.2 with
      | none =>
        rw [hevent] at hkind
        exact (hmidway.silent hkind).exists_prefix_events (Nat.lt_succ_self _)
      | some e =>
        rw [hevent] at hkind
        exact (hmidway.event hkind).exists_prefix_events (by simp)
    obtain ⟨enough, hbegins⟩ := hwhole
    refine ⟨enough, fun bound hbound => List.IsPrefix.trans ?_ (hbegins bound hbound)⟩
    rw [hcalls, ← List.append_assoc]
    exact List.prefix_append _ _

/-- **With no event outstanding** the selection is where pulling as many events as
were received leads, with the same events and the same calls. -/
theorem Live.exists_run_events (h : Live s w x past) (hb : x.Balanced)
    (quiet : x.requested = false) :
    ∃ enough, ∀ bound, enough ≤ bound →
      (w.events bound (received past).length).run s = ((x.walker, received past), calls past) := by
  obtain ⟨hd, hempty⟩ := hb.of_requested_eq_false quiet
  unfold Live at h
  rw [hempty, Option.toList_none, List.append_nil] at h
  rcases hd with hd | hd
  · rw [hd] at h
    exact Walker.Yields.exists_run_events h
  · rw [hd] at h
    exact h.2.exists_run_events

/-- Every act stays within one event more. -/
theorem frugal_happens (h : ((x.Live s w past ∧ x.Balanced) ∨ x.Gone) ∧ Frugal s w past)
    (happens : Happens s signals x a t x') :
    ((x'.Live s w (past ++ [t]) ∧ x'.Balanced) ∨ x'.Gone) ∧ Frugal s w (past ++ [t]) := by
  obtain ⟨⟨hlive, hbalanced⟩ | hgone, hfrugal⟩ := h
  · by_cases ha : a = .drop
    · subst ha
      cases happens with
      | drop =>
        refine ⟨.inr x.gone_drop, ?_⟩
        unfold Frugal
        rw [received_concat, calls_concat]
        simpa [Frugal, Trace.event?, Trace.call?] using hfrugal
    · have hlive' := live_happens hlive ha happens
      have hbalanced' := balanced_happens hbalanced ha happens
      exact ⟨.inl ⟨hlive', hbalanced'⟩, hlive'.frugal hbalanced'⟩
  · obtain ⟨hgone', hevent, hcall⟩ := gone_happens hgone happens
    refine ⟨.inr hgone', ?_⟩
    unfold Frugal
    rw [received_concat, calls_concat, hevent, hcall]
    simpa [Frugal] using hfrugal

/-- Every history stays within one event more. -/
theorem frugal_acts (s : Store) (signals : Signals) (w : Walker) (as : List Act) :
    Frugal s w (acts s signals as (start w)).2 :=
  (acts_induct (I := fun x past => ((x.Live s w past ∧ x.Balanced) ∨ x.Gone) ∧ Frugal s w past)
    (fun _ => frugal_happens)
    ⟨.inl ⟨live_start s w, balanced_start w⟩, (live_start s w).frugal (balanced_start w)⟩).2

/-- **Nothing is read ahead.** For every list of acts: the calls that the driver has
made are the first ones of those that pulling more events than were received
makes, so they never go beyond the step that produces the next event. If no event
is outstanding, they are exactly the calls up to the last event that was received,
and the walk stands where that event was produced; before anything was asked for
there are none. -/
theorem calls_prefix_events (s : Store) (signals : Signals) (w : Walker) (as : List Act) :
    let x := (acts s signals as (start w)).1
    let history := (acts s signals as (start w)).2
    (∃ enough, ∀ bound count, enough ≤ bound → (received history).length < count →
        calls history <+: ((w.events bound count).run s).2) ∧
      (.drop ∉ as → x.requested = false →
        (∃ enough, ∀ bound, enough ≤ bound →
          (w.events bound (received history).length).run s
            = ((x.walker, received history), calls history)) ∧
        (received history = [] → calls history = [])) := by
  intro x history
  refine ⟨?_, fun kept quiet => ?_⟩
  · obtain ⟨enough, hbegins⟩ := frugal_acts s signals w as
    exact ⟨enough, fun bound count hb hc =>
      (hbegins bound hb).trans (Walker.prefix_events_of_le s bound w hc)⟩
  · have hevents := (live_acts s signals w kept).exists_run_events
      (balanced_acts s signals w kept) quiet
    refine ⟨hevents, fun hnone => ?_⟩
    obtain ⟨enough, hevents⟩ := hevents
    have hstart := hevents enough (Nat.le_refl _)
    rw [hnone] at hstart
    exact (congrArg Prod.snd hstart).symm

/-- With the first match received and nothing asked for, more turns read nothing:
the directory `a/b` has been statted, and it is not listed. -/
theorem calls_prefix_events_refusing :
    let as := Act.poll :: List.replicate 16 .turn ++ [.poll, .pause, .turn, .resume, .turn]
    let w := Walker.start ⟨.globstar, [.wildcard "*.json"]⟩ {}
    let x := (acts Memory.refusing.store (fun _ => none) as (start w)).1
    let history := (acts Memory.refusing.store (fun _ => none) as (start w)).2
    .drop ∉ as ∧ x.requested = false ∧ (received history).length = 1 ∧
      calls history = [.list .root, .stat ⟨"a"⟩, .stat ⟨"c.json"⟩, .list ⟨"a"⟩,
        .stat ⟨"a/x.json"⟩, .stat ⟨"a/b"⟩] ∧
      ∃ enough, ∀ bound, enough ≤ bound →
        (w.events bound 1).run Memory.refusing.store
          = ((x.walker, received history), calls history) := by
  intro as w x history
  have kept : .drop ∉ as := by decide
  have quiet : x.requested = false := by decide +kernel
  have hone : (received history).length = 1 := by decide +kernel
  obtain ⟨_, hquiet⟩ := calls_prefix_events Memory.refusing.store (fun _ => none) w as
  obtain ⟨hevents, _⟩ := hquiet kept quiet
  exact ⟨kept, quiet, hone, by decide +kernel, hone ▸ hevents⟩

end Selection

end TreeQuery
