import TreeQuery.Proofs.Histories
import TreeQuery.Proofs.Trees

/-!
# What the consumer of a selection receives

However polls, pauses, resumes and turns of the driver follow each other, the
consumer receives the events of the plain walk, from the first one on and in
their order. No event is lost when a poll is given up, since the demand stands;
none comes twice, since the driver asks the walk once for each demand; and after
the event that ends the walk there is none.

All of this is read off `Selection.Live`. A selection that was given up has
received what it had received before.
-/

namespace TreeQuery

namespace Selection

variable {s : Store} {signals : Signals} {w : Walker}

/-- **What holds along every history**, given up or not: some run of the walk
begins with the events that were received. -/
def Follows (s : Store) (w : Walker) (x : Selection) (past : List Trace) : Prop :=
  (x.Live s w past ∨ x.Gone) ∧ ∃ es log v, w.Reaches s es log v ∧ received past <+: es

theorem Live.follows {x : Selection} {past : List Trace} (h : x.Live s w past) :
    x.Follows s w past := by
  obtain ⟨log, hreaches⟩ := Driver.Tracks.exists_reaches h
  refine ⟨.inl h, _, log, _, hreaches, ?_⟩
  rw [List.append_assoc]
  exact List.prefix_append _ _

/-- Every act stays on some run of the walk. -/
theorem follows_happens {x x' : Selection} {past : List Trace} {a : Act} {t : Trace}
    (h : x.Follows s w past) (happens : Happens s signals x a t x') :
    x'.Follows s w (past ++ [t]) := by
  obtain ⟨hlive | hgone, hrun⟩ := h
  · by_cases ha : a = .drop
    · subst ha
      cases happens with
      | drop =>
        refine ⟨.inr x.gone_drop, ?_⟩
        rw [received_concat]
        simpa [Trace.event?] using hrun
    · exact (live_happens hlive ha happens).follows
  · obtain ⟨hgone', hevent, _⟩ := gone_happens hgone happens
    refine ⟨.inr hgone', ?_⟩
    rw [received_concat, hevent, Option.toList_none, List.append_nil]
    exact hrun

/-- Every history follows some run of the walk. -/
theorem exists_reaches_of_acts (s : Store) (signals : Signals) (w : Walker) (as : List Act) :
    ∃ es log v, w.Reaches s es log v ∧ received (acts s signals as (start w)).2 <+: es :=
  (acts_induct (I := Follows s w) (fun _ => follows_happens) (live_start s w).follows).2

/-- **A selection delivers the events of the walk.** For every list of acts: what
the consumer has received is a beginning of the events that the walk itself gives
one after the other. As long as the selection is not given up, nothing is lost:
what was received, what lies in the slot and what is in the driver's hands are
together all that the walk has produced. And once the consumer has received the
event that ends the walk, every poll that is answered is answered with nothing. -/
theorem received_prefix_events (s : Store) (signals : Signals) (w : Walker) (as : List Act) :
    let (x, history) := acts s signals as (start w)
    (∃ enough, ∀ bound count, enough ≤ bound → enough ≤ count →
        received history <+: ((w.events bound count).run s).1.2) ∧
      (.drop ∉ as → ∃ log,
        w.Reaches s (received history ++ x.slot.toList ++ x.driver.holding.toList) log x.walker) ∧
      ∀ before after, history = before ++ after →
        (∃ e ∈ received before, e.isTerminal = true) →
          ∀ answer, .polled (.ready answer) ∈ after → answer = none := by
  obtain ⟨es, log, v, hreaches, hprefix⟩ := exists_reaches_of_acts s signals w as
  refine ⟨?_, fun kept => Driver.Tracks.exists_reaches (live_acts s signals w kept),
    fun before after hsplit hterminal answer hanswer => ?_⟩
  · obtain ⟨n, hn⟩ := hreaches
    refine ⟨max n es.length, fun bound count hb hc => hprefix.trans ?_⟩
    exact Walker.prefix_events_of_steps hn (Nat.le_trans (Nat.le_max_left _ _) hb)
      (Nat.le_trans (Nat.le_max_right _ _) hc)
  · obtain ⟨e, he, hends⟩ := hterminal
    obtain ⟨rest, hrest⟩ := hprefix
    obtain ⟨earlier, later, hearlier⟩ := List.append_of_mem he
    rw [hsplit, received, List.filterMap_append] at hrest
    have hes : es = earlier ++ e :: (later ++ received after ++ rest) := by
      rw [← hrest, show before.filterMap Trace.event? = earlier ++ e :: later from hearlier]
      simp [received]
    have hnothing := hreaches.eq_nil_of_isTerminal hes hends
    have hafter : received after = [] := by
      simp only [List.append_eq_nil_iff] at hnothing
      exact hnothing.1.2
    cases answer with
    | none => rfl
    | some e' =>
      -- an answer with an event would have been received
      have hmem : e' ∈ received after := List.mem_filterMap.mpr ⟨_, hanswer, rfl⟩
      rw [hafter] at hmem
      exact absurd hmem List.not_mem_nil

/-- A poll is given up while the walk is paused; the next one finds the match. -/
example :
    (received (acts Memory.refusing.store (fun _ => none)
        ([.poll, .pause, .turn, .turn, .resume] ++ List.replicate 24 .turn ++ [.poll, .poll])
        (start (Walker.start ⟨.globstar, [.wildcard "*.json"]⟩ {}))).2).length = 1 := by
  decide +kernel

end Selection

end TreeQuery
