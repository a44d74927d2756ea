import TreeQuery.Proofs.Waiting

/-!
# All ways of consuming a walk agree

What is left of a walk that comes to an end is told by its events: matches, and then the
event that ends the walk, unless it has been given already (`Remaining`). Whoever takes up
the walk there gets just this, in the form that they ask for: collecting gives the matches
or the failure, a stream gives the matches and then the failure, and a selection gives the
events one by one, whether or not it is paused and resumed after every match.

For the walker this is an induction on the matches: waiting finds the first event, and the
steps that remain lead on from there. For the selection the driver stands in between. A
pause between two events changes nothing that is ever seen, since what is received
depends on the walk alone, and as soon as the flag is clear again nothing is in the way
(`Selection.Unhindered.acts`).
-/

namespace TreeQuery

/-! ## What is left of a walk -/

/-- **What is left of a walk**, as events: its matches, and the event that ends it, unless
this has been given already. -/
structure Remaining (es : List WalkEvent) (files : List Match) (last : Option WalkEvent) :
    Prop where
  events : es = files.map .found ++ last.toList
  terminal : ∀ e ∈ last, e.isTerminal = true

/-- What is left, collected: the matches, or else the failure that ends the walk. -/
def gathered (files : List Match) : Option WalkEvent → Except WalkError (List Match)
  | some (.failed e) => .error e
  | _ => .ok files

/-- What is left, as a stream: the matches, and then the failure if there is one. -/
def streamed (files : List Match) : Option WalkEvent → List (Except WalkError Match)
  | some (.failed e) => files.map .ok ++ [.error e]
  | _ => files.map .ok

/-- One match more is collected in front of the others. -/
theorem gathered_cons (m : Match) (files : List Match) (last : Option WalkEvent) :
    gathered (m :: files) last = (gathered files last).map (m :: ·) := by
  unfold gathered
  split <;> rfl

/-- One match more comes in front of the stream. -/
theorem streamed_cons (m : Match) (files : List Match) (last : Option WalkEvent) :
    streamed (m :: files) last = .ok m :: streamed files last := by
  unfold streamed
  split <;> rfl

/-- Collecting what is left gathers it. -/
theorem Remaining.collected_eq {es : List WalkEvent} {files : List Match}
    {last : Option WalkEvent} (h : Remaining es files last) :
    collected es = gathered files last := by
  obtain ⟨rfl, hterminal⟩ := h
  induction files with
  | nil => match last with
    | none | some .finished | some (.failed _) => rfl
    | some (.found _) => exact absurd (hterminal _ rfl) Bool.false_ne_true
  | cons m files ih => rw [List.map_cons, List.cons_append, collected_found, ih, gathered_cons]

namespace Walker

variable {s : Store} {w v : Walker} {es : List WalkEvent} {log : List Call}

/-- **After the first events of a walk that ends something is left**, though it may be
nothing. -/
theorem Reaches.exists_remaining (reached : Reaches s w es log v) {before rest : List WalkEvent}
    (split : es = before ++ rest) : ∃ files last, Remaining rest files last := by
  induction rest generalizing before with
  | nil => exact ⟨[], none, rfl, by simp⟩
  | cons e rest ih =>
    have hlater := ih (split.trans (List.append_cons before e rest))
    match e with
    | .found m =>
      obtain ⟨files, last, rfl, hterminal⟩ := hlater
      exact ⟨m :: files, last, rfl, hterminal⟩
    | .finished | .failed _ =>
      obtain rfl := reached.eq_nil_of_isTerminal split rfl
      exact ⟨[], some _, rfl, by simp [WalkEvent.isTerminal]⟩

/-- **The event that ends the walk is left** unless the walk had ended before or the event
has been given. -/
theorem Reaches.last_eq_none_iff (reached : Reaches s w es log v) (ended : v.halted = true)
    {before rest : List WalkEvent} (split : es = before ++ rest) {files : List Match}
    {last : Option WalkEvent} (h : Remaining rest files last) :
    last = none ↔ w.halted = true ∨ ∃ e ∈ before, e.isTerminal = true := by
  constructor
  · rintro rfl
    cases hw : w.halted with
    | true => exact .inl rfl
    | false =>
      obtain ⟨e, hmem, he⟩ := reached.exists_isTerminal hw ended
      rw [split, h.events] at hmem
      rcases List.mem_append.mp hmem with hbefore | hfile
      · exact .inr ⟨e, hbefore, he⟩
      · obtain ⟨m, _, rfl⟩ := List.mem_map.mp (by simpa using hfile)
        cases he
  · intro hover
    have hrest : rest = [] := by
      rcases hover with hw | ⟨e, hmem, he⟩
      · obtain ⟨_, hes, _⟩ := reached.eq_of_halted hw
        rw [hes] at split
        exact (List.append_eq_nil_iff.mp split.symm).2
      · obtain ⟨first, others, rfl⟩ := List.append_of_mem hmem
        rw [List.append_assoc, List.cons_append] at split
        exact (List.append_eq_nil_iff.mp (reached.eq_nil_of_isTerminal split he)).2
    rw [h.events] at hrest
    exact Option.toList_eq_nil_iff.mp (List.append_eq_nil_iff.mp hrest).2

/-! ## Taking all that is left of a walk -/

/-- Where steps lead to the event that ends the walk, waiting finds it and makes all
their calls. -/
theorem run_next_of_steps_terminal {n : Nat} {e : WalkEvent} (terminal : e.isTerminal = true)
    (h : (w.steps n).run s = ((v, [e]), log)) {bound : Nat} (hb : n ≤ bound) :
    (w.next bound).run s = ((v, some e), log) := by
  obtain ⟨m, w₁, first, rest, _, rfl, hnext, hsteps⟩ := exists_next_of_steps_cons h
  have hreached := Reaches.of_next s bound w
  rw [hnext bound hb] at hreached
  have hended := (hreached.ended_of_isTerminal (List.mem_singleton_self e) terminal).1
  rw [run_steps_of_halted hended] at hsteps
  cases hsteps
  rw [hnext bound hb, List.append_nil]

/-- **Collecting gathers what is left**, and makes all the calls. -/
theorem run_collect_of_steps {n : Nat} {files : List Match} {last : Option WalkEvent}
    (h : (w.steps n).run s = ((v, es), log)) (ended : v.halted = true)
    (left : Remaining es files last) {bound count : Nat} (hb : n ≤ bound)
    (hc : es.length < count) :
    (w.collect bound count).run s = (gathered files last, log) := by
  obtain ⟨rfl, hterminal⟩ := left
  induction files generalizing n w log count with
  | nil =>
    obtain ⟨c, rfl⟩ : ∃ c, count = c + 1 := ⟨count - 1, by omega⟩
    cases last with
    | none => simp [collect, Access.run_bind, run_next_of_steps_nil h ended hb, gathered]
    | some e =>
      have hnext := run_next_of_steps_terminal (hterminal e rfl) h hb
      cases e with
      | found m => exact absurd (hterminal _ rfl) Bool.false_ne_true
      | finished => simp [collect, Access.run_bind, hnext, gathered]
      | failed e => simp [collect, Access.run_bind, hnext, gathered]
  | cons m files ih =>
    obtain ⟨c, rfl⟩ : ∃ c, count = c + 1 := ⟨count - 1, by omega⟩
    obtain ⟨k, w₁, first, rest, hk, rfl, hnext, hsteps⟩ := exists_next_of_steps_cons h
    have hrest := ih (by omega) hsteps (by simpa using hc)
    simp [collect, Access.run_bind, hnext bound hb, hrest, gathered_cons]

/-- **A stream gives what is left**, and makes all the calls. -/
theorem run_stream_of_steps {n : Nat} {files : List Match} {last : Option WalkEvent}
    (h : (w.steps n).run s = ((v, es), log)) (ended : v.halted = true)
    (left : Remaining es files last) {bound count : Nat} (hb : n ≤ bound)
    (hc : es.length < count) :
    (w.stream bound count).run s = (streamed files last, log) := by
  obtain ⟨rfl, hterminal⟩ := left
  induction files generalizing n w log count with
  | nil =>
    obtain ⟨c, rfl⟩ : ∃ c, count = c + 1 := ⟨count - 1, by omega⟩
    cases last with
    | none => simp [stream, Access.run_bind, run_next_of_steps_nil h ended hb, streamed]
    | some e =>
      have hnext := run_next_of_steps_terminal (hterminal e rfl) h hb
      cases e with
      | found m => exact absurd (hterminal _ rfl) Bool.false_ne_true
      | finished => simp [stream, Access.run_bind, hnext, streamed]
      | failed e =>
        have hover : (v.stream bound c).run s = ([], []) := by
          cases c with
          | zero => rfl
          | succ c => simp [stream, next_of_halted ended]
        simp [stream, Access.run_bind, hnext, hover, streamed]
  | cons m files ih =>
    obtain ⟨c, rfl⟩ : ∃ c, count = c + 1 := ⟨count - 1, by omega⟩
    obtain ⟨k, w₁, first, rest, hk, rfl, hnext, hsteps⟩ := exists_next_of_steps_cons h
    have hrest := ih (by omega) hsteps (by simpa using hc)
    simp [stream, Access.run_bind, hnext bound hb, hrest, streamed_cons]

end Walker

namespace Selection

variable {s : Store} {signals : Signals} {w v : Walker} {es : List WalkEvent} {log : List Call}
  {n : Nat} {x : Selection} {past : List Trace}

/-- Only polls give the consumer anything. -/
theorem received_of_no_poll (s : Store) (signals : Signals) {as : List Act} (silent : .poll ∉ as)
    (x : Selection) : received (acts s signals as x).2 = [] := by
  refine @acts_induct s signals (fun _ history => received history = []) as
    (fun ha hnone happens => ?_) x [] rfl
  rw [received_concat, hnone]
  cases happens with
  | poll _ => exact absurd ha silent
  | pause | resume | turn _ | call _ | stuck _ | drop => rfl

/-- What was received are the first events of the walk. -/
theorem Live.exists_rest (h : Live s w x past) (whole : (w.steps n).run s = ((v, es), log))
    (ended : v.halted = true) : ∃ rest, es = received past ++ rest := by
  obtain ⟨_, hpart⟩ := Driver.Tracks.exists_reaches h
  obtain ⟨later, _, rfl, _, _⟩ := hpart.rest_of_halted whole ended
  exact ⟨_, by rw [List.append_assoc, List.append_assoc]⟩

namespace Unhindered

/-- **Whatever happens puts nothing in the way**, short of giving the selection up, if only
the flag is clear in the end. -/
theorem acts (h : Unhindered s signals w log x past) {as : List Act} (kept : .drop ∉ as)
    (free : (Selection.acts s signals as x).1.paused = false) :
    Unhindered s signals w log (Selection.acts s signals as x).1
      (past ++ (Selection.acts s signals as x).2) where
  live := acts_induct (I := Live s w)
    (fun ha hlive happens => live_happens hlive (fun hdrop => kept (hdrop ▸ ha)) happens) h.live
  balanced := @acts_induct s signals (fun x _ => x.Balanced) as
    (fun ha hb happens => balanced_happens hb (fun hdrop => kept (hdrop ▸ ha)) happens)
    x past h.balanced
  free := free
  quiet later hlater c hc := by
    rw [calls_append, List.append_assoc] at hlater
    exact h.quiet _ hlater c (List.mem_append_right _ hc)

/-- **A pause and a resume after an event** put nothing in the way, whatever the driver does
in between, and give the consumer nothing. -/
theorem pauseAfter (h : Unhindered s signals w log x past) (turns : Nat) (e : WalkEvent) :
    ∃ past', Unhindered s signals w log (x.pauseAfter s signals turns e).1 past' ∧
      received past' = received past := by
  cases e with
  | finished => exact ⟨past, h, rfl⟩
  | failed e => exact ⟨past, h, rfl⟩
  | found m =>
    let as : List Act := .pause :: (List.replicate turns .turn ++ [.resume])
    have hacts :
        (x.pauseAfter s signals turns (.found m)).1 = (Selection.acts s signals as x).1 := by
      simp only [as, Selection.pauseAfter, settle_eq_acts, acts_cons, acts_append]
      rfl
    have hpolls : .poll ∉ as := by simp [as, List.mem_replicate]
    have hkept : .drop ∉ as := by simp [as, List.mem_replicate]
    have hfree : (Selection.acts s signals as x).1.paused = false := by
      rw [← hacts]
      rfl
    refine ⟨_, hacts ▸ h.acts hkept hfree, ?_⟩
    rw [received_append, received_of_no_poll s signals hpolls, List.append_nil]

/-- **Events are received one by one up to the last**, with a pause after every match or
without. -/
theorem events_eq (h : Unhindered s signals w log x past)
    (whole : (w.steps n).run s = ((v, es), log)) (ended : v.halted = true)
    {rest : List WalkEvent} (split : es = received past ++ rest) {turns count : Nat}
    (enough : 4 * n + log.length + 3 ≤ turns) (more : rest.length ≤ count) (pausing : Bool) :
    (x.events s signals turns pausing count).2.1 = rest ∧
      ∃ past', Unhindered s signals w log (x.events s signals turns pausing count).1 past' ∧
        received past' = es := by
  induction rest generalizing x past count with
  | nil =>
    rw [List.append_nil] at split
    cases count with
    | zero => exact ⟨rfl, past, h, split.symm⟩
    | succ count =>
      obtain ⟨x', past', made, hnext, h', hreceived⟩ := h.next_eq whole ended enough
      have hnone : es[(received past).length]? = none := by
        rw [split, List.getElem?_eq_none (Nat.le_refl _)]
      rw [hnone] at hnext hreceived
      rw [Selection.events, hnext]
      refine ⟨rfl, past', h', ?_⟩
      rw [hreceived, Option.toList_none, List.append_nil, split]
  | cons e rest ih =>
    obtain ⟨c, rfl⟩ : ∃ c, count = c + 1 := ⟨count - 1, by simp at more; omega⟩
    obtain ⟨x₁, past₁, made, hnext, h₁, hreceived⟩ := h.next_eq whole ended enough
    have hsome : es[(received past).length]? = some e := by
      rw [split, List.getElem?_append_right (Nat.le_refl _), Nat.sub_self]
      rfl
    rw [hsome] at hnext hreceived
    obtain ⟨past₂, h₂, hsame⟩ : ∃ past₂, Unhindered s signals w log
        (if pausing then x₁.pauseAfter s signals turns e else (x₁, [])).1 past₂ ∧
          received past₂ = received past₁ := by
      cases pausing with
      | false => exact ⟨past₁, h₁, rfl⟩
      | true => exact h₁.pauseAfter turns e
    have hsplit : es = received past₂ ++ rest := by
      rw [split, hsame, hreceived, List.append_assoc]
      rfl
    obtain ⟨hevents, past', h', hall⟩ := ih h₂ hsplit (Nat.le_of_succ_le_succ more)
    rw [Selection.events, hnext]
    exact ⟨congrArg (e :: ·) hevents, past', h', hall⟩

end Unhindered

/-- **All ways of consuming a walk agree.** Take any walker, one from which events have been
taken already or one that has ended, from which pulling events comes to the end of the
walk. The events that are left are matches and, unless the walk had ended before, one event
that ends it. Collecting from the walker gives the matches or the failure; as a stream it
gives the matches and then the failure, if there is one. And take any history of a selection
of it, short of its being given up, after which the flag is clear and no call that is left
sets it. What was received are the first of these events. Of the others, the same holds:
collecting gives their matches or the failure among them, and a consumer who waits, with a
pause after every match or without, receives them one by one, and then nothing. -/
theorem consumers_agree {bound₀ count₀ : Nat}
    (pulled : (w.events bound₀ count₀).run s = ((v, es), log)) (ended : v.halted = true)
    (signals : Signals) :
    ∃ files last, Remaining es files last ∧ (last = none ↔ w.halted = true) ∧
      (∃ enough, ∀ bound count, enough ≤ bound → enough ≤ count →
        (w.collect bound count).run s = (gathered files last, log) ∧
          (w.stream bound count).run s = (streamed files last, log)) ∧
      ∀ as, .drop ∉ as →
        let x := (acts s signals as (start w)).1
        let history := (acts s signals as (start w)).2
        x.paused = false →
        (∀ later, log = calls history ++ later → ∀ c ∈ later, signals c ≠ some true) →
        ∃ rest files last enough, es = received history ++ rest ∧ Remaining rest files last ∧
          (last = none ↔ w.halted = true ∨ ∃ e ∈ received history, e.isTerminal = true) ∧
          ∀ turns count, enough ≤ turns → enough ≤ count →
            (x.collect s signals turns count).2.1 = some (gathered files last) ∧
              ∀ pausing, (x.events s signals turns pausing count).2.1 = rest ∧
                ((x.events s signals turns pausing count).1.next s signals turns).2.1
                  = .ready none := by
  have hreached : w.Reaches s es log v := by
    have htaken := Walker.Reaches.of_events s bound₀ count₀ w
    rwa [pulled] at htaken
  obtain ⟨n, whole⟩ := id hreached
  obtain ⟨files, last, hleft⟩ := hreached.exists_remaining (List.nil_append es).symm
  refine ⟨files, last, hleft, ?_, ⟨max n (es.length + 1), fun bound count hb hc => ⟨?_, ?_⟩⟩, ?_⟩
  · simpa using hreached.last_eq_none_iff ended (List.nil_append es).symm hleft
  · exact Walker.run_collect_of_steps whole ended hleft (by omega) (by omega)
  · exact Walker.run_stream_of_steps whole ended hleft (by omega) (by omega)
  · intro as kept x history free quiet
    have h : Unhindered s signals w log x history :=
      ⟨live_acts s signals w kept, balanced_acts s signals w kept, free, quiet⟩
    obtain ⟨rest, hsplit⟩ := h.live.exists_rest whole ended
    obtain ⟨files', last', hleft'⟩ := hreached.exists_remaining hsplit
    refine ⟨rest, files', last', 4 * n + log.length + 3 + rest.length + 1, hsplit, hleft',
      hreached.last_eq_none_iff ended hsplit hleft', fun turns count ht hc => ?_⟩
    have hturns : 4 * n + log.length + 3 ≤ turns := by omega
    refine ⟨?_, fun pausing => ?_⟩
    · rw [h.collect_eq whole ended hsplit hturns (by omega), hleft'.collected_eq]
    · have hcount : rest.length ≤ count := by omega
      obtain ⟨hevents, past', h', hall⟩ := h.events_eq whole ended hsplit hturns hcount pausing
      refine ⟨hevents, ?_⟩
      obtain ⟨_, _, _, hnext, _⟩ := h'.next_eq whole ended hturns
      rw [hnext, hall, List.getElem?_eq_none (Nat.le_refl _)]

/-- One match has been received. What is left is the failure behind it, however it is
taken. -/
theorem consumers_agree_refusing :
    let w := Walker.start ⟨.globstar, [.wildcard "*.json"]⟩ {}
    let as := .poll :: List.replicate 20 .turn ++ [.poll]
    let x := (acts Memory.refusing.store (fun _ => none) as (start w)).1
    ((w.events 10 10).run Memory.refusing.store).1.1.halted = true ∧ .drop ∉ as ∧
      x.paused = false ∧ ∃ first last enough,
        ((w.events 10 10).run Memory.refusing.store).1.2 = [first, last] ∧
        ∀ turns count, enough ≤ turns → enough ≤ count →
          (x.collect Memory.refusing.store (fun _ => none) turns count).2.1
              = some (.error (.list ⟨"a/b"⟩ (.permissionDenied "a/b"))) ∧
            ∀ pausing, (x.events Memory.refusing.store (fun _ => none) turns pausing count).2.1
              = [last] := by
  intro w as x
  have kept : .drop ∉ as := by decide
  have free : x.paused = false := by decide +kernel
  have ended : ((w.events 10 10).run Memory.refusing.store).1.1.halted = true := by decide +kernel
  have htwo : ((w.events 10 10).run Memory.refusing.store).1.2.length = 2 := by decide +kernel
  have hfailure : (((w.events 10 10).run Memory.refusing.store).1.2.drop 1).findSome?
      WalkEvent.failure? = some (.list ⟨"a/b"⟩ (.permissionDenied "a/b")) := by decide +kernel
  have hone :
      (received (acts Memory.refusing.store (fun _ => none) as (start w)).2).length = 1 := by
    decide +kernel
  generalize hrun : (w.events 10 10).run Memory.refusing.store = pulled at ended htwo hfailure ⊢
  obtain ⟨⟨v, es⟩, log⟩ := pulled
  obtain ⟨_, _, _, _, _, hselection⟩ := consumers_agree hrun ended fun _ => none
  obtain ⟨rest, _, _, enough, hsplit, hleft, _, hagree⟩ := hselection as kept free (by simp)
  obtain ⟨first, last, hes⟩ := List.length_eq_two.mp htwo
  have hrest : rest = [last] := by
    have hdrop := congrArg (List.drop 1) (hes.symm.trans hsplit)
    rw [← hone, List.drop_left, hone] at hdrop
    exact hdrop.symm
  refine ⟨ended, kept, free, first, last, enough, hes, fun turns count ht hc => ?_⟩
  obtain ⟨hcollect, hevents⟩ := hagree turns count ht hc
  refine ⟨?_, fun pausing => (hevents pausing).1.trans hrest⟩
  rw [hes] at hfailure
  rw [hcollect, ← hleft.collected_eq, hrest, collected, show [last] = [first, last].drop 1 from rfl,
    hfailure]

end Selection

end TreeQuery
