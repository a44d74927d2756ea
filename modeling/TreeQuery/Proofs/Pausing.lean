import TreeQuery.Proofs.Demand

/-!
# Pausing

The driver looks at the flag before each step and at no other time. So a flag
that is set finds the driver between two steps, and then nothing is read until it
is cleared; or it finds it in the middle of a step, and then this step is
finished, its event is handed over, and nothing more is read.

Both are said at once. `underway` is what is left of the step in the middle of
which the driver is, and nothing if it is in none. While the flag is set, what is
made of it is taken away from it: the calls made and those left are together the
calls that were left, the events received and those on their way are together
those that were on their way, and the walk will stand where it was bound to stand
(`Held`).

The flag is all that a pause changes. Clearing it leads to a selection that was
never paused: one that is reached by some of the same acts, the pauses, the
resumes and the turns in which the driver had to wait left out.
-/

namespace TreeQuery

namespace Driver

/-- Is the driver in the middle of a step? -/
@[simp] def isStepping : Driver → Bool
  | .stepping _ => true
  | .idle => false
  | .ready => false
  | .sending _ => false
  | .stopped => false

end Driver

namespace Selection

/-- **What is left of the step under way**: the rest of it in the middle of a
step, and nothing to be done to the walk elsewhere. -/
def underway (x : Selection) : Access (Walker × Option WalkEvent) :=
  match x.driver with
  | .stepping rest => rest
  | _ => pure (x.walker, none)

/-- **The events on their way** to the consumer: the one in the slot, the one in
the driver's hands, and the one that the step under way will produce. -/
def onTheWay (s : Store) (x : Selection) : List WalkEvent :=
  x.slot.toList ++ x.driver.holding.toList ++ (x.underway.run s).1.2.toList

variable {s : Store} {signals : Signals} {w : Walker} {x x' y z : Selection}
  {a : Act} {t : Trace} {history later : List Trace}

/-- **Is the flag set all the time**, before the first act and after each? -/
def PausedThroughout (s : Store) (signals : Signals) : List Act → Selection → Prop
  | [], x => x.paused = true
  | a :: rest, x => x.paused = true ∧ PausedThroughout s signals rest (x.act s signals a).1

instance decidablePausedThroughout (s : Store) (signals : Signals) :
    (as : List Act) → (x : Selection) → Decidable (PausedThroughout s signals as x)
  | [], x => inferInstanceAs (Decidable (x.paused = true))
  | a :: rest, x =>
    have := decidablePausedThroughout s signals rest (x.act s signals a).1
    inferInstanceAs (Decidable (x.paused = true ∧ _))

/-- How many acts change the driver in a way of this kind. -/
def changes (s : Store) (signals : Signals) (kind : Driver → Driver → Bool) :
    List Act → Selection → Nat
  | [], _ => 0
  | a :: rest, x =>
    (kind x.driver (x.act s signals a).1.driver).toNat +
      changes s signals kind rest (x.act s signals a).1

/-- How many steps are started. -/
abbrev begun (s : Store) (signals : Signals) : List Act → Selection → Nat :=
  changes s signals fun d d' => !d.isStepping && d'.isStepping

/-- How many steps come to their end. -/
abbrev ended (s : Store) (signals : Signals) : List Act → Selection → Nat :=
  changes s signals fun d d' => d.isStepping && !d'.isStepping

/-- **Steps begun and steps ended**: one that was under way or is begun is ended or
is still under way. -/
theorem ended_add_isStepping (s : Store) (signals : Signals) (as : List Act) (x : Selection) :
    ended s signals as x + (acts s signals as x).1.driver.isStepping.toNat
      = begun s signals as x + x.driver.isStepping.toNat := by
  induction as generalizing x with
  | nil => rfl
  | cons a as ih =>
    have hrest := ih (x.act s signals a).1
    have hfirst : ∀ b b' : Bool,
        (b && !b').toNat + b'.toNat = (!b && b').toNat + b.toNat := by decide
    have hact := hfirst x.driver.isStepping (x.act s signals a).1.driver.isStepping
    simp only [ended, begun, changes, acts] at hrest ⊢
    omega

/-! ## While the flag is set -/

/-- In no step nothing is left. -/
theorem underway_of_isStepping_eq_false (h : x.driver.isStepping = false) :
    x.underway = pure (x.walker, none) := by
  unfold underway
  split
  · next hd => simp [hd] at h
  · rfl

/-- **What stays as it is while the flag is set**: a step is under way only if it
was, and then the walk stands as before; the walk will stand where it was bound to
stand; and calls and events are taken from what was left and on the way. -/
structure Held (s : Store) (x y : Selection) (history : List Trace) : Prop where
  step : y.driver.isStepping = true → x.driver.isStepping = true ∧ y.walker = x.walker
  walker : (y.underway.run s).1.1 = (x.underway.run s).1.1
  calls : calls history ++ (y.underway.run s).2 = (x.underway.run s).2
  events : received history ++ y.onTheWay s = x.onTheWay s

namespace Held

theorem refl (s : Store) (x : Selection) : Held s x x [] :=
  ⟨fun h => ⟨h, rfl⟩, rfl, rfl, rfl⟩

theorem trans (h : Held s x y history) (h' : Held s y z later) :
    Held s x z (history ++ later) := by
  refine ⟨fun hz => ?_, h'.walker.trans h.walker, ?_, ?_⟩
  · obtain ⟨hy, hwalker⟩ := h'.step hz
    exact ⟨(h.step hy).1, hwalker.trans (h.step hy).2⟩
  · rw [calls_append, List.append_assoc, h'.calls, h.calls]
  · rw [received_append, List.append_assoc, h'.events, h.events]

/-- A walk stands where it stood as long as the driver is in a step as before, or
in none as before. -/
theorem walker_eq (h : Held s x y history)
    (same : y.driver.isStepping = x.driver.isStepping) : y.walker = x.walker := by
  cases hstep : y.driver.isStepping with
  | true => exact (h.step hstep).2
  | false =>
    have hwalker := h.walker
    rwa [underway_of_isStepping_eq_false hstep,
      underway_of_isStepping_eq_false (same.symm.trans hstep)] at hwalker

/-- A step that has ended has led the walk to where it was bound, with all its
calls. -/
theorem of_isStepping_eq_false (h : Held s x y history) (hstep : y.driver.isStepping = false) :
    y.walker = (x.underway.run s).1.1 ∧ Selection.calls history = (x.underway.run s).2 := by
  have hwalker := h.walker
  have hcalls := h.calls
  rw [underway_of_isStepping_eq_false hstep] at hwalker hcalls
  exact ⟨hwalker, (List.append_nil _).symm.trans hcalls⟩

end Held

/-- **A turn with the flag set** makes the next call of the step under way, ends
this step, or hands its event over. -/
theorem held_turn {call : Option Call} (turn : Turn s signals x call x') (hp : x.paused = true)
    (hcall : t.call? = call) (hevent : t.event? = none) : Held s x x' [t] := by
  have hcalls : calls [t] = call.toList := hcall ▸ calls_concat [] t
  have hreceived : received [t] = [] := (received_concat [] t).trans (hevent ▸ rfl)
  cases turn with
  | begin due running free => exact absurd (hp.symm.trans free) (by decide)
  | retire due ended =>
    rcases due with due | due <;>
      exact ⟨by simp, by simp [underway, due], by simp [underway, due, hcalls],
        by simp [onTheWay, underway, due, hreceived, Driver.holding]⟩
  | accept due running asked | again due | produce due | call due =>
    exact ⟨by simp [due], by simp [underway, due], by simp [underway, due, hcalls],
      by simp [onTheWay, underway, due, hreceived, Driver.holding]⟩
  | send due free =>
    exact ⟨by simp, by simp [underway, due], by simp [underway, due, hcalls],
      by simp [onTheWay, underway, due, free, hreceived, Driver.holding]⟩

/-- **Every act with the flag set** only uses up what is on its way, short of
giving the selection up. -/
theorem held_happens (hp : x.paused = true) (ha : a ≠ .drop)
    (happens : Happens s signals x a t x') : Held s x x' [t] := by
  cases happens with
  | turn turn => exact held_turn turn hp rfl rfl
  | call turn => exact held_turn turn hp rfl rfl
  | pause | resume | stuck _ => exact ⟨fun h => ⟨h, rfl⟩, rfl, rfl, rfl⟩
  | drop => exact absurd rfl ha
  | poll answered =>
    cases answered with
    | receive there =>
      refine ⟨fun h => ⟨h, rfl⟩, rfl, rfl, ?_⟩
      simp [onTheWay, underway, there, received, Trace.event?]
    | closed empty stopped | wait empty running => exact ⟨fun h => ⟨h, rfl⟩, rfl, rfl, rfl⟩

/-- **While the flag is set** the walk is held. -/
theorem held_acts {as : List Act} (kept : .drop ∉ as) (flag : PausedThroughout s signals as x) :
    Held s x (acts s signals as x).1 (acts s signals as x).2 := by
  induction as generalizing x with
  | nil => exact .refl s x
  | cons a as ih =>
    obtain ⟨ha, hrest⟩ := not_or.mp (mt List.mem_cons.mpr kept)
    exact (held_happens flag.1 (Ne.symm ha) (happens_act s signals x a)).trans (ih hrest flag.2)

/-- **The flag stays set** until somebody resumes: whatever else happens leaves it, unless it is
a call that clears it. -/
theorem paused_of_happens (hp : x.paused = true) (ha : a ≠ .resume)
    (quiet : ∀ c ∈ t.call?, signals c ≠ some false) (happens : Happens s signals x a t x') :
    x'.paused = true := by
  cases happens with
  | turn turn => cases turn <;> exact hp
  | @call c _ turn =>
    cases turn with
    | call due =>
      show (signals c).getD x.paused = true
      match hsignal : signals c with
      | none => exact hp
      | some true => rfl
      | some false => exact absurd hsignal (quiet c rfl)
  | resume => exact absurd rfl ha
  | poll answered => cases answered <;> exact hp
  | pause => rfl
  | drop | stuck _ => exact hp

/-- The flag is set all the time if it is set once and nobody resumes. -/
theorem pausedThroughout_of_quiet {as : List Act} (hp : x.paused = true) (kept : .resume ∉ as)
    (quiet : ∀ c ∈ calls (acts s signals as x).2, signals c ≠ some false) :
    PausedThroughout s signals as x := by
  induction as generalizing x with
  | nil => exact hp
  | cons a as ih =>
    obtain ⟨ha, hrest⟩ := not_or.mp (mt List.mem_cons.mpr kept)
    rw [acts_cons, calls_cons] at quiet
    refine ⟨hp, ih ?_ hrest fun c hc => quiet c (List.mem_append_right _ hc)⟩
    exact paused_of_happens hp (Ne.symm ha) (fun c hc => quiet c (List.mem_append_left _
      (Option.mem_toList.mpr hc))) (happens_act s signals x a)

/-- While the flag is set no step is started. -/
theorem begun_eq_zero {as : List Act} (kept : .drop ∉ as)
    (flag : PausedThroughout s signals as x) : begun s signals as x = 0 := by
  induction as generalizing x with
  | nil => rfl
  | cons a as ih =>
    obtain ⟨ha, hrest⟩ := not_or.mp (mt List.mem_cons.mpr kept)
    have hheld := held_happens flag.1 (Ne.symm ha) (happens_act s signals x a)
    have hkind : (!x.driver.isStepping && (x.act s signals a).1.driver.isStepping) = false := by
      cases hstep : (x.act s signals a).1.driver.isStepping with
      | false => rw [Bool.and_false]
      | true => rw [(hheld.step hstep).1]; rfl
    rw [begun, changes, hkind, Bool.toNat_false, Nat.zero_add]
    exact ih hrest flag.2

/-! ## What is on its way arrives -/

/-- A poll receives the event in the slot, and nothing if there is none. -/
theorem received_poll (s : Store) (signals : Signals) (x : Selection) :
    received (acts s signals [.poll] x).2 = x.slot.toList := by
  have hpolled : received (acts s signals [.poll] x).2 = (Trace.polled x.poll.2).event?.toList :=
    received_concat [] _
  have hanswered := x.answered_poll
  rw [hpolled]
  generalize x.poll.1 = x', x.poll.2 = answer at hanswered ⊢
  cases hanswered with
  | receive there => rw [there]; rfl
  | closed empty stopped => rw [empty]; rfl
  | wait empty running => rw [empty]; rfl

/-- **A step under way comes to its end**, paused or not: nothing but its own calls
lies before it. -/
theorem exists_turns_done {rest : Access (Walker × Option WalkEvent)}
    (due : x.driver = .stepping rest) :
    ∃ turns paused, (acts s signals (List.replicate turns .turn) x).1
        = { x with driver := .stepping (.done (rest.run s).1), paused := paused } ∧
      received (acts s signals (List.replicate turns .turn) x).2 = [] := by
  induction rest generalizing x with
  | done outcome =>
    refine ⟨0, x.paused, ?_, rfl⟩
    rw [Access.run_done, ← due]
    rfl
  | ask c k ih =>
    have hturn : x.act s signals .turn = ({ x with
        driver := .stepping (k (s c)), paused := (signals c).getD x.paused }, .called c) := by
      rw [act, turn?, due]
    obtain ⟨turns, paused, hstate, hreceived⟩ :=
      ih (s c) (x := { x with
        driver := .stepping (k (s c)), paused := (signals c).getD x.paused }) rfl
    refine ⟨turns + 1, paused, ?_, ?_⟩
    · rw [List.replicate_succ, acts_cons, hturn, hstate, Access.run_ask]
    · rw [List.replicate_succ, acts_cons, hturn]
      exact hreceived

/-- **What is on its way arrives**, paused or not: after some turns one poll
receives it. -/
theorem exists_turns_received (hb : x.Balanced) :
    ∃ turns, received (acts s signals (List.replicate turns .turn ++ [.poll]) x).2
      = x.onTheWay s := by
  suffices hslot : ∃ turns, received (acts s signals (List.replicate turns .turn) x).2 = [] ∧
      (acts s signals (List.replicate turns .turn) x).1.slot.toList = x.onTheWay s by
    obtain ⟨turns, hnone, hslot⟩ := hslot
    exact ⟨turns, by
      rw [acts_append, received_append, hnone, received_poll, hslot, List.nil_append]⟩
  cases hd : x.driver with
  | idle | ready | stopped =>
    exact ⟨0, rfl, by simp [acts, onTheWay, underway, hd, Driver.holding]⟩
  | sending e =>
    obtain ⟨_, hempty, _⟩ := hb.of_isServing (by simp [hd])
    refine ⟨1, ?_, ?_⟩ <;>
      simp [acts, act, turn?, hd, hempty, onTheWay, underway, Driver.holding, received,
        Trace.event?]
  | stepping rest =>
    obtain ⟨_, hempty, _⟩ := hb.of_isServing (by simp [hd])
    cases hevent : (rest.run s).1.2 with
    | none =>
      exact ⟨0, rfl, by simp [acts, onTheWay, underway, hd, hevent, Driver.holding]⟩
    | some e =>
      obtain ⟨turns, paused, hstate, hnone⟩ := @exists_turns_done s signals x rest hd
      have houtcome : (rest.run s).1 = ((rest.run s).1.1, some e) := Prod.ext rfl hevent
      rw [houtcome] at hstate
      -- one turn ends the step, and one hands its event over
      refine ⟨turns + 2, ?_, ?_⟩ <;>
        rw [← List.replicate_append_replicate, acts_append, hstate]
      · rw [received_append, hnone]
        simp [acts, act, turn?, hempty, received, Trace.event?]
      · simp [acts, act, turn?, hempty, onTheWay, underway, hd, hevent, Driver.holding]

/-! ## Nothing but the flag -/

/-- **Without the flag the driver does the same.** -/
theorem Turn.resumed {call : Option Call} (turn : Turn s signals x call x') :
    Turn s (fun _ => none) x.resume call x'.resume := by
  cases turn with
  | retire due ended => exact .retire due ended
  | accept due running asked => exact .accept due running asked
  | begin due running free => exact .begin due running rfl
  | call due => exact .call due
  | again due => exact .again due
  | produce due => exact .produce due
  | send due free => exact .send due free

/-- The consumer does not see the flag. -/
theorem poll_resume (x : Selection) : x.resume.poll = (x.poll.1.resume, x.poll.2) := by
  obtain ⟨w, driver, demand, slot, requested, paused⟩ := x
  cases requested <;> cases slot <;> cases driver <;> rfl

/-- **Every act without the flag**: it does the same, unless it is a turn in which
the driver had to wait. -/
theorem act_resume (s : Store) (signals : Signals) (x : Selection) {a : Act}
    (hpause : a ≠ .pause) (hresume : a ≠ .resume) :
    x.act s signals a = (x, .silent) ∨
      x.resume.act s (fun _ => none) a
        = ((x.act s signals a).1.resume, (x.act s signals a).2) := by
  cases a with
  | pause => exact absurd rfl hpause
  | resume => exact absurd rfl hresume
  | drop => exact .inr rfl
  | poll =>
    refine .inr ?_
    simp only [act, poll_resume]
  | turn =>
    unfold act
    match h : x.turn? s signals with
    | none => exact .inl rfl
    | some (x', call) =>
      refine .inr ?_
      rw [turn?_of_turn (turn_of_turn? h).resumed]
      cases call <;> rfl

/-- **Pauses only delay.** What comes of some acts comes of a part of them in which
nothing is paused or resumed and no call sets the flag: the same events, the same
calls and, but for the flag, the same selection. -/
theorem exists_undelayed (s : Store) (signals : Signals) (as : List Act) (x : Selection) :
    ∃ cs, cs.Sublist as ∧ .pause ∉ cs ∧ .resume ∉ cs ∧
      (acts s (fun _ => none) cs x.resume).1 = (acts s signals as x).1.resume ∧
      received (acts s (fun _ => none) cs x.resume).2 = received (acts s signals as x).2 ∧
      calls (acts s (fun _ => none) cs x.resume).2 = calls (acts s signals as x).2 := by
  induction as generalizing x with
  | nil => exact ⟨[], .slnil, List.not_mem_nil, List.not_mem_nil, rfl, rfl, rfl⟩
  | cons a as ih =>
    obtain ⟨cs, hsub, hpause, hresume, hstate, hreceived, hcalls⟩ := ih (x.act s signals a).1
    by_cases hleft : (x.act s signals a).1.resume = x.resume ∧ (x.act s signals a).2 = .silent
    · -- an act that changes nothing but the flag is left out
      obtain ⟨hsame, hsilent⟩ := hleft
      refine ⟨cs, hsub.cons a, hpause, hresume, ?_⟩
      rw [acts_cons, hsilent, ← hsame]
      exact ⟨hstate, hreceived, hcalls⟩
    · have ha : a ≠ .pause := fun h => hleft (h ▸ ⟨rfl, rfl⟩)
      have ha' : a ≠ .resume := fun h => hleft (h ▸ ⟨rfl, rfl⟩)
      rcases act_resume s signals x ha ha' with hstuck | hsame
      · exact absurd ⟨by rw [hstuck], by rw [hstuck]⟩ hleft
      · refine ⟨a :: cs, hsub.cons_cons a, ?_, ?_, ?_⟩
        · exact fun hmem => (List.mem_cons.mp hmem).elim (fun h => ha h.symm) hpause
        · exact fun hmem => (List.mem_cons.mp hmem).elim (fun h => ha' h.symm) hresume
        · rw [acts_cons, acts_cons, hsame]
          exact ⟨hstate, by simp only [received_cons, hreceived], by simp only [calls_cons, hcalls]⟩

/-- **One resume undoes any number of pauses.** -/
theorem acts_pauses_resume (s : Store) (signals : Signals) (n : Nat) (x : Selection) :
    (acts s signals (List.replicate n .pause ++ [.resume]) x).1 = x.resume := by
  induction n generalizing x with
  | zero => rfl
  | succ n ih =>
    rw [List.replicate_succ, List.cons_append, acts_cons]
    exact ih x.pause

/-- **A pause is honoured at the next step.** Take any history, and any acts after
it during which the flag is set all the time. No step is started, and at most the
one under way is ended. The calls made are the first ones of those that were left
of it; the walk stands as it did, or, once the step has ended with all its calls,
where the step has led, and there it stays. The events on their way have been
received or are still on their way, and these arrive after some turns. Any number
of pauses is undone by one resume, which changes nothing but the flag: what goes on
then is a selection that was never paused, after some of the same acts, with the
same events received and the same calls made. The flag is set all the time, in
whatever acts after a pause, if nobody resumes and no call that is made clears it. -/
theorem walk_held_of_paused (s : Store) (signals : Signals) (w : Walker) {as bs : List Act}
    (kept : .drop ∉ as ++ bs)
    (flag : PausedThroughout s signals bs (acts s signals as (start w)).1) :
    let x := (acts s signals as (start w)).1
    let y := (acts s signals bs x).1
    let history := (acts s signals bs x).2
    (begun s signals bs x = 0 ∧ ended s signals bs x ≤ 1 ∧
        calls history <+: (x.underway.run s).2 ∧
        (ended s signals bs x = 0 → y.walker = x.walker) ∧
        (ended s signals bs x = 1 →
          y.walker = (x.underway.run s).1.1 ∧ calls history = (x.underway.run s).2)) ∧
      (received history ++ y.onTheWay s = x.onTheWay s ∧
        ∃ turns, received (acts s signals (List.replicate turns .turn ++ [.poll]) y).2
          = y.onTheWay s) ∧
      (∀ n, (acts s signals (List.replicate n .pause ++ [.resume]) y).1
          = { y with paused := false } ∧
        ∃ cs, cs.Sublist (as ++ bs) ∧ .pause ∉ cs ∧ .resume ∉ cs ∧
          (acts s (fun _ => none) cs (start w)).1 = { y with paused := false } ∧
          received (acts s (fun _ => none) cs (start w)).2
            = received (acts s signals (as ++ bs) (start w)).2 ∧
          calls (acts s (fun _ => none) cs (start w)).2
            = calls (acts s signals (as ++ bs) (start w)).2) ∧
      ∀ {ds}, .resume ∉ ds → (∀ c ∈ calls (acts s signals ds x.pause).2, signals c ≠ some false) →
        PausedThroughout s signals ds (x.act s signals .pause).1 := by
  intro x y history
  have kept' : .drop ∉ bs := fun hdrop => kept (List.mem_append_right as hdrop)
  have hheld : Held s x y history := held_acts kept' flag
  have hbegun : begun s signals bs x = 0 := begun_eq_zero kept' flag
  have hcount : ended s signals bs x + y.driver.isStepping.toNat = _ :=
    ended_add_isStepping s signals bs x
  rw [hbegun, Nat.zero_add] at hcount
  have hle := x.driver.isStepping.toNat_le
  have hy : (acts s signals (as ++ bs) (start w)).1 = y := by rw [acts_append]
  have hbalanced : y.Balanced := hy ▸ balanced_acts s signals w kept
  refine ⟨⟨hbegun, by omega, ⟨_, hheld.calls⟩, fun hnone => ?_, fun hone => ?_⟩,
    ⟨hheld.events, exists_turns_received hbalanced⟩,
    fun n => ⟨acts_pauses_resume s signals n y, ?_⟩, fun hkept quiet =>
      pausedThroughout_of_quiet rfl hkept quiet⟩
  · rw [hnone, Nat.zero_add] at hcount
    exact hheld.walker_eq
      (Bool.eq_iff_iff.mpr (by rw [← Bool.toNat_eq_one, hcount, Bool.toNat_eq_one]))
  · exact hheld.of_isStepping_eq_false (Bool.toNat_eq_zero.mp (by omega))
  · obtain ⟨cs, hsub, hpause, hresume, hstate, hreceived, hcalls⟩ :=
      exists_undelayed s signals (as ++ bs) (start w)
    exact ⟨cs, hsub, hpause, hresume, hy ▸ hstate, hreceived, hcalls⟩

/-- A call pauses the walk in the middle of a step: the listing of the root. The
names that it gave are still statted, and no step follows. -/
theorem walk_held_of_paused_refusing :
    let signals : Signals := fun c => if c = .list .root then some true else none
    let as := Act.poll :: List.replicate 3 .turn
    let bs := [.turn, .poll, .pause, .turn, .turn, .turn, .turn]
    let x := (acts Memory.refusing.store signals as
      (start (Walker.start ⟨.globstar, [.wildcard "*.json"]⟩ {}))).1
    let y := (acts Memory.refusing.store signals bs x).1
    let history := (acts Memory.refusing.store signals bs x).2
    .drop ∉ as ++ bs ∧ PausedThroughout Memory.refusing.store signals bs x ∧
      x.driver.isStepping = true ∧ begun Memory.refusing.store signals bs x = 0 ∧
      ended Memory.refusing.store signals bs x = 1 ∧
      calls history = [.stat ⟨"a"⟩, .stat ⟨"c.json"⟩] ∧
      y.walker = (x.underway.run Memory.refusing.store).1.1 ∧
      (∀ n, (acts Memory.refusing.store signals (List.replicate n .pause ++ [.resume]) y).1
        = { y with paused := false }) ∧
      PausedThroughout Memory.refusing.store signals [.turn, .poll, .turn]
        (x.act Memory.refusing.store signals .pause).1 := by
  intro signals as bs x y history
  have kept : .drop ∉ as ++ bs := by decide
  have flag : PausedThroughout Memory.refusing.store signals bs x := by decide +kernel
  have hended : ended Memory.refusing.store signals bs x = 1 := by decide +kernel
  have hleft : (x.underway.run Memory.refusing.store).2 = [.stat ⟨"a"⟩, .stat ⟨"c.json"⟩] := by
    decide +kernel
  obtain ⟨⟨hbegun, _, _, _, hafter⟩, _, hresume, hpaused⟩ := walk_held_of_paused Memory.refusing.store
    signals (Walker.start ⟨.globstar, [.wildcard "*.json"]⟩ {}) kept flag
  obtain ⟨hwalker, hcalls⟩ := hafter hended
  exact ⟨kept, flag, by decide +kernel, hbegun, hended, hcalls.trans hleft, hwalker,
    fun n => (hresume n).1, hpaused (by decide) (by decide +kernel)⟩

end Selection

end TreeQuery
