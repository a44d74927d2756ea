import TreeQuery.Selection.Session
import TreeQuery.Proofs.Demand
import TreeQuery.Proofs.Refinement

/-!
# Waiting is answered

No demand is lost. However a selection has been polled, paused, resumed and let run,
a consumer who waits gets the next event of the walk as soon as the flag is clear and
no call sets it again; and nothing only if there is no event any more.

Two things are needed. The driver comes to rest: every turn uses up some of what is
left of the walk – its steps, its calls, and the few turns around each step – so after
as many turns the driver has to wait (`rests`). And it does not rest on a
demand: with the flag clear and an event outstanding, there is a turn for it to take
unless the event lies in the slot or the walk is over (`Unhindered.turn?_ne_none`). In
either case the poll that follows is answered, and what it is answered with is known
from `Selection.Live`.
-/

namespace TreeQuery

/-- The failure of an event, if it is one. -/
def WalkEvent.failure? : WalkEvent → Option WalkError
  | .failed e => some e
  | .found _ => none
  | .finished => none

/-- **What events come to** for a consumer who collects them: the failure, if there is
one among them, and the matches otherwise. -/
def collected (es : List WalkEvent) : Except WalkError (List Match) :=
  match es.findSome? WalkEvent.failure? with
  | some e => .error e
  | none => .ok (es.filterMap WalkEvent.file?)

/-- A match in front of events is one match more. -/
theorem collected_found (m : Match) (es : List WalkEvent) :
    collected (.found m :: es) = (collected es).map (m :: ·) := by
  have hskip : (WalkEvent.found m :: es).findSome? WalkEvent.failure?
      = es.findSome? WalkEvent.failure? := rfl
  unfold collected
  rw [hskip, List.filterMap_cons_some (show (WalkEvent.found m).file? = some m from rfl)]
  split <;> rfl

/-- How many turns the driver takes up to its next step, at most. -/
def Driver.turnsToStep : Driver → Nat
  | .sending _ => 3
  | .idle => 2
  | .ready => 1
  | .stepping _ => 0
  | .stopped => 0

theorem Driver.turnsToStep_le (d : Driver) : d.turnsToStep ≤ 3 := by
  cases d <;> simp [turnsToStep]

namespace Selection

variable {s : Store} {signals : Signals} {w v : Walker} {es : List WalkEvent} {log : List Call}
  {n : Nat} {x x' : Selection} {past : List Trace} {a : Act} {t : Trace}

/-! ## Waiting, as polls and turns -/

/-- A turn that the driver takes. -/
theorem act_turn {call : Option Call} (h : x.turn? s signals = some (x', call)) :
    x.act s signals .turn = (x', call.elim .silent .called) := by
  cases call <;> simp [act, h]

/-- At rest, more turns change nothing. -/
theorem acts_of_rest (h : x.turn? s signals = none) (turns : Nat) :
    (acts s signals (List.replicate turns .turn) x).1 = x ∧
      calls (acts s signals (List.replicate turns .turn) x).2 = [] := by
  have hstuck : x.act s signals .turn = (x, .silent) := by simp [act, h]
  induction turns with
  | zero => exact ⟨rfl, rfl⟩
  | succ turns ih =>
    rw [List.replicate_succ, acts_cons, hstuck]
    exact ⟨ih.1, (calls_cons .silent _).trans ih.2⟩

/-- Letting the driver run is so many turns. -/
theorem settle_eq_acts (s : Store) (signals : Signals) (turns : Nat) (x : Selection) :
    x.settle s signals turns = ((acts s signals (List.replicate turns .turn) x).1,
      calls (acts s signals (List.replicate turns .turn) x).2) := by
  induction turns generalizing x with
  | zero => rfl
  | succ turns ih =>
    cases h : x.turn? s signals with
    | none =>
      obtain ⟨hstate, hcalls⟩ := acts_of_rest h (turns + 1)
      rw [hstate, hcalls, settle, h]
    | some next =>
      obtain ⟨x', call⟩ := next
      rw [settle, h, List.replicate_succ, acts_cons, act_turn h, calls_cons]
      simp only [ih x']
      cases call <;> rfl

/-- A turn gives the consumer nothing, and leaves the demand as it is. -/
theorem turn_quiet (happens : Happens s signals x .turn t x') :
    t.event? = none ∧ x'.requested = x.requested := by
  cases happens with
  | turn turn => cases turn <;> exact ⟨rfl, rfl⟩
  | call turn => cases turn; exact ⟨rfl, rfl⟩
  | stuck _ => exact ⟨rfl, rfl⟩

/-! ## With the flag clear -/

/-- **Nothing is in the way**: the selection is live, its demands balance, the flag is
clear, and no call that is still to come sets it. `log` has the calls of the whole
walk. -/
structure Unhindered (s : Store) (signals : Signals) (w : Walker) (log : List Call)
    (x : Selection) (past : List Trace) : Prop where
  live : Live s w x past
  balanced : x.Balanced
  free : x.paused = false
  quiet : ∀ later, log = calls past ++ later → ∀ c ∈ later, signals c ≠ some true

/-- **The driver does not rest on a demand**: with an event outstanding and none in the
slot, there is a turn for it to take unless the walk is over. -/
theorem Unhindered.turn?_ne_none (h : Unhindered s signals w log x past)
    (asked : x.requested = true) (empty : x.slot = none) (there : x.driver ≠ .stopped) :
    x.turn? s signals ≠ none := by
  have hdemands := h.balanced.demands there
  rw [demands, asked, empty] at hdemands
  unfold turn?
  cases hd : x.driver with
  | stopped => exact absurd hd there
  | idle =>
    -- the demand is stored, since it is nowhere else
    rw [hd] at hdemands
    have hdemand : x.demand = true := Bool.toNat_eq_one.mp (by simpa using hdemands)
    simp only [hdemand, if_true]
    split <;> simp
  | ready =>
    simp only [h.free, Bool.false_eq_true, if_false]
    split <;> simp
  | stepping rest =>
    cases rest with
    | ask c k => simp
    | done outcome =>
      obtain ⟨w', e⟩ := outcome
      cases e <;> simp
  | sending e => simp [empty]

/-- How many turns may be left, with so many steps to the end of the walk, when the
calls `made` of the calls `log` have been made. -/
def turnsLeft (log : List Call) (steps : Nat) (made : List Call) (x : Selection) : Nat :=
  4 * steps + (log.length - made.length) + x.driver.turnsToStep

section

variable (whole : (w.steps n).run s = ((v, es), log)) (ended : v.halted = true)

include whole ended

/-- The calls made are the first ones of the walk. -/
theorem prefix_of_tracks {d : Driver} {u : Walker} {handed : List WalkEvent} {made : List Call}
    (tracks : d.Tracks s w u handed made) : made <+: log := by
  obtain ⟨es', left, v', hreaches⟩ := tracks.exists_reaches_calls
  obtain ⟨_, later, _, rfl, _⟩ := hreaches.rest_of_halted whole ended
  exact (List.prefix_append _ left).trans (List.prefix_append _ later)

/-- **Polls and turns put nothing in the way.** -/
theorem unhindered_happens (h : Unhindered s signals w log x past) (ha : a = .poll ∨ a = .turn)
    (happens : Happens s signals x a t x') : Unhindered s signals w log x' (past ++ [t]) := by
  have hdrop : a ≠ .drop := by rcases ha with rfl | rfl <;> decide
  have hlive := live_happens h.live hdrop happens
  refine ⟨hlive, balanced_happens h.balanced hdrop happens, ?_, fun later hlater c hc => ?_⟩
  · cases happens with
    | poll answered => cases answered <;> exact h.free
    | turn turn => cases turn <;> exact h.free
    | stuck _ => exact h.free
    | pause | resume | drop => rcases ha with ha | ha <;> cases ha
    | @call c _ turn =>
      cases turn with
      | call due =>
        obtain ⟨later, hlater⟩ := prefix_of_tracks whole ended hlive
        rw [calls_concat, List.append_assoc] at hlater
        have hc := h.quiet _ hlater.symm c (List.mem_append_left _ (List.mem_singleton_self c))
        rw [h.free]
        cases hsignal : signals c with
        | none => rfl
        | some b =>
          rw [hsignal] at hc
          simpa using hc
  · rw [calls_concat, List.append_assoc] at hlater
    exact h.quiet _ hlater c (List.mem_append_right _ hc)

/-- **Every turn brings the driver nearer to its rest**: some of the steps, the calls or
the turns that are left are used up. -/
theorem turn_lt (live : Live s w x past) {k : Nat}
    (ends : ((x.walker.steps k).run s).1.1.halted = true) {call : Option Call}
    (turn : Turn s signals x call x') :
    ∃ k', ((x'.walker.steps k').run s).1.1.halted = true ∧
      x'.turnsLeft log k' (calls past ++ call.toList) < x.turnsLeft log k (calls past) := by
  have hprefix := (prefix_of_tracks whole ended (tracks_turn live turn)).length_le
  cases turn with
  | retire due _ =>
    refine ⟨k, ends, ?_⟩
    rcases due with due | due <;> simp [turnsLeft, due, Driver.turnsToStep]
  | accept due | begin due | send due =>
    exact ⟨k, ends, by simp [turnsLeft, due, Driver.turnsToStep]⟩
  | call due =>
    refine ⟨k, ends, ?_⟩
    simp only [turnsLeft, due, Driver.turnsToStep, Option.toList_some, List.length_append,
      List.length_singleton] at hprefix ⊢
    omega
  | again due | produce due =>
    -- a step has ended: there is one less to take, and up to three turns to the next one
    rw [Live, due] at live
    obtain ⟨running, before, made, _, hstep, _⟩ := live
    rw [Access.run_done, List.append_nil] at hstep
    obtain ⟨k', rfl, ends'⟩ := (Walker.step_iff.mpr hstep).exists_steps_pred running ends
    refine ⟨k', ends', ?_⟩
    simp only [turnsLeft, due, Driver.turnsToStep, Option.toList_none, List.append_nil]
    omega

/-- **The driver comes to rest**: after as many turns as are left it has to wait. -/
theorem rests (live : Live s w x past) {k : Nat}
    (ends : ((x.walker.steps k).run s).1.1.halted = true) {turns : Nat}
    (enough : x.turnsLeft log k (calls past) ≤ turns) :
    (acts s signals (List.replicate turns .turn) x).1.turn? s signals = none := by
  induction turns generalizing x past k with
  | zero =>
    cases hturn : x.turn? s signals with
    | none => exact hturn
    | some next =>
      obtain ⟨_, _, hlt⟩ := turn_lt whole ended live ends (turn_of_turn? hturn)
      omega
  | succ turns ih =>
    cases hturn : x.turn? s signals with
    | none => rwa [(acts_of_rest hturn _).1]
    | some next =>
      obtain ⟨x', call⟩ := next
      obtain ⟨k', ends', hlt⟩ := turn_lt whole ended live ends (turn_of_turn? hturn)
      have hlive := live_happens live (by decide) (happens_act s signals x .turn)
      rw [List.replicate_succ, acts_cons]
      rw [act_turn hturn] at hlive ⊢
      have hcall : (call.elim Trace.silent Trace.called).call? = call := by cases call <;> rfl
      have hlater := ih hlive ends'
      rw [calls_concat, hcall] at hlater
      exact hlater (Nat.le_of_lt_succ (Nat.lt_of_lt_of_le hlt enough))

namespace Unhindered

/-- **An answer is the next event**, and none if there is none left. -/
theorem of_answered (h : Unhindered s signals w log x past) {e : Option WalkEvent}
    (answered : Answered x (.ready e) x') :
    e = es[(received past).length]? ∧ ∃ past', Unhindered s signals w log x' past' ∧
      received past' = received past ++ e.toList := by
  have happens : Happens s signals x .poll (.polled (.ready e)) x' := .poll answered
  refine ⟨?_, _, unhindered_happens whole ended h (.inl rfl) happens, received_concat past _⟩
  cases answered with
  | @receive e there =>
    obtain ⟨_, hreaches⟩ := Driver.Tracks.exists_reaches h.live
    obtain ⟨later, _, rfl, _⟩ := hreaches.rest_of_halted whole ended
    rw [there, List.append_assoc, List.append_assoc, List.getElem?_append_right (Nat.le_refl _),
      Nat.sub_self]
    rfl
  | closed empty stopped =>
    have hlive := h.live
    rw [Live, stopped, empty, Option.toList_none, List.append_nil] at hlive
    obtain ⟨hover, hyields⟩ := hlive
    obtain ⟨later, _, rfl, _, hlater⟩ := hyields.reaches.rest_of_halted whole ended
    rw [Walker.run_steps_of_halted hover] at hlater
    cases hlater
    rw [List.append_nil, List.getElem?_eq_none (Nat.le_refl _)]

/-- Turns put nothing in the way, and leave what is asked for and received as it is. -/
theorem turns (h : Unhindered s signals w log x past) (count : Nat) :
    ∃ past', Unhindered s signals w log (acts s signals (List.replicate count .turn) x).1 past' ∧
      (acts s signals (List.replicate count .turn) x).1.requested = x.requested ∧
      received past' = received past := by
  refine ⟨_, @acts_induct s signals (fun y past' => Unhindered s signals w log y past' ∧
    y.requested = x.requested ∧ received past' = received past) (List.replicate count .turn)
    (fun ha hy happens => ?_) x past ⟨h, rfl, rfl⟩⟩
  obtain rfl := List.eq_of_mem_replicate ha
  obtain ⟨hy, hasked, hreceived⟩ := hy
  obtain ⟨hevent, hrequested⟩ := turn_quiet happens
  refine ⟨unhindered_happens whole ended hy (.inr rfl) happens, hrequested.trans hasked, ?_⟩
  rw [received_concat, hevent, hreceived, Option.toList_none, List.append_nil]

/-- **Letting the driver run leads to an answer** for the consumer who has asked. -/
theorem settled (h : Unhindered s signals w log x past) (asked : x.requested = true) {turns : Nat}
    (enough : 4 * n + log.length + 3 ≤ turns) :
    ∃ past' e, Unhindered s signals w log (x.settle s signals turns).1 past' ∧
      received past' = received past ∧ (x.settle s signals turns).1.poll.2 = .ready e := by
  have hrests : (acts s signals (List.replicate turns .turn) x).1.turn? s signals = none := by
    obtain ⟨_, hreaches⟩ := Driver.Tracks.exists_reaches h.live
    obtain ⟨_, _, _, _, hends⟩ := hreaches.rest_of_halted whole ended
    refine rests whole ended h.live (by rw [hends]; exact ended) ?_
    have hle := x.driver.turnsToStep_le
    unfold turnsLeft
    omega
  obtain ⟨past', hy, hasked, hreceived⟩ := h.turns whole ended turns
  rw [settle_eq_acts]
  generalize (acts s signals (List.replicate turns .turn) x).1 = y at hy hasked hrests ⊢
  have hanswered := y.answered_poll
  generalize y.poll.1 = y', y.poll.2 = answer at hanswered ⊢
  cases hanswered with
  | receive there => exact ⟨_, _, hy, hreceived, rfl⟩
  | closed empty stopped => exact ⟨_, _, hy, hreceived, rfl⟩
  | wait empty running =>
    exact absurd hrests (hy.turn?_ne_none (hasked.trans asked) empty running)

/-- **Waiting is answered with the next event**, and with none if there is none left. -/
theorem next_eq (h : Unhindered s signals w log x past) {turns : Nat}
    (enough : 4 * n + log.length + 3 ≤ turns) :
    ∃ x' past' made, x.next s signals turns = (x', .ready es[(received past).length]?, made) ∧
      Unhindered s signals w log x' past' ∧
      received past' = received past ++ es[(received past).length]?.toList := by
  have hanswered := x.answered_poll
  unfold next
  match hpoll : x.poll with
  | (x₁, .ready e) =>
    rw [hpoll] at hanswered
    obtain ⟨rfl, past', h', hreceived⟩ := h.of_answered whole ended hanswered
    exact ⟨x₁, past', [], rfl, h', hreceived⟩
  | (x₁, .pending) =>
    rw [hpoll] at hanswered
    have h₁ := unhindered_happens whole ended h (.inl rfl) (.poll hanswered)
    have hasked : x₁.requested = true := by cases hanswered; rfl
    obtain ⟨past₁, e, h₂, hsame, hready⟩ := h₁.settled whole ended hasked enough
    have hlast := answered_poll (x₁.settle s signals turns).1
    rw [hready] at hlast
    obtain ⟨he, past', h', hreceived⟩ := h₂.of_answered whole ended hlast
    rw [hsame, received_concat] at he hreceived
    have hnothing : received past ++ (Trace.polled .pending).event?.toList = received past :=
      List.append_nil _
    rw [hnothing] at he hreceived
    rw [he] at hready hreceived
    refine ⟨_, past', (x₁.settle s signals turns).2, ?_, h', hreceived⟩
    simp only [hready]

/-- **Collecting gives what the events that are left come to.** -/
theorem collect_eq (h : Unhindered s signals w log x past) {rest : List WalkEvent}
    (split : es = received past ++ rest) {turns count : Nat}
    (enough : 4 * n + log.length + 3 ≤ turns) (more : rest.length < count) :
    (x.collect s signals turns count).2.1 = some (collected rest) := by
  induction rest generalizing x past count with
  | nil =>
    obtain ⟨c, rfl⟩ : ∃ c, count = c + 1 := ⟨count - 1, by simp at more; omega⟩
    have hnone : es[(received past).length]? = none := by
      rw [split, List.append_nil, List.getElem?_eq_none (Nat.le_refl _)]
    obtain ⟨x', past', made, hnext, _⟩ := h.next_eq whole ended enough
    rw [collect, hnext, hnone]
    rfl
  | cons e rest ih =>
    obtain ⟨c, rfl⟩ : ∃ c, count = c + 1 := ⟨count - 1, by simp at more; omega⟩
    have hsome : es[(received past).length]? = some e := by
      rw [split, List.getElem?_append_right (Nat.le_refl _), Nat.sub_self]
      rfl
    obtain ⟨x', past', made, hnext, h', hreceived⟩ := h.next_eq whole ended enough
    rw [collect, hnext, hsome]
    cases e with
    | failed e => rfl
    | finished =>
      obtain rfl := Walker.Reaches.eq_nil_of_isTerminal ⟨n, whole⟩ split rfl
      rfl
    | found m =>
      have hsplit : es = received past' ++ rest := by
        rw [split, hreceived, hsome, List.append_assoc]
        rfl
      have hrest := ih h' hsplit (Nat.lt_of_succ_lt_succ more)
      rw [collected_found]
      simp only [hrest, Option.map_some]

end Unhindered

end

/-! ## Every history -/

/-- **Waiting is answered.** Take a walk, begun or not, for a parsed pattern through a
store whose directories nest finitely deep, and any history of a selection of it, given
up polls, pauses and turns in any order, as long as the selection itself has not been
given up. What was received are the first events of the walk, and what was called are
its first calls; `rest` and `later` are those still to come, and no event is left
exactly if the one that ends the walk has been received. If the flag is clear and none
of these calls sets it, then a consumer who waits receives the first of these events, or
nothing if there is none; it is never kept waiting. And one who collects gets what these
events come to: all matches that are left, or the failure that ends the walk. -/
theorem next_answers_of_free {query : String} {p : Pattern} (parsed : Pattern.parse query = .ok p)
    (o : WalkOptions) {d : Nat} (deep : s.NestsWithin d .root) {earlier : List WalkEvent}
    {made : List Call} (reached : Walker.Reaches s (Walker.start p o) earlier made w)
    (signals : Signals) {as : List Act} (kept : .drop ∉ as) :
    let x := (acts s signals as (start w)).1
    let history := (acts s signals as (start w)).2
    ∃ rest later enough,
      (∀ bound count, enough ≤ bound → enough ≤ count → (w.events bound count).run s
          = ((⟨p, o, [], true⟩, received history ++ rest), calls history ++ later)) ∧
      (w.halted = false → (rest = [] ↔ ∃ e ∈ received history, e.isTerminal = true)) ∧
      (x.paused = false → (∀ c ∈ later, signals c ≠ some true) → ∀ turns, enough ≤ turns →
        (x.next s signals turns).2.1 = .ready rest.head? ∧
          ∀ count, enough ≤ count →
            (x.collect s signals turns count).2.1 = some (collected rest)) := by
  intro x history
  -- the walk from its beginning ends, and so it does from where `w` stands
  obtain ⟨n, hn⟩ := Walker.reaches_traverse (Pattern.normal_of_parse parsed) o deep
    (Nat.lt_succ_self d)
  obtain ⟨es, log, _, _, whole⟩ := reached.rest_of_halted hn rfl
  have hreaches : w.Reaches s es log ⟨p, o, [], true⟩ := ⟨n, whole⟩
  obtain ⟨m, hevents⟩ := hreaches.exists_run_events rfl
  have hlive : x.Live s w history := live_acts s signals w kept
  obtain ⟨before, hpart⟩ := Driver.Tracks.exists_reaches hlive
  obtain ⟨_, _, hes, _, _⟩ := hpart.rest_of_halted whole rfl
  obtain ⟨later, hlog⟩ := prefix_of_tracks whole rfl hlive
  rw [List.append_assoc, List.append_assoc] at hes
  generalize x.slot.toList ++ _ = rest at hes
  refine ⟨rest, later, m + (4 * n + log.length + 3) + es.length + 1, fun bound count hb hc => ?_,
    fun running => ⟨fun hnone => ?_, fun hover => ?_⟩, fun free quiet turns hturns => ?_⟩
  · rw [hevents bound count (by omega) (by omega), hes, hlog]
  · rw [hnone, List.append_nil] at hes
    exact hes ▸ hreaches.exists_isTerminal running rfl
  · obtain ⟨e, hmem, he⟩ := hover
    obtain ⟨first, others, hsplit⟩ := List.append_of_mem hmem
    rw [hsplit, List.append_assoc, List.cons_append] at hes
    exact (List.append_eq_nil_iff.mp (hreaches.eq_nil_of_isTerminal hes he)).2
  · have h : Unhindered s signals w log x history := by
      refine ⟨hlive, balanced_acts s signals w kept, free, fun later' hlater => ?_⟩
      rwa [List.append_cancel_left (hlog.trans hlater)] at quiet
    have hbound : 4 * n + log.length + 3 ≤ turns := by omega
    refine ⟨?_, fun count hc => h.collect_eq whole rfl hes hbound ?_⟩
    · obtain ⟨_, _, _, hnext, _⟩ := h.next_eq whole rfl hbound
      rw [hnext, hes, List.getElem?_append_right (Nat.le_refl _), Nat.sub_self,
        List.head?_eq_getElem?]
    · have hlength := congrArg List.length hes
      rw [List.length_append] at hlength
      omega

/-- Two polls are given up, one of them while the walk is paused in the middle of
producing its first match. After the resume a wait finds the match, and collecting
finds the failure behind it. -/
theorem next_answers_of_free_refusing :
    let as := [.poll] ++ List.replicate 6 .turn ++ [.pause, .poll] ++ List.replicate 4 .turn ++
      [.resume]
    let x := (acts Memory.refusing.store (fun _ => none) as
      (start (Walker.start ⟨.globstar, [.wildcard "*.json"]⟩ {}))).1
    .drop ∉ as ∧ x.paused = false ∧ x.requested = true ∧ x.driver.isServing = true ∧
      ∃ (rest : List WalkEvent) (enough : Nat),
        (rest.head?.bind WalkEvent.file?).map Match.path = some ⟨"a/x.json"⟩ ∧
        ∀ turns, enough ≤ turns →
          (x.next Memory.refusing.store (fun _ => none) turns).2.1 = .ready rest.head? ∧
          ∀ count, enough ≤ count →
            (x.collect Memory.refusing.store (fun _ => none) turns count).2.1
              = some (.error (.list ⟨"a/b"⟩ (.permissionDenied "a/b"))) := by
  intro as x
  have hparse : Pattern.parse "**/*.json" = .ok ⟨.globstar, [.wildcard "*.json"]⟩ := by decide
  have hdeep := Memory.nestsWithin_store (show Memory.refusing.isPlain = true from by decide)
  have kept : .drop ∉ as := by decide
  have free : x.paused = false := by decide +kernel
  obtain ⟨rest, later, enough, hevents, _, hanswers⟩ := next_answers_of_free hparse {} hdeep
    (.refl Memory.refusing.store _) (fun _ => none) kept
  have hreached := Walker.reaches_traverse (Pattern.normal_of_parse hparse) {} hdeep
    (Nat.lt_succ_self _)
  obtain ⟨m, hm⟩ := hreached.exists_run_events rfl
  -- nothing has been received, so the events still to come are those of the whole walk
  have hnone : received (acts Memory.refusing.store (fun _ => none) as
      (start (Walker.start ⟨.globstar, [.wildcard "*.json"]⟩ {}))).2 = [] :=
    List.length_eq_zero_iff.mp (by decide +kernel)
  have hwhole := (hevents (enough + m) (enough + m) (by omega) (by omega)).symm.trans
    (hm (enough + m) (enough + m) (by omega) (by omega))
  rw [hnone, List.nil_append] at hwhole
  have hrest := congrArg (fun outcome => outcome.1.2) hwhole
  dsimp only at hrest
  have hfailure : rest.findSome? WalkEvent.failure?
      = some (.list ⟨"a/b"⟩ (.permissionDenied "a/b")) := by
    rw [hrest]
    decide +kernel
  have hfirst : (rest.head?.bind WalkEvent.file?).map Match.path = some ⟨"a/x.json"⟩ := by
    rw [hrest]
    decide +kernel
  refine ⟨kept, free, by decide +kernel, by decide +kernel, rest, enough, hfirst,
    fun turns hturns => ?_⟩
  obtain ⟨hnext, hcollect⟩ := hanswers free (by simp) turns hturns
  refine ⟨hnext, fun count hc => ?_⟩
  rw [hcollect count hc, collected, hfailure]

end Selection

end TreeQuery
