import TreeQuery.Proofs.Histories
import TreeQuery.Proofs.Trees

/-!
# Demands

A consumer who asks and is not answered leaves one demand behind, and asking
again leaves no second one. From then on the demand is in one of three places:
it is stored until the driver takes it, the driver serves it – waiting for the
flag, in a step, or with the event in its hands – or it has become the event in
the slot. When the event is received, the demand is gone.

So the three places together hold one demand while the consumer has an event
outstanding, and none otherwise (`Balanced`). Whoever takes a demand puts it into
the next place in the same turn, and no order of polls, pauses and turns changes
that. It follows that the slot is empty whenever the driver hands an event over.
-/

namespace TreeQuery

namespace Driver

/-- Has the driver taken a demand whose event it has not handed over yet? -/
@[simp] def isServing : Driver → Bool
  | .ready => true
  | .stepping _ => true
  | .sending _ => true
  | .idle => false
  | .stopped => false

end Driver

namespace Selection

/-- **The demands that are on their way**: stored, with the driver – paused or
not – or turned into the event in the slot. -/
def demands (x : Selection) : Nat :=
  x.demand.toNat + x.driver.isServing.toNat + x.slot.toList.length

/-- **The demands balance**: as long as the driver is there, one is on its way if
an event is outstanding, and none if not. What lies in the slot has been asked
for, also after the driver has gone. -/
structure Balanced (x : Selection) : Prop where
  demands : x.driver ≠ .stopped → x.demands = x.requested.toNat
  asked : x.slot.isSome = true → x.requested = true

namespace Balanced

variable {x : Selection}

/-- While the driver serves a demand, nothing is stored and the slot is empty. -/
theorem of_isServing (h : x.Balanced) (serving : x.driver.isServing = true) :
    x.demand = false ∧ x.slot = none ∧ x.requested = true := by
  have hrunning : x.driver ≠ .stopped := fun hd => by simp [hd] at serving
  have hsum := h.demands hrunning
  have hle := x.requested.toNat_le
  rw [Selection.demands, serving, Bool.toNat_true] at hsum
  refine ⟨?_, ?_, ?_⟩
  · exact Bool.toNat_eq_zero.mp (by omega)
  · exact Option.toList_eq_nil_iff.mp (List.length_eq_zero_iff.mp (by omega))
  · exact Bool.toNat_eq_one.mp (by omega)

/-- With no event outstanding the driver waits or is gone, and the slot is
empty. -/
theorem of_requested_eq_false (h : x.Balanced) (quiet : x.requested = false) :
    (x.driver = .idle ∨ x.driver = .stopped) ∧ x.slot = none := by
  have hidle : x.driver.isServing = false := by
    refine Bool.eq_false_iff.mpr fun serving => ?_
    exact absurd (quiet.symm.trans (h.of_isServing serving).2.2) Bool.false_ne_true
  refine ⟨?_, ?_⟩
  · cases hd : x.driver with
    | idle => exact .inl rfl
    | stopped => exact .inr rfl
    | ready | stepping | sending => simp [hd] at hidle
  · cases hslot : x.slot with
    | none => rfl
    | some e =>
      have hrequested := h.asked (by rw [hslot]; rfl)
      exact absurd (quiet.symm.trans hrequested) Bool.false_ne_true

/-- Demands stay balanced when they only go from one place to another. -/
theorem moved {x' : Selection} (h : x.Balanced) (running : x.driver ≠ .stopped)
    (same : x'.demands = x.demands) (asked : x'.slot.isSome = true → x'.requested = true)
    (requested : x'.requested = x.requested) : x'.Balanced :=
  ⟨fun _ => by rw [same, requested, h.demands running], asked⟩

end Balanced

variable {s : Store} {signals : Signals} {w : Walker} {x x' : Selection} {a : Act} {t : Trace}

/-- In the beginning there is no demand. -/
theorem balanced_start (w : Walker) : (start w).Balanced :=
  ⟨fun _ => rfl, fun h => absurd h Bool.false_ne_true⟩

/-- **A turn moves a demand on** and leaves the number of demands as it is. -/
theorem balanced_turn {call : Option Call} (h : x.Balanced) (turn : Turn s signals x call x') :
    x'.Balanced := by
  cases turn with
  | retire due ended => exact ⟨fun hrunning => absurd rfl hrunning, h.asked⟩
  | accept due running asked =>
    exact h.moved (by simp [due]) (by simp [demands, due, asked]) h.asked rfl
  | begin due running free => exact h.moved (by simp [due]) (by simp [demands, due]) h.asked rfl
  | call due => exact h.moved (by simp [due]) (by simp [demands, due]) h.asked rfl
  | again due => exact h.moved (by simp [due]) (by simp [demands, due]) h.asked rfl
  | produce due => exact h.moved (by simp [due]) (by simp [demands, due]) h.asked rfl
  | send due free =>
    have hrequested := (h.of_isServing (by simp [due])).2.2
    exact h.moved (by simp [due]) (by simp [demands, due, free]) (fun _ => hrequested) rfl

/-- **A poll leaves a demand or takes an event**: asking stores one demand unless
an event is outstanding, and receiving uses one up. -/
theorem balanced_answered {answer : Polled} (h : x.Balanced) (answered : Answered x answer x') :
    x'.Balanced := by
  cases answered with
  | receive there =>
    have hrequested := h.asked (by rw [there]; rfl)
    refine ⟨fun hrunning => ?_, fun hslot => absurd hslot Bool.false_ne_true⟩
    have hsum := h.demands hrunning
    simp only [demands, there, hrequested, Option.toList_some, List.length_singleton,
      Bool.toNat_true] at hsum
    simp only [demands, hrequested, Bool.not_true, Bool.or_false, Option.toList_none,
      List.length_nil, Bool.toNat_false]
    omega
  | closed empty stopped =>
    exact ⟨fun hrunning => absurd stopped hrunning, fun hslot => by simp [empty] at hslot⟩
  | wait empty running =>
    refine ⟨fun hrunning => ?_, fun _ => rfl⟩
    have hsum := h.demands hrunning
    cases hrequested : x.requested with
    | true => simpa [demands, hrequested] using hsum
    | false =>
      -- nothing was on its way, and now one demand is stored
      obtain ⟨hidle | hstopped, _⟩ := h.of_requested_eq_false hrequested
      · simp [demands, hidle, empty]
      · exact absurd hstopped running

/-- **Every act keeps the demands balanced**, short of giving the selection up. -/
theorem balanced_happens (h : x.Balanced) (ha : a ≠ .drop)
    (happens : Happens s signals x a t x') : x'.Balanced := by
  cases happens with
  | poll answered => exact balanced_answered h answered
  | pause => exact ⟨h.demands, h.asked⟩
  | resume => exact ⟨h.demands, h.asked⟩
  | stuck _ => exact h
  | turn turn => exact balanced_turn h turn
  | call turn => exact balanced_turn h turn
  | drop => exact absurd rfl ha

/-- The demands of a selection that is not given up stay balanced. -/
theorem balanced_acts (s : Store) (signals : Signals) (w : Walker) {as : List Act}
    (kept : .drop ∉ as) : (acts s signals as (start w)).1.Balanced :=
  @acts_induct s signals (fun x _ => x.Balanced) as
    (fun ha h happens => balanced_happens h (fun hdrop => kept (hdrop ▸ ha)) happens)
    (start w) [] (balanced_start w)

/-- **Demands are conserved.** Whatever was polled, given up, paused and resumed,
in whatever order, as long as the selection is not given up and the walk has not
ended: one demand is on its way if an event is outstanding, and none if not. And
whenever the driver hands an event over, the one that ends the walk included, the
slot is empty and takes it at once. -/
theorem demands_eq_requested (s : Store) (signals : Signals) (w : Walker) {as : List Act}
    (kept : .drop ∉ as) :
    let x := (acts s signals as (start w)).1
    (x.walker.halted = false → x.demands = if x.requested then 1 else 0) ∧
      ∀ e, x.driver = .sending e → x.slot = none ∧
        x.turn? s signals = some ({ x with slot := some e, driver := .idle }, none) := by
  intro x
  have hbalanced : x.Balanced := balanced_acts s signals w kept
  have hlive : x.Live s w _ := live_acts s signals w kept
  refine ⟨fun running => ?_, fun e due => ?_⟩
  · have hrunning : x.driver ≠ .stopped := by
      intro hstopped
      rw [Live, hstopped] at hlive
      exact absurd (running.symm.trans hlive.1) Bool.false_ne_true
    rw [hbalanced.demands hrunning]
    cases x.requested <;> rfl
  · have hempty := (hbalanced.of_isServing (by simp [due])).2.1
    refine ⟨hempty, ?_⟩
    rw [turn?, due]
    simp [hempty]

/-- Two polls are given up, one of them while the walk is paused, before the
driver has its first match in its hands. -/
theorem demands_eq_requested_refusing :
    let as := [.poll, .pause, .turn, .poll, .resume] ++ List.replicate 14 .turn ++ [.pause]
    let x := (acts Memory.refusing.store (fun _ => none) as
      (start (Walker.start ⟨.globstar, [.wildcard "*.json"]⟩ {}))).1
    .drop ∉ as ∧ x.requested = true ∧ x.walker.halted = false ∧ x.demands = 1 ∧
      (∃ e, x.driver = .sending e) ∧ x.slot = none := by
  intro as x
  have kept : .drop ∉ as := by decide
  have hrequested : x.requested = true := by decide +kernel
  have hrunning : x.walker.halted = false := by decide +kernel
  have hsending : ∃ e, x.driver = .sending e := ⟨_, rfl⟩
  obtain ⟨hdemands, hsends⟩ := demands_eq_requested Memory.refusing.store (fun _ => none)
    (Walker.start ⟨.globstar, [.wildcard "*.json"]⟩ {}) kept
  refine ⟨kept, hrequested, hrunning, ?_, hsending, ?_⟩
  · rw [hdemands hrunning, if_pos hrequested]
  · obtain ⟨e, he⟩ := hsending
    exact (hsends e he).1

end Selection

end TreeQuery
