import TreeQuery.Proofs.Acceptance

/-!
# Failures only cut a walk short

Two stores answer alike but for some *bad* calls, and on one of them the walk ends
with everything visited. On the other one the walk is the same as long as it makes
no bad call, and the first bad call ends it: the events before that call have been
given, the calls before it have been made, and the failure is the one of the
answer to this call.

This is so because nothing a walk does goes on after an answer that it cannot use
(`GivesUp`): neither what is due for a directory and its entries, nor any frame
below. It is shown of the parts of a step first, then of a step, and then of a run,
by induction on its steps.

The stats of a directory are the one place where calls are made together. If their
refusals take time, the bad call that is reported is the one that comes first, and
others of the batch may stand before and behind it. So a log is cut in two parts
(`CutAt`): calls that are good, and those that were made together with the one that
counts. Where refusals come at once, that one is the first bad call and the last call.
-/

namespace TreeQuery

/-- **The failure that an answer is**, if it is one: a refusal of the call, or
bytes that are no JSON. -/
def Call.failure? : (c : Call) → c.Answer → Option WalkError
  | .list p, .error r => some (.list p r.cause)
  | .stat p, .error r => some (.stat p r.cause)
  | .read p, .error r => some (.read p r.cause)
  | .list _, .ok _ => none
  | .stat _, .ok _ => none
  | .read p, .ok bytes =>
    match Json.parse bytes with
    | .error e => some (.parse p e)
    | .ok _ => none

/-- A stat that is not granted is a failure, and the other way round. -/
theorem Call.failure?_stat {p : Path} {answer : (Call.stat p).Answer} {e : WalkError} :
    Call.failure? (.stat p) answer = some e ↔ ∃ r, answer = .error r ∧ e = .stat p r.cause := by
  cases answer with
  | ok m => simp [failure?]
  | error r => simp [failure?, eq_comm]

/-- A call that a store refuses, or answers by bytes that are no JSON. -/
def Store.Fails (s : Store) (c : Call) : Prop :=
  ∃ e, c.failure? (s c) = some e

/-! ## Logs that are cut short -/

/-- **A log cut short** by the failure `e` of a bad call `c`: first come calls that are good,
then those that were made `together` with `c`. None of these is refused earlier than `c`. They
are `c` alone or stats of one directory; and if refusals come at once, `c` is the last one and
the only one that is bad. -/
structure CutAt (s' : Store) (bad : Call → Prop) (log before together : List Call) (c : Call)
    (e : WalkError) : Prop where
  prefix_log : before ++ together <+: log
  good : ∀ c' ∈ before, ¬ bad c'
  mem : c ∈ together
  hit : bad c
  failure : c.failure? (s' c) = some e
  first : ∀ c' ∈ together, ∀ r r', s' c = .error r → s' c' = .error r' → r.late ≤ r'.late
  joint : together = [c] ∨
    ∃ (dir : Path) (names : List String), together = names.map fun n => .stat (dir.entry n)
  alone : s'.RefusesAtOnce → ∃ goods, together = goods ++ [c] ∧ ∀ c' ∈ goods, ¬ bad c'

namespace CutAt

variable {s' : Store} {bad : Call → Prop} {log before together calls : List Call} {c : Call}
  {e : WalkError}

/-- A log that goes on is cut at the same call. -/
theorem append (h : CutAt s' bad log before together c e) (more : List Call) :
    CutAt s' bad (log ++ more) before together c e :=
  { h with prefix_log := h.prefix_log.trans (List.prefix_append log more) }

/-- Calls that are not bad stay in front of the cut. -/
theorem after (h : CutAt s' bad log before together c e) (good : ∀ c' ∈ calls, ¬ bad c') :
    CutAt s' bad (calls ++ log) (calls ++ before) together c e :=
  { h with
    prefix_log := by
      rw [List.append_assoc]
      exact (List.prefix_append_right_inj calls).mpr h.prefix_log
    good := List.forall_mem_append.mpr ⟨good, h.good⟩ }

/-- A bad call that is made alone. -/
theorem single (hbad : bad c) (failure : c.failure? (s' c) = some e) (log : List Call) :
    CutAt s' bad (c :: log) [] [c] c e where
  prefix_log := ⟨log, rfl⟩
  good := by simp
  mem := List.mem_singleton_self c
  hit := hbad
  failure := failure
  first c' hc' r r' hr hr' := by
    obtain rfl := List.mem_singleton.mp hc'
    exact Nat.le_of_eq (congrArg Refusal.late (Except.error.inj (hr.symm.trans hr')))
  joint := .inl rfl
  alone _ := ⟨[], rfl, by simp⟩

end CutAt

/-- **A batch that fails cuts the log**, if what it fails with is bad, and bad calls fail. -/
theorem Batch.cut {s' : Store} {bad : Call → Prop} (spoiled : ∀ c, bad c → s'.Fails c)
    {dir : Path} {names asked : List String} {n : String} {r : Refusal}
    (h : Batch s' dir names asked n r) (hit : bad (.stat (dir.entry n))) {log : List Call}
    (hlog : (asked.map fun n => Call.stat (dir.entry n)) <+: log) :
    CutAt s' bad log [] (asked.map fun n => .stat (dir.entry n)) (.stat (dir.entry n))
      (.stat (dir.entry n) r.cause) where
  prefix_log := hlog
  good := by simp
  mem := List.mem_map_of_mem h.mem
  hit := hit
  failure := Call.failure?_stat.mpr ⟨r, h.refused, rfl⟩
  first c' hc' r₁ r₂ hr₁ hr₂ := by
    obtain ⟨n', hn', rfl⟩ := List.mem_map.mp hc'
    obtain rfl := Except.error.inj (h.refused.symm.trans hr₁)
    exact h.first n' hn' r₂ hr₂
  joint := .inr ⟨dir, asked, rfl⟩
  alone atOnce := by
    obtain ⟨before, rfl, hfree⟩ := h.eq_concat atOnce
    refine ⟨before.map fun n => .stat (dir.entry n), List.map_append, fun c' hc' hbad => ?_⟩
    obtain ⟨n', hn', rfl⟩ := List.mem_map.mp hc'
    obtain ⟨e, he⟩ := spoiled _ hbad
    obtain ⟨r', hr', _⟩ := Call.failure?_stat.mp he
    exact hfree n' hn' r' hr'

/-! ## Giving up -/

/-- **A computation that gives up** at the first answer that is a failure, with
this failure and without another call – where stats are made together, with what the
batch comes to and when it has come to it. -/
inductive GivesUp {α : Type} : Access (Except WalkError α) → Prop
  | done (a : α) : GivesUp (.done (.ok a))
  | ask {c : Call} {k : c.Answer → Access (Except WalkError α)}
      (fails : ∀ answer e, c.failure? answer = some e → k answer = .done (.error e))
      (goesOn : ∀ answer, c.failure? answer = none → GivesUp (k answer)) : GivesUp (.ask c k)
  | batch (dir : Path) (names : List String)
      {k : Except WalkError (List Entry) → Access (Except WalkError α)}
      (fails : ∀ e, k (.error e) = .done (.error e))
      (goesOn : ∀ entries, GivesUp (k (.ok entries))) : GivesUp (statAll dir names >>= k)

namespace GivesUp

variable {α β : Type}

/-- Loading a frame gives up at the first failure. -/
theorem load (f : Frame) (o : WalkOptions) : GivesUp (f.load o) := by
  refine .ask (fun answer e he => ?_) fun answer hanswer => ?_
  · cases answer with
    | error r => cases he; rfl
    | ok names => cases he
  · cases answer with
    | error r => cases hanswer
    | ok names => exact .batch f.directory _ (fun _ => rfl) fun entries => .done _

/-- Making a match gives up if its file cannot be read or parsed. -/
theorem matchOf (o : WalkOptions) (path : Path) (e : Entry) : GivesUp (matchOf o path e) := by
  unfold TreeQuery.matchOf
  split
  · exact .done _
  · split
    · refine .ask (fun answer error he => ?_) fun answer hanswer => ?_
      · cases answer with
        | error cause => cases he; rfl
        | ok bytes =>
          simp only [Call.failure?] at he
          cases hp : Json.parse bytes with
          | error cause => rw [hp] at he; cases he; simp [Access.bind, hp]
          | ok value => rw [hp] at he; cases he
      · cases answer with
        | error cause => cases hanswer
        | ok bytes =>
          simp only [Call.failure?] at hanswer
          cases hp : Json.parse bytes with
          | error cause => rw [hp] at hanswer; cases hanswer
          | ok value => simp only [Access.bind, hp]; exact .done _
    · exact .done _

variable {s : Store} {m : Access (Except WalkError α)}

/-- What a computation fails with is the failure of one of its calls. -/
theorem exists_failure (hm : GivesUp m) {e : WalkError} {calls : List Call}
    (h : m.run s = (.error e, calls)) : ∃ c ∈ calls, c.failure? (s c) = some e := by
  induction hm generalizing calls with
  | done a => cases h
  | @ask c k fails _ ih =>
    rw [Access.run_ask, Prod.mk.injEq] at h
    obtain ⟨hvalue, rfl⟩ := h
    cases hanswer : c.failure? (s c) with
    | some e' =>
      rw [fails _ e' hanswer] at hvalue
      cases hvalue
      exact ⟨c, List.mem_cons_self, hanswer⟩
    | none =>
      obtain ⟨c', hc', he⟩ := ih _ hanswer (Prod.ext hvalue rfl)
      exact ⟨c', List.mem_cons_of_mem c hc', he⟩
  | batch dir names fails _ ih =>
    rw [Access.run_bind, Prod.mk.injEq] at h
    obtain ⟨hvalue, rfl⟩ := h
    cases hstats : (statAll dir names).run s with
    | mk result log =>
      cases result with
      | error e' =>
        rw [hstats, fails] at hvalue
        cases hvalue
        obtain ⟨asked, n, r, hbatch, rfl, rfl⟩ := run_statAll_error hstats
        refine ⟨.stat (dir.entry n), List.mem_append_left _ (List.mem_map_of_mem hbatch.mem), ?_⟩
        exact Call.failure?_stat.mpr ⟨r, hbatch.refused, rfl⟩
      | ok entries =>
        rw [hstats] at hvalue
        obtain ⟨c, hc, he⟩ := ih entries (Prod.ext hvalue rfl)
        exact ⟨c, List.mem_append_right _ hc, he⟩

/-- **A call that fails is one of the last ones**, and what comes out is its failure or that
of a call made together with it. -/
theorem cut_of_fails (hm : GivesUp m) {result : Except WalkError α} {calls : List Call}
    (h : m.run s = (result, calls)) {c : Call} (hc : c ∈ calls) (fails : s.Fails c) :
    ∃ before together c' e, result = .error e ∧ calls = before ++ together ∧ c ∈ together ∧
      CutAt s s.Fails calls before together c' e := by
  induction hm generalizing calls with
  | done a =>
    cases h
    cases hc
  | @ask c' k gives _ ih =>
    rw [Access.run_ask, Prod.mk.injEq] at h
    obtain ⟨hvalue, rfl⟩ := h
    cases hanswer : c'.failure? (s c') with
    | some e =>
      rw [gives _ e hanswer] at hvalue hc ⊢
      exact ⟨[], [c'], c', e, hvalue.symm, rfl, hc, .single ⟨e, hanswer⟩ hanswer []⟩
    | none =>
      have hgood : ∀ c ∈ [c'], ¬ s.Fails c := List.forall_mem_singleton.mpr fun ⟨e, he⟩ => by
        rw [hanswer] at he
        cases he
      rcases List.mem_cons.mp hc with rfl | hc
      · exact absurd fails (hgood _ (List.mem_singleton_self _))
      · obtain ⟨before, together, c'', e, hresult, hcalls, hmem, hcut⟩ :=
          ih _ hanswer (Prod.ext hvalue rfl) hc
        exact ⟨c' :: before, together, c'', e, hresult, congrArg (List.cons c') hcalls, hmem,
          hcut.after hgood⟩
  | batch dir names gives _ ih =>
    rw [Access.run_bind, Prod.mk.injEq] at h
    obtain ⟨hvalue, rfl⟩ := h
    cases hstats : (statAll dir names).run s with
    | mk made log =>
      rw [hstats] at hvalue hc
      cases made with
      | error e =>
        rw [gives] at hvalue hc ⊢
        rw [Access.run_done, List.append_nil] at hc ⊢
        obtain ⟨asked, n, r, hbatch, rfl, rfl⟩ := run_statAll_error hstats
        exact ⟨[], _, _, _, hvalue.symm, rfl, hc, hbatch.cut (fun _ h => h)
          ⟨_, Call.failure?_stat.mpr ⟨r, hbatch.refused, rfl⟩⟩ List.prefix_rfl⟩
      | ok entries =>
        obtain ⟨hnames, hgranted, rfl⟩ := run_statAll_ok hstats
        have hgood : ∀ c ∈ names.map (fun n => Call.stat (dir.entry n)), ¬ s.Fails c := by
          rintro _ hmem ⟨e, he⟩
          obtain ⟨n, hn, rfl⟩ := List.mem_map.mp hmem
          obtain ⟨entry, hentry, rfl⟩ := List.mem_map.mp (hnames ▸ hn)
          obtain ⟨r, hr, _⟩ := Call.failure?_stat.mp he
          rw [hgranted entry hentry] at hr
          cases hr
        rcases List.mem_append.mp hc with hc | hc
        · exact absurd fails (hgood c hc)
        · obtain ⟨before, together, c', e, hresult, hcalls, hmem, hcut⟩ :=
            ih entries (Prod.ext hvalue rfl) hc
          refine ⟨names.map (fun n => .stat (dir.entry n)) ++ before, together, c', e, hresult, ?_,
            hmem, hcut.after hgood⟩
          simp only [hcalls, List.append_assoc]

end GivesUp

/-! ## The end of a walk -/

namespace Walker

variable {s : Store} {w v : Walker} {c : Call} {e : WalkError}

/-- A step that makes a failing call ends the walk. -/
theorem Step.cut_of_fails {event : Option WalkEvent} {calls : List Call}
    (h : Step s w event calls v) (hc : c ∈ calls) (fails : s.Fails c) :
    v.halted = true ∧ v.stack = [] ∧ ∃ before together c' e, event = some (.failed e) ∧
      calls = before ++ together ∧ c ∈ together ∧ CutAt s s.Fails calls before together c' e := by
  cases h with
  | rest | finish | pop | skip | descend => cases hc
  | load fresh loaded =>
    obtain ⟨_, _, _, _, hresult, _⟩ := (GivesUp.load _ _).cut_of_fails loaded hc fails
    cases hresult
  | emit due action read =>
    obtain ⟨_, _, _, _, hresult, _⟩ := (GivesUp.matchOf _ _ _).cut_of_fails read hc fails
    cases hresult
  | loadFailed fresh refused =>
    obtain ⟨before, together, c', e, hresult, hrest⟩ :=
      (GivesUp.load _ _).cut_of_fails refused hc fails
    obtain rfl := Except.error.inj hresult
    exact ⟨rfl, rfl, before, together, c', _, rfl, hrest⟩
  | emitFailed due action refused =>
    obtain ⟨before, together, c', e, hresult, hrest⟩ :=
      (GivesUp.matchOf _ _ _).cut_of_fails refused hc fails
    obtain rfl := Except.error.inj hresult
    exact ⟨rfl, rfl, before, together, c', _, rfl, hrest⟩

/-- Where a step makes a failing call, some call fails. -/
theorem Step.good_of_running {event : Option WalkEvent} {calls : List Call}
    (h : Step s w event calls v) (running : v.halted = false) : ∀ c ∈ calls, ¬ s.Fails c :=
  fun _ hc fails => by
    rw [(h.cut_of_fails hc fails).1] at running
    cases running

/-- **A failing call ends the walk**: the last calls are those that were made together with it,
and the only event after the matches is the failure of the one among them that comes first. -/
theorem Reaches.cut_of_fails {es : List WalkEvent} {log : List Call}
    (h : Reaches s w es log v) (hc : c ∈ log) (fails : s.Fails c) :
    v.halted = true ∧ v.stack = [] ∧
      ∃ (files : List Match) (before together : List Call) (c' : Call) (e : WalkError),
        es = files.map .found ++ [.failed e] ∧ log = before ++ together ∧ c ∈ together ∧
        CutAt s s.Fails log before together c' e := by
  induction h using Reaches.head_induction_on with
  | refl => cases hc
  | @head w u event calls es log first rest ih =>
    by_cases hcalls : c ∈ calls
    · obtain ⟨hended, hempty, before, together, c', e, rfl, rfl, hmem, hcut⟩ :=
        first.cut_of_fails hcalls fails
      obtain ⟨rfl, rfl, rfl⟩ := rest.eq_of_halted hended
      exact ⟨hended, hempty, [], before, together, c', e, rfl, List.append_nil _, hmem,
        hcut.append []⟩
    · obtain ⟨hended, hempty, files, before, together, c', e, rfl, hlog, hmem, hcut⟩ :=
        ih ((List.mem_append.mp hc).resolve_left hcalls)
      have hrunning : u.halted = false := Bool.eq_false_iff.mpr fun hhalted =>
        absurd (rest.eq_of_halted hhalted).2.1 (by simp)
      refine ⟨hended, hempty, ?_⟩
      have hgood := first.good_of_running hrunning
      have hwhole : calls ++ log = (calls ++ before) ++ together := by
        rw [hlog, List.append_assoc]
      cases event with
      | none => exact ⟨files, calls ++ before, together, c', e, rfl, hwhole, hmem, hcut.after hgood⟩
      | some event =>
        have hfound : event.isTerminal = false := by rwa [← first.halted_eq_isTerminal]
        cases event with
        | found m =>
          exact ⟨m :: files, calls ++ before, together, c', e, rfl, hwhole, hmem, hcut.after hgood⟩
        | finished | failed => cases hfound

/-- **Where calls do not suspend** the failing call is the last one, and the failure is its
own. -/
theorem Reaches.ended_of_failure (hs : s.RefusesAtOnce) {es : List WalkEvent} {log : List Call}
    (h : Reaches s w es log v) (hc : c ∈ log) (he : c.failure? (s c) = some e) :
    ∃ (files : List Match) (before : List Call),
      es = files.map .found ++ [.failed e] ∧ log = before ++ [c] := by
  obtain ⟨_, _, files, before, together, c', e', hes, hlog, hmem, hcut⟩ := h.cut_of_fails hc ⟨e, he⟩
  obtain ⟨goods, htogether, hgoods⟩ := hcut.alone hs
  have hsame : c = c' := by
    rcases List.mem_append.mp (htogether ▸ hmem) with hgood | hlast
    · exact absurd ⟨e, he⟩ (hgoods c hgood)
    · exact List.mem_singleton.mp hlast
  subst hsame
  obtain rfl := Option.some.inj (he.symm.trans hcut.failure)
  exact ⟨files, before ++ goods, hes, by rw [hlog, htogether, List.append_assoc]⟩

end Walker

/-! ## Two stores -/

section

variable {s s' : Store} {bad : Call → Prop} (spoiled : ∀ c, bad c → ∃ e, c.failure? (s' c) = some e)
  (same : ∀ c, ¬ bad c → s' c = s c)

include spoiled same

/-- **A batch on two stores**: what succeeds on one of them fails on the other one with a bad
call, if it fails. -/
theorem Batch.cutAt {dir : Path} {names asked : List String} {n : String} {r : Refusal}
    (h : Batch s' dir names asked n r) {entries : List Entry} {calls : List Call}
    (hs : (statAll dir names).run s = (.ok entries, calls)) :
    CutAt s' bad calls [] (asked.map fun n => .stat (dir.entry n)) (.stat (dir.entry n))
      (.stat (dir.entry n) r.cause) := by
  obtain ⟨hnames, hgranted, rfl⟩ := run_statAll_ok hs
  refine h.cut spoiled ?_ (h.beginning.map _)
  by_contra hgood
  obtain ⟨entry, hentry, rfl⟩ := List.mem_map.mp (hnames ▸ h.beginning.subset h.mem)
  have hrefused := h.refused
  rw [same _ hgood, hgranted entry hentry] at hrefused
  cases hrefused

/-- A batch that succeeds on two stores makes no bad call and comes to the same. -/
theorem statAll_same {dir : Path} {names : List String} {entries entries' : List Entry}
    {calls calls' : List Call} (hs : (statAll dir names).run s = (.ok entries, calls))
    (hs' : (statAll dir names).run s' = (.ok entries', calls')) :
    entries' = entries ∧ calls' = calls ∧ ∀ c ∈ calls, ¬ bad c := by
  obtain ⟨hnames, hgranted, rfl⟩ := run_statAll_ok hs
  obtain ⟨hnames', hgranted', rfl⟩ := run_statAll_ok hs'
  have hgood : ∀ n ∈ names, ¬ bad (.stat (dir.entry n)) := by
    intro n hn hbad
    obtain ⟨entry, hentry, rfl⟩ := List.mem_map.mp (hnames' ▸ hn)
    obtain ⟨e, he⟩ := spoiled _ hbad
    obtain ⟨r, hr, _⟩ := Call.failure?_stat.mp he
    rw [hgranted' entry hentry] at hr
    cases hr
  refine ⟨?_, rfl, List.forall_mem_map.mpr hgood⟩
  refine entries_ext hnames' hnames (fun e he => ?_) hgranted
  rw [← same _ (hgood e.name (hnames' ▸ List.mem_map_of_mem he))]
  exact hgranted' e he

/-- **A computation that gives up, on two stores**: if it succeeds on one of them, it
does the same on the other one, or it is cut short by a bad call. -/
theorem GivesUp.run_or_cut {α : Type} {m : Access (Except WalkError α)} (hm : GivesUp m) {a : α}
    {calls : List Call} (h : m.run s = (.ok a, calls)) :
    ((∀ c ∈ calls, ¬ bad c) ∧ m.run s' = (.ok a, calls)) ∨
      ∃ before together c e, CutAt s' bad calls before together c e ∧
        m.run s' = (.error e, before ++ together) := by
  induction hm generalizing calls with
  | done a => cases h; exact .inl ⟨by simp, rfl⟩
  | @ask c k fails _ ih =>
    rw [Access.run_ask, Prod.mk.injEq] at h
    obtain ⟨hvalue, rfl⟩ := h
    by_cases hc : bad c
    · obtain ⟨e, he⟩ := spoiled c hc
      refine .inr ⟨[], [c], c, e, .single hc he _, ?_⟩
      rw [Access.run_ask, fails _ e he]
      rfl
    · cases hanswer : c.failure? (s c) with
      | some e =>
        rw [fails _ e hanswer] at hvalue
        cases hvalue
      | none =>
        have hgood : ∀ c' ∈ [c], ¬ bad c' := List.forall_mem_singleton.mpr hc
        rw [Access.run_ask, same c hc]
        rcases ih _ hanswer (Prod.ext hvalue rfl) with
          ⟨hcalls, hrun⟩ | ⟨before, together, c', e, hcut, hrun⟩
        · exact .inl ⟨List.forall_mem_append.mpr ⟨hgood, hcalls⟩, by rw [hrun]⟩
        · exact .inr ⟨c :: before, together, c', e, hcut.after hgood, by rw [hrun]; rfl⟩
  | batch dir names fails _ ih =>
    rw [Access.run_bind, Prod.mk.injEq] at h
    obtain ⟨hvalue, rfl⟩ := h
    cases hstats : (statAll dir names).run s with
    | mk made log =>
      rw [hstats] at hvalue
      cases made with
      | error e =>
        rw [fails] at hvalue
        cases hvalue
      | ok entries =>
        rw [Access.run_bind]
        cases hstats' : (statAll dir names).run s' with
        | mk made' log' =>
          cases made' with
          | error e =>
            obtain ⟨asked, n, r, hbatch, rfl, rfl⟩ := run_statAll_error hstats'
            refine .inr ⟨[], _, _, _, (hbatch.cutAt spoiled same hstats).append _, ?_⟩
            simp only [fails, Access.run_done, List.append_nil, List.nil_append]
          | ok entries' =>
            obtain ⟨rfl, rfl, hgood⟩ := statAll_same spoiled same hstats hstats'
            rcases ih _ (Prod.ext hvalue rfl) with
              ⟨hcalls, hrun⟩ | ⟨before, together, c, e, hcut, hrun⟩
            · exact .inl ⟨List.forall_mem_append.mpr ⟨hgood, hcalls⟩, by simp only [hrun]⟩
            · exact .inr ⟨log' ++ before, together, c, e, hcut.after hgood, by
                simp only [hrun, List.append_assoc]⟩

namespace Walker

/-- **A step on two stores**: it is the same step, or one that ends the walk with the
failure of a bad call. -/
theorem Step.same_or_cut {w v : Walker} {event : Option WalkEvent} {calls : List Call}
    (h : Step s w event calls v) (hok : ∀ e, event ≠ some (.failed e)) :
    ((∀ c ∈ calls, ¬ bad c) ∧ Step s' w event calls v) ∨
      ∃ before together c e u, CutAt s' bad calls before together c e ∧
        Step s' w (some (.failed e)) (before ++ together) u ∧ u.halted = true ∧ u.stack = [] := by
  have hnone : ∀ c ∈ ([] : List Call), ¬ bad c := by simp
  cases h with
  | rest ended => exact .inl ⟨hnone, .rest ended⟩
  | finish => exact .inl ⟨hnone, .finish⟩
  | pop spent => exact .inl ⟨hnone, .pop spent⟩
  | skip due action => exact .inl ⟨hnone, .skip due action⟩
  | descend due action => exact .inl ⟨hnone, .descend due action⟩
  | loadFailed fresh refused => exact absurd rfl (hok _)
  | emitFailed due action refused => exact absurd rfl (hok _)
  | load fresh loaded =>
    rcases (GivesUp.load _ _).run_or_cut spoiled same loaded with
      ⟨hgood, hrun⟩ | ⟨before, together, c, e, hcut, hrun⟩
    · exact .inl ⟨hgood, .load fresh hrun⟩
    · exact .inr ⟨before, together, c, e, _, hcut, .loadFailed fresh hrun, rfl, rfl⟩
  | emit due action read =>
    rcases (GivesUp.matchOf _ _ _).run_or_cut spoiled same read with
      ⟨hgood, hrun⟩ | ⟨before, together, c, e, hcut, hrun⟩
    · exact .inl ⟨hgood, .emit due action hrun⟩
    · exact .inr ⟨before, together, c, e, _, hcut, .emitFailed due action hrun, rfl, rfl⟩

/-- **A run on two stores**: it is the same run, or it is cut short by a bad call. -/
theorem Reaches.same_or_cut {w v : Walker} {es : List WalkEvent} {log : List Call}
    (h : Reaches s w es log v) (hok : ∀ e, .failed e ∉ es) :
    ((∀ c ∈ log, ¬ bad c) ∧ Reaches s' w es log v) ∨
      ∃ given before together c e u, given <+: es ∧ CutAt s' bad log before together c e ∧
        Reaches s' w (given ++ [.failed e]) (before ++ together) u ∧ u.halted = true ∧
        u.stack = [] := by
  induction h using Reaches.head_induction_on with
  | refl => exact .inl ⟨by simp, .refl s' _⟩
  | @head w v event calls es log first _ ih =>
    have hevent : ∀ e, event ≠ some (.failed e) := fun e he =>
      hok e (List.mem_append_left es (Option.mem_toList.mpr he))
    rcases first.same_or_cut spoiled same hevent with
      ⟨hcalls, hstep⟩ | ⟨before, together, c, e, u, hcut, hstep, hended, hempty⟩
    · rcases ih fun e he => hok e (List.mem_append_right _ he) with
        ⟨hlog, hrest⟩ | ⟨given, before, together, c, e, u, hgiven, hcut, hrest, hended, hempty⟩
      · exact .inl ⟨List.forall_mem_append.mpr ⟨hcalls, hlog⟩, hrest.head hstep⟩
      · refine .inr ⟨event.toList ++ given, calls ++ before, together, c, e, u,
          (List.prefix_append_right_inj _).mpr hgiven, hcut.after hcalls, ?_, hended, hempty⟩
        rw [List.append_assoc, List.append_assoc]
        exact hrest.head hstep
    · exact .inr ⟨[], before, together, c, e, u, List.nil_prefix, hcut.append log,
        .of_step hstep, hended, hempty⟩

end Walker

end

/-! ## Whole walks -/

namespace Walker

/-- A beginning of the events of a walk that ends with everything visited, if more
comes behind it than the end, is made of matches. -/
theorem exists_files_of_prefix {files : List Match} {given : List WalkEvent}
    (h : given <+: files.map .found ++ [.finished]) (hmore : .finished ∉ given) :
    ∃ fewer, fewer <+: files ∧ given = fewer.map .found := by
  rcases List.prefix_concat_iff.mp h with rfl | h
  · exact absurd (List.mem_append_right _ (List.mem_singleton_self _)) hmore
  · exact List.prefix_map_iff.mp h

/-- **Failures only cut a walk short.** Let a walk on `s` end with everything visited,
and let `s'` answer as `s` does but for some bad calls. Then the walk on `s'` ends
too. If it makes no bad call, it has the same events and makes the same calls.
Otherwise it gives some of the matches, from the first one on, and then the failure;
its calls are a beginning of those of the walk on `s`, cut short by a bad one whose
failure it is. Nothing is left on the stack.

Where the calls to `s'` do not suspend, the calls are those of the walk on `s` up to the
first bad one, which is the last. Where they do, the bad call that counts may have been
made together with other stats of its directory: all these are the end of the log, and
of the bad ones among them it is refused first. -/
theorem events_cut_of_failure (p : Pattern) (o : WalkOptions) {s s' : Store}
    {bad : Call → Prop} (spoiled : ∀ c, bad c → ∃ e, c.failure? (s' c) = some e)
    (same : ∀ c, ¬ bad c → s' c = s c) {bound count : Nat} {v : Walker} {files : List Match}
    {log : List Call}
    (complete : ((start p o).events bound count).run s
      = ((v, files.map .found ++ [.finished]), log)) :
    ∃ enough u es made, (∀ bound count, enough ≤ bound → enough ≤ count →
        ((start p o).events bound count).run s' = ((u, es), made)) ∧
      u.halted = true ∧ u.stack = [] ∧
      ((∀ c ∈ made, ¬ bad c) → es = files.map .found ++ [.finished] ∧ made = log) ∧
      (s'.RefusesAtOnce → (∃ c ∈ made, bad c) → ∃ fewer before c e, fewer <+: files ∧
        es = fewer.map .found ++ [.failed e] ∧ made = before ++ [c] ∧ made <+: log ∧
        (∀ c' ∈ before, ¬ bad c') ∧ bad c ∧ c.failure? (s' c) = some e) ∧
      ((∃ c ∈ made, bad c) → ∃ fewer before together c e, fewer <+: files ∧
        es = fewer.map .found ++ [.failed e] ∧ made = before ++ together ∧
        CutAt s' bad log before together c e) := by
  have hreached := Reaches.of_events s bound count (start p o)
  rw [complete] at hreached
  have hok : ∀ e, .failed e ∉ files.map WalkEvent.found ++ [.finished] := by simp
  rcases hreached.same_or_cut spoiled same hok with
    ⟨hgood, hrun⟩ | ⟨given, before, together, c, e, u, hgiven, hcut, hrun, hended, hempty⟩
  · obtain ⟨hended, hempty⟩ := hreached.ended_of_isTerminal
      (List.mem_append_right _ (List.mem_singleton_self _)) rfl
    obtain ⟨enough, hevents⟩ := hrun.exists_run_events hended
    have hnone : ¬ ∃ c ∈ log, bad c := fun ⟨c, hc, hbad⟩ => hgood c hc hbad
    exact ⟨enough, v, _, log, hevents, hended, hempty, fun _ => ⟨rfl, rfl⟩,
      fun _ hsome => absurd hsome hnone, fun hsome => absurd hsome hnone⟩
  · obtain ⟨enough, hevents⟩ := hrun.exists_run_events hended
    have hmore : .finished ∉ given := by
      intro hmem
      obtain ⟨earlier, later, rfl⟩ := List.append_of_mem hmem
      have hsplit : earlier ++ .finished :: later ++ [.failed e]
          = earlier ++ .finished :: (later ++ [.failed e]) := List.append_assoc _ _ _
      exact absurd (hrun.eq_nil_of_isTerminal hsplit rfl) (by simp)
    obtain ⟨fewer, hfewer, rfl⟩ := exists_files_of_prefix hgiven hmore
    refine ⟨enough, u, _, before ++ together, hevents, hended, hempty, fun hgood => ?_,
      fun atOnce _ => ?_, fun _ => ⟨fewer, before, together, c, e, hfewer, rfl, rfl, hcut⟩⟩
    · exact absurd hcut.hit (hgood c (List.mem_append_right _ hcut.mem))
    · obtain ⟨goods, rfl, hgoods⟩ := hcut.alone atOnce
      exact ⟨fewer, before ++ goods, c, e, hfewer, rfl, (List.append_assoc _ _ _).symm,
        hcut.prefix_log, List.forall_mem_append.mpr ⟨hcut.good, hgoods⟩, hcut.hit, hcut.failure⟩

/-- The listing of a nested directory is refused, after a match. -/
theorem events_cut_of_failure_nested :
    let p : Pattern := ⟨.globstar, [.wildcard "*.json"]⟩
    let lost : Call := .list ⟨"data/data"⟩
    let s' : Store := fun c =>
      if c = lost then .error (AccessError.io "gone").atOnce else Memory.nested.store c
    s'.RefusesAtOnce ∧
      ∃ files v log bound count, ((start p {}).events bound count).run Memory.nested.store
          = ((v, files.map .found ++ [.finished]), log) ∧
        ∃ enough u fewer before, fewer <+: files ∧ before ++ [lost] <+: log ∧ u.stack = [] ∧
          ∀ bound count, enough ≤ bound → enough ≤ count →
            ((start p {}).events bound count).run s'
              = ((u, fewer.map .found ++ [.failed (.list ⟨"data/data"⟩ (.io "gone"))]),
                  before ++ [lost]) := by
  intro p lost s'
  have hatOnce : s'.RefusesAtOnce := by
    intro c r hr
    by_cases hc : c = lost
    · subst hc
      rw [show s' lost = .error (AccessError.io "gone").atOnce from if_pos rfl] at hr
      cases hr
      rfl
    · exact Memory.refusesAtOnce_store _ c r ((if_neg hc).symm.trans hr)
  have hparse : Pattern.parse "**/*.json" = .ok p := by decide
  have hdeep := Memory.nestsWithin_store (show Memory.nested.isPlain = true from by decide)
  obtain ⟨n, hn⟩ := exists_events_of_complete (o := {}) (Pattern.normal_of_parse hparse) hdeep
    (Option.isNone_iff_eq_none.mp (by decide +kernel))
  have hcomplete := hn n n (Nat.le_refl n) (Nat.le_refl n)
  have hfailure : lost.failure? (s' lost) = some (.list ⟨"data/data"⟩ (.io "gone")) := by
    rw [show s' lost = .error (AccessError.io "gone").atOnce from if_pos rfl]
    rfl
  have hspoiled : ∀ c, c = lost → ∃ e, c.failure? (s' c) = some e :=
    fun c hc => hc ▸ ⟨_, hfailure⟩
  obtain ⟨enough, u, es, made, hevents, _, hempty, hgood, hbad, _⟩ :=
    events_cut_of_failure p {} hspoiled (fun c hc => if_neg hc) hcomplete
  have hcalled : lost ∈ ((p.traverse Traversal.together {} (Memory.nested.longest + 1)).run
      Memory.nested.store).2 := by
    decide +kernel
  have hlost : ∃ c ∈ made, c = lost := by
    by_contra hnone
    obtain ⟨_, rfl⟩ := hgood fun c hc heq => hnone ⟨c, hc, heq⟩
    exact hnone ⟨lost, hcalled, rfl⟩
  obtain ⟨fewer, before, c, e, hfewer, rfl, rfl, hprefix, _, rfl, he⟩ := hbad hatOnce hlost
  cases hfailure.symm.trans he
  exact ⟨hatOnce, _, _, _, n, n, hcomplete, enough, u, fewer, before, hfewer, hprefix, hempty,
    hevents⟩

end Walker

end TreeQuery
