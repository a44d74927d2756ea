import Mathlib.Data.List.Basic
import TreeQuery.Walk.Frame

/-!
# Stats that are made together

The stats of a directory are one batch: all calls are made, unless one of them is
refused at once, and if several are refused the one whose refusal comes first is the
failure. Here it is said once what a batch does. If it succeeds, every name has been
statted (`run_statAll_ok`). If it fails, a structure says how (`Batch`): which names
have been asked about, and which refusal was the first.

With a store that refuses at once a batch is no different from stats made one after
the other: it stops at the first refusal (`Batch.eq_concat`).
-/

namespace TreeQuery

variable {s : Store} {dir : Path} {n : String} {names : List String}

/-! ## One name -/

/-- A name that is known about is an entry in front of the others. -/
theorem run_statEach_of_ok {m : Metadata} (h : s (.stat (dir.entry n)) = .ok m) :
    (statEach dir (n :: names)).run s
      = (((statEach dir names).run s).1.map (⟨n, m⟩ :: ·),
        .stat (dir.entry n) :: ((statEach dir names).run s).2) := by
  simp [statEach, Access.stat, h, Access.run_bind]

/-- A name that is refused at once is the last one. -/
theorem run_statEach_of_atOnce {r : Refusal} (h : s (.stat (dir.entry n)) = .error r)
    (hlate : r.late = 0) :
    (statEach dir (n :: names)).run s
      = (.error ⟨.stat (dir.entry n) r.cause, r.late⟩, [.stat (dir.entry n)]) := by
  simp [statEach, Access.stat, h, hlate]

/-- A name that is refused late is weighed against the others. -/
theorem run_statEach_of_late {r : Refusal} (h : s (.stat (dir.entry n)) = .error r)
    (hlate : r.late ≠ 0) :
    (statEach dir (n :: names)).run s
      = (.error (Setback.against ⟨.stat (dir.entry n) r.cause, r.late⟩
            ((statEach dir names).run s).1),
        .stat (dir.entry n) :: ((statEach dir names).run s).2) := by
  simp [statEach, Access.stat, h, hlate, Access.run_bind]

theorem run_statAll (s : Store) (dir : Path) (names : List String) :
    (statAll dir names).run s
      = (((statEach dir names).run s).1.mapError Setback.error,
        ((statEach dir names).run s).2) := by
  simp [statAll, Access.run_bind]

/-! ## Success -/

/-- **A batch succeeds** with one entry for each name, in order, and one call for each. -/
theorem run_statEach_ok {entries : List Entry} {calls : List Call}
    (h : (statEach dir names).run s = (.ok entries, calls)) :
    entries.map Entry.name = names ∧
      (∀ e ∈ entries, s (.stat (dir.entry e.name)) = .ok e.metadata) ∧
      calls = names.map fun n => .stat (dir.entry n) := by
  induction names generalizing entries calls with
  | nil =>
    cases h
    exact ⟨rfl, by simp, rfl⟩
  | cons n names ih =>
    cases hs : s (.stat (dir.entry n)) with
    | error r =>
      by_cases hlate : r.late = 0
      · rw [run_statEach_of_atOnce hs hlate] at h
        cases h
      · rw [run_statEach_of_late hs hlate] at h
        cases h
    | ok m =>
      rw [run_statEach_of_ok hs] at h
      cases hr : (statEach dir names).run s with
      | mk result log =>
        rw [hr] at h
        cases result with
        | error setback => cases h
        | ok rest =>
          cases h
          obtain ⟨hnames, hstats, rfl⟩ := ih hr
          exact ⟨congrArg (List.cons n) hnames, List.forall_mem_cons.mpr ⟨hs, hstats⟩, rfl⟩

/-- **Statting succeeds** with one entry for each name, in order, and one call
for each. -/
theorem run_statAll_ok {entries : List Entry} {calls : List Call}
    (h : (statAll dir names).run s = (.ok entries, calls)) :
    entries.map Entry.name = names ∧
      (∀ e ∈ entries, s (.stat (dir.entry e.name)) = .ok e.metadata) ∧
      calls = names.map fun n => .stat (dir.entry n) := by
  rw [run_statAll] at h
  cases hr : (statEach dir names).run s with
  | mk result log =>
    rw [hr] at h
    cases result with
    | error setback => cases h
    | ok known => cases h; exact run_statEach_ok hr

/-- **Names that can all be statted are.** -/
theorem exists_statAll_ok (dir : Path) (names : List String)
    (h : ∀ n ∈ names, ∃ m, s (.stat (dir.entry n)) = .ok m) :
    ∃ entries calls, (statAll dir names).run s = (.ok entries, calls) := by
  suffices heach : ∃ entries calls, (statEach dir names).run s = (.ok entries, calls) by
    obtain ⟨entries, calls, hr⟩ := heach
    exact ⟨entries, calls, by rw [run_statAll, hr]; rfl⟩
  induction names with
  | nil => exact ⟨[], [], rfl⟩
  | cons n names ih =>
    obtain ⟨⟨m, hm⟩, hrest⟩ := List.forall_mem_cons.mp h
    obtain ⟨entries, calls, hr⟩ := ih hrest
    exact ⟨⟨n, m⟩ :: entries, .stat (dir.entry n) :: calls, by rw [run_statEach_of_ok hm, hr]; rfl⟩

/-- What is statted depends on the answers only. -/
theorem entries_ext {known known' : List Entry} (hnames : known.map Entry.name = names)
    (hnames' : known'.map Entry.name = names)
    (hstats : ∀ e ∈ known, s (.stat (dir.entry e.name)) = .ok e.metadata)
    (hstats' : ∀ e ∈ known', s (.stat (dir.entry e.name)) = .ok e.metadata) : known = known' := by
  induction names generalizing known known' with
  | nil => rw [List.map_eq_nil_iff.mp hnames, List.map_eq_nil_iff.mp hnames']
  | cons n names ih =>
    obtain ⟨e, rest, rfl, rfl, hrest⟩ := List.map_eq_cons_iff.mp hnames
    obtain ⟨e', rest', rfl, hname, hrest'⟩ := List.map_eq_cons_iff.mp hnames'
    obtain ⟨he, hall⟩ := List.forall_mem_cons.mp hstats
    obtain ⟨he', hall'⟩ := List.forall_mem_cons.mp hstats'
    rw [hname, he] at he'
    have heq : e = e' := by
      cases e; cases e'; cases hname; cases he'; rfl
    rw [heq, ih hrest hrest' hall hall']

/-! ## Failure -/

/-- **How a batch fails.** Of the `names`, those `asked` about are a beginning; `n` is one of
them, its refusal is `r`, and none comes earlier. If it came at once, `n` is the last one that
was asked about, and nothing before it was refused at once; otherwise all names were. -/
structure Batch (s : Store) (dir : Path) (names asked : List String) (n : String)
    (r : Refusal) : Prop where
  beginning : asked <+: names
  mem : n ∈ asked
  refused : s (.stat (dir.entry n)) = .error r
  first : ∀ n' ∈ asked, ∀ r', s (.stat (dir.entry n')) = .error r' → r.late ≤ r'.late
  stopped : r.late = 0 → ∃ before, asked = before ++ [n] ∧
    ∀ n' ∈ before, ∀ r', s (.stat (dir.entry n')) = .error r' → r'.late ≠ 0
  all : r.late ≠ 0 → asked = names

namespace Batch

variable {asked : List String} {r : Refusal}

/-- A batch with another name in front of it, which is not refused any earlier. -/
theorem cons (h : Batch s dir names asked n r) {n' : String}
    (hlate : ∀ r', s (.stat (dir.entry n')) = .error r' → r'.late ≠ 0 ∧ r.late ≤ r'.late) :
    Batch s dir (n' :: names) (n' :: asked) n r where
  beginning := List.cons_prefix_cons.mpr ⟨rfl, h.beginning⟩
  mem := List.mem_cons_of_mem n' h.mem
  refused := h.refused
  first := List.forall_mem_cons.mpr ⟨fun r' hr' => (hlate r' hr').2, h.first⟩
  stopped hr := by
    obtain ⟨before, rfl, hbefore⟩ := h.stopped hr
    exact ⟨n' :: before, rfl, List.forall_mem_cons.mpr ⟨fun r' hr' => (hlate r' hr').1, hbefore⟩⟩
  all hr := congrArg (List.cons n') (h.all hr)

/-- A name that is refused at once is all that is asked about. -/
theorem of_atOnce (h : s (.stat (dir.entry n)) = .error r) (hlate : r.late = 0)
    (names : List String) : Batch s dir (n :: names) [n] n r where
  beginning := ⟨names, rfl⟩
  mem := List.mem_singleton_self n
  refused := h
  first := fun _ _ _ _ => hlate ▸ Nat.zero_le _
  stopped := fun _ => ⟨[], rfl, by simp⟩
  all := fun hne => absurd hlate hne

/-- A late refusal counts if the names after it are refused no earlier, if at all. -/
theorem of_late (h : s (.stat (dir.entry n)) = .error r) (hlate : r.late ≠ 0)
    (hrest : ∀ n' ∈ names, ∀ r', s (.stat (dir.entry n')) = .error r' → r.late ≤ r'.late) :
    Batch s dir (n :: names) (n :: names) n r where
  beginning := List.prefix_rfl
  mem := List.mem_cons_self
  refused := h
  first := by
    refine List.forall_mem_cons.mpr ⟨fun r' hr' => ?_, hrest⟩
    rw [h] at hr'
    exact Nat.le_of_eq (congrArg Refusal.late (Except.error.inj hr'))
  stopped := fun hzero => absurd hzero hlate
  all := fun _ => rfl

/-- **Without suspending calls** a batch stops at the first name that is refused. -/
theorem eq_concat (h : Batch s dir names asked n r) (hs : s.RefusesAtOnce) :
    ∃ before, asked = before ++ [n] ∧
      ∀ n' ∈ before, ∀ r', s (.stat (dir.entry n')) ≠ .error r' := by
  obtain ⟨before, rfl, hbefore⟩ := h.stopped (hs _ r h.refused)
  exact ⟨before, rfl, fun n' hn' r' hr' => hbefore n' hn' r' hr' (hs _ r' hr')⟩

end Batch

/-- **A batch fails** with the refusal that comes first. -/
theorem run_statEach_error {setback : Setback} {calls : List Call}
    (h : (statEach dir names).run s = (.error setback, calls)) :
    ∃ asked n r, Batch s dir names asked n r ∧
      setback = ⟨.stat (dir.entry n) r.cause, r.late⟩ ∧
      calls = asked.map fun n => .stat (dir.entry n) := by
  induction names generalizing setback calls with
  | nil => cases h
  | cons n names ih =>
    cases hs : s (.stat (dir.entry n)) with
    | ok m =>
      rw [run_statEach_of_ok hs] at h
      cases hr : (statEach dir names).run s with
      | mk result log =>
        rw [hr] at h
        cases result with
        | ok rest => cases h
        | error setback =>
          cases h
          obtain ⟨asked, n', r, hbatch, rfl, rfl⟩ := ih hr
          exact ⟨n :: asked, n', r, hbatch.cons fun r' hr' => by simp [hs] at hr', rfl, rfl⟩
    | error r =>
      by_cases hlate : r.late = 0
      · rw [run_statEach_of_atOnce hs hlate] at h
        cases h
        exact ⟨[n], n, r, .of_atOnce hs hlate names, rfl, rfl⟩
      · rw [run_statEach_of_late hs hlate] at h
        cases hr : (statEach dir names).run s with
        | mk result log =>
          rw [hr] at h
          cases result with
          | ok rest =>
            cases h
            obtain ⟨hnames, hstats, rfl⟩ := run_statEach_ok hr
            refine ⟨n :: names, n, r, .of_late hs hlate fun n' hn' r' hr' => ?_, rfl, rfl⟩
            -- nothing else is refused
            obtain ⟨e, he, rfl⟩ := List.mem_map.mp (hnames ▸ hn')
            rw [hstats e he] at hr'
            cases hr'
          | error later =>
            cases h
            obtain ⟨asked, n', r', hbatch, rfl, rfl⟩ := ih hr
            simp only [Setback.against]
            split
            · next hless =>
              refine ⟨n :: asked, n', r', hbatch.cons fun r'' hr'' => ?_, rfl, rfl⟩
              obtain rfl := Except.error.inj (hs.symm.trans hr'')
              exact ⟨hlate, Nat.le_of_lt hless⟩
            · next hnot =>
              have hearlier : r.late ≤ r'.late := Nat.le_of_not_lt hnot
              -- the names after it have all been asked about, as nothing came at once
              obtain rfl : asked = names :=
                hbatch.all fun hzero => hlate (Nat.le_zero.mp (hzero ▸ hearlier))
              exact ⟨n :: asked, n, r, .of_late hs hlate fun n'' hn'' r'' hr'' =>
                Nat.le_trans hearlier (hbatch.first n'' hn'' r'' hr''), rfl, rfl⟩

/-- **Statting fails** with the refusal that comes first, and with the calls of the names that
have been asked about. -/
theorem run_statAll_error {e : WalkError} {calls : List Call}
    (h : (statAll dir names).run s = (.error e, calls)) :
    ∃ asked n r, Batch s dir names asked n r ∧ e = .stat (dir.entry n) r.cause ∧
      calls = asked.map fun n => .stat (dir.entry n) := by
  rw [run_statAll] at h
  cases hr : (statEach dir names).run s with
  | mk result log =>
    rw [hr] at h
    cases result with
    | ok known => cases h
    | error setback =>
      cases h
      obtain ⟨asked, n, r, hbatch, rfl, rfl⟩ := run_statEach_error hr
      exact ⟨asked, n, r, hbatch, rfl, rfl⟩

end TreeQuery
