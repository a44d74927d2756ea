import TreeQuery.Proofs.Steps
import TreeQuery.Proofs.Visits

/-!
# The walk with a stack is the plain recursion

A walker keeps a stack of frames, each with a cursor, and does one unit of work
at a time; the plain recursion of `TreeQuery.Walk.Traversal` visits a directory
and, on the way, the directories in it. That they are the same walk is said of
one visit first: `Walker.Follows` holds of a stack and of findings when the
walker, with that stack, runs until it is back at the stack below and produces
just these findings as events, by just these calls – or until it ends with the
failure, if the findings have one.

Visits nest, so the induction is on the levels that directories nest; inside of
a visit it is on the entries that are ahead of the cursor. Nothing is asked of
what stands below on the stack, and this is what makes both go through.
-/

namespace TreeQuery

/-- More levels are allowed than there are. -/
theorem Store.NestsWithin.mono {s : Store} {d levels : Nat} {dir : Path}
    (h : s.NestsWithin d dir) (hle : d ≤ levels) : s.NestsWithin levels dir := by
  induction levels generalizing d dir with
  | zero => rwa [Nat.le_zero.mp hle] at h
  | succ levels ih =>
    intro name m he hd
    cases d with
    | zero => exact absurd (h name m he) (by simp [hd])
    | succ d => exact ih (h name m he hd) (Nat.le_of_succ_le_succ hle)

namespace Walker

open Traversal

/-- **The run that findings describe**, from one stack to another: the matches
are the events, and a failure ends the walk. -/
def Follows (s : Store) (p : Pattern) (o : WalkOptions) (stack below : List Frame)
    (found : Findings × List Call) : Prop :=
  match found.1.failure with
  | none => Reaches s ⟨p, o, stack, false⟩ (found.1.files.map .found) found.2 ⟨p, o, below, false⟩
  | some e =>
    Reaches s ⟨p, o, stack, false⟩ (found.1.files.map .found ++ [.failed e]) found.2
      ⟨p, o, [], true⟩

variable {s : Store} {p : Pattern} {o : WalkOptions} {stack middle below : List Frame}

namespace Follows

/-- A step without an event goes in front of a run. -/
theorem step {calls : List Call} {found : Findings × List Call}
    (h : Step s ⟨p, o, stack, false⟩ none calls ⟨p, o, middle, false⟩)
    (h' : Follows s p o middle below found) :
    Follows s p o stack below (found.1, calls ++ found.2) := by
  unfold Follows at h' ⊢
  cases hf : found.1.failure with
  | none =>
    rw [hf] at h'
    exact Reaches.head h h'
  | some e =>
    rw [hf] at h'
    exact Reaches.head h h'

/-- A step that fails is a run of its own. -/
theorem failed {calls : List Call} {e : WalkError}
    (h : Step s ⟨p, o, stack, false⟩ (some (.failed e)) calls ⟨p, o, [], true⟩) :
    Follows s p o stack below (.stopped e, calls) :=
  Reaches.of_step h

/-- **Runs follow each other as findings do**: the second one begins where the
first one ends, unless that has failed. -/
theorem inTurn {α : Type} {visit : α → Access Findings} {a : α} {rest : List α}
    (h : Follows s p o stack middle ((visit a).run s))
    (h' : Follows s p o middle below ((Traversal.inTurn visit rest).run s)) :
    Follows s p o stack below ((Traversal.inTurn visit (a :: rest)).run s) := by
  rw [Traversal.inTurn, Access.run_bind]
  cases hf : ((visit a).run s).1.failure with
  | some e =>
    unfold Follows at h ⊢
    simp only [hf, Option.isSome_some, if_true, Access.pure_eq_done, Access.run_done,
      List.append_nil] at h ⊢
    exact h
  | none =>
    unfold Follows at h h' ⊢
    simp only [hf, Option.isSome_none, Bool.false_eq_true, if_false, Access.run_bind,
      Access.pure_eq_done, Access.run_done, List.append_nil, List.map_append] at h ⊢
    cases hr : ((Traversal.inTurn visit rest).run s).1.failure with
    | none =>
      rw [hr] at h'
      exact h.trans h'
    | some e =>
      rw [hr] at h'
      simp only [List.append_assoc]
      exact h.trans h'

end Follows

/-- Every directory that a frame's entries can lead into has levels left. -/
def HasLevels (s : Store) (levels : Nat) (f : Frame) : Prop :=
  ∀ name m, s.HasEntry f.directory name m → m.isDir = true →
    ∃ d, levels = d + 1 ∧ s.NestsWithin d (f.directory.entry name)

theorem hasLevels_of_nestsWithin {levels : Nat} {f : Frame}
    (h : s.NestsWithin levels f.directory) : HasLevels s levels f := by
  intro name m he hd
  cases levels with
  | zero => exact absurd (h name m he) (by simp [hd])
  | succ d => exact ⟨d, rfl, h name m he hd⟩

/-- What can be entered from a frame has a level less. -/
theorem nestsWithin_of_descend {levels : Nat} {f g : Frame} {entries : List Entry}
    {calls : List Call} {e : Entry} (deep : s.NestsWithin levels f.directory)
    (loaded : (f.load o).run s = (.ok entries, calls)) (he : e ∈ entries)
    (h : f.action e = .descend g) :
    ∃ fewer, levels = fewer + 1 ∧ s.NestsWithin fewer g.directory := by
  rw [(Frame.fresh_of_descend h).2]
  exact hasLevels_of_nestsWithin deep e.name e.metadata (Frame.hasEntry_of_load loaded he).1
    (Frame.descend_cases h).1

/-- One entry: what the walker does about it is what the visit does about it. -/
theorem follows_visitEntry {levels : Nat} {f : Frame} {taken ahead : List Entry} {e : Entry}
    (hdescend : ∀ g, f.action e = .descend g → ∀ below,
      Follows s p o (g :: below) below ((visit together o levels g.directory g.stance).run s)) :
    Follows s p o (f.moved ⟨taken, e :: ahead⟩ :: below) (f.moved ⟨e :: taken, ahead⟩ :: below)
      ((visitEntry o levels f e).run s) := by
  unfold visitEntry
  cases ha : f.action e with
  | skip =>
    have hstep : Step s ⟨p, o, f.moved ⟨taken, e :: ahead⟩ :: below, false⟩ none []
        ⟨p, o, f.moved ⟨e :: taken, ahead⟩ :: below, false⟩ := .skip rfl ha
    exact Reaches.of_step hstep
  | descend g =>
    have hstep : Step s ⟨p, o, f.moved ⟨taken, e :: ahead⟩ :: below, false⟩ none []
        ⟨p, o, g :: f.moved ⟨e :: taken, ahead⟩ :: below, false⟩ := .descend rfl ha
    exact (hdescend g ha _).step hstep
  | emit =>
    rw [map_eq_pure_bind, Access.run_bind]
    cases hm : (matchOf o (f.pathOf e) e).run s with
    | mk result calls =>
      simp only [Access.pure_eq_done, Access.run_done, List.append_nil]
      cases result with
      | error error => exact .failed (.emitFailed rfl ha hm)
      | ok found =>
        have hstep : Step s ⟨p, o, f.moved ⟨taken, e :: ahead⟩ :: below, false⟩
            (found.map .found) calls ⟨p, o, f.moved ⟨e :: taken, ahead⟩ :: below, false⟩ :=
          .emit rfl ha hm
        cases found with
        | none => exact Reaches.of_step hstep
        | some m => exact Reaches.of_step hstep

/-- The entries that are ahead: the walker goes through them as the visit does,
and drops the frame when none is left. -/
theorem follows_inTurn {levels : Nat} {f : Frame} (taken ahead : List Entry)
    (hdescend : ∀ e ∈ ahead, ∀ g, f.action e = .descend g → ∀ below,
      Follows s p o (g :: below) below ((visit together o levels g.directory g.stance).run s)) :
    Follows s p o (f.moved ⟨taken, ahead⟩ :: below) below
      ((inTurn (visitEntry o levels f) ahead).run s) := by
  induction ahead generalizing taken with
  | nil => exact Reaches.of_step (.pop rfl)
  | cons e ahead ih =>
    exact (follows_visitEntry (hdescend e List.mem_cons_self)).inTurn
      (ih (e :: taken) fun e' he' => hdescend e' (List.mem_cons_of_mem e he'))

/-- **A fresh frame is one visit.** With the frame of a directory on top of any
stack, the walker does what a visit of the directory does, and then goes on with
the stack below – provided that directories nest no deeper than the visit
allows. -/
theorem follows_visit (levels : Nat) {f : Frame} (hf : f.Passed) (hfresh : f.cursor = none)
    (hnests : s.NestsWithin levels f.directory) (below : List Frame) :
    Follows s p o (f :: below) below
      ((visit together o (levels + 1) f.directory f.stance).run s) := by
  -- a level is used up only where there is a directory to go into
  induction levels using Nat.strongRecOn generalizing f below with
  | ind levels ih =>
    rw [visit_eq_load hf, Access.run_bind]
    cases hl : (f.load o).run s with
    | mk result calls =>
      cases result with
      | error e =>
        simp only [Access.pure_eq_done, Access.run_done, List.append_nil]
        exact .failed (.loadFailed hfresh hl)
      | ok entries =>
        refine Follows.step (.load hfresh hl) (follows_inTurn [] entries ?_)
        intro e he g hg below
        obtain ⟨d, rfl, hd⟩ := nestsWithin_of_descend hnests hl he hg
        exact ih d (Nat.lt_succ_self d) (Frame.passed_of_descend hf hg)
          (Frame.fresh_of_descend hg).1 hd below

/-! ## Whole walks -/

/-- **A walk reaches its end as the plain recursion does.** -/
theorem reaches_traverse {p : Pattern} (hp : Normal p.segments) (o : WalkOptions) {s : Store}
    {d levels : Nat} (deep : s.NestsWithin d .root) (hle : d < levels) :
    Reaches s (start p o) ((p.traverse together o levels).run s).1 ((p.traverse together o levels).run s).2
      ⟨p, o, [], true⟩ := by
  obtain ⟨l, rfl⟩ : ∃ l, levels = l + 1 := ⟨levels - 1, by omega⟩
  have hnests : s.NestsWithin l (Frame.enter .root false p.first p.rest).directory := by
    rw [Frame.directory_enter]
    exact deep.mono (Nat.le_of_lt_succ hle)
  have hvisit : Follows s p o [Frame.enter .root false p.first p.rest] []
      ((visit together o (l + 1) .root (p.segments, false)).run s) := by
    have := follows_visit (p := p) (o := o) l (Frame.passed_enter hp .root false)
      (Frame.cursor_enter _ _ _ _) hnests []
    rwa [Frame.directory_enter, visit_enter hp] at this
  unfold Pattern.traverse
  rw [Access.run_bind, Access.pure_eq_done, Access.run_done, List.append_nil]
  unfold Follows at hvisit
  unfold Findings.events
  cases hf : ((visit together o (l + 1) .root (p.segments, false)).run s).1.failure with
  | none =>
    rw [hf] at hvisit
    -- back at the empty stack, one more step reports the end
    have hend := hvisit.trans (Reaches.of_step Step.finish)
    rwa [List.append_nil] at hend
  | some e =>
    rw [hf] at hvisit
    exact hvisit

/-- Where calls do not suspend, statting one by one makes the same recursion. -/
theorem run_traverse_oneByOne (hs : s.RefusesAtOnce) (p : Pattern) (o : WalkOptions)
    (levels : Nat) :
    (p.traverse oneByOne o levels).run s = (p.traverse together o levels).run s := by
  unfold Pattern.traverse
  rw [Access.run_bind, Access.run_bind, run_visit_congr (run_oneByOne hs)]

/-- **The walk with a stack is the plain recursion**, failures included. On
every store whose directories nest finitely deep, a walk for a parsed pattern
that is asked for events until there are none gives exactly the events of the
recursion, makes exactly its calls in its order, and has then ended. How many
levels the recursion is allowed does not matter, as long as they are more than
there are.

The recursion that stats the names of a directory together is the walk on every
store, whenever refusals come. The one that stats them one by one, and stops at
the first that is refused, is the walk where calls do not suspend. -/
theorem run_events_eq_traverse {query : String} {p : Pattern}
    (parsed : Pattern.parse query = .ok p) (o : WalkOptions) {s : Store} {d levels : Nat}
    (deep : s.NestsWithin d .root) (hle : d < levels) :
    ∃ enough, ∀ bound count, enough ≤ bound → enough ≤ count →
      ((start p o).events bound count).run s =
          ((⟨p, o, [], true⟩, ((p.traverse together o levels).run s).1),
            ((p.traverse together o levels).run s).2) ∧
        (s.RefusesAtOnce → ((start p o).events bound count).run s =
          ((⟨p, o, [], true⟩, ((p.traverse oneByOne o levels).run s).1),
            ((p.traverse oneByOne o levels).run s).2)) := by
  obtain ⟨enough, hruns⟩ :=
    (reaches_traverse (Pattern.normal_of_parse parsed) o deep hle).exists_run_events rfl
  refine ⟨enough, fun bound count hbound hcount => ?_⟩
  have hrun := hruns bound count hbound hcount
  refine ⟨hrun, fun atOnce => ?_⟩
  rw [hrun, run_traverse_oneByOne atOnce]

/-- A walk that fails inside of a nested directory, after a match; and one in which two files
of a directory cannot be statted. If refusals come at once, the walk ends at the first one. If
that of the first file takes longer, all files are statted, and the other one is reported. -/
theorem run_events_eq_traverse_refusing :
    let p : Pattern := ⟨.globstar, [.wildcard "*.json"]⟩
    let lateFirst : Call → Nat := fun c => if c = .stat ⟨"a.json"⟩ then 2 else 1
    Pattern.parse "**/*.json" = .ok p ∧
      Memory.refusing.store.RefusesAtOnce ∧ Memory.unstatted.store.RefusesAtOnce ∧
      Memory.refusing.store.NestsWithin Memory.refusing.longest .root ∧
      Memory.unstatted.store.NestsWithin Memory.unstatted.longest .root ∧
      (Memory.unstatted.store.delayed lateFirst).NestsWithin Memory.unstatted.longest .root ∧
      ∃ enough, ∀ bound count, enough ≤ bound → enough ≤ count →
        (((start p {}).events bound count).run Memory.refusing.store).2
            = [.list ⟨""⟩, .stat ⟨"a"⟩, .stat ⟨"c.json"⟩, .list ⟨"a"⟩, .stat ⟨"a/x.json"⟩,
                .stat ⟨"a/b"⟩, .list ⟨"a/b"⟩] ∧
          (((start p {}).events bound count).run Memory.unstatted.store).2
            = [.list ⟨""⟩, .stat ⟨"a.json"⟩] ∧
          (((start p {}).events bound count).run
              (Memory.unstatted.store.delayed lateFirst)).1.2
            = [.failed (.stat ⟨"c.json"⟩ (.permissionDenied "c.json"))] ∧
          (((start p {}).events bound count).run
              (Memory.unstatted.store.delayed lateFirst)).2
            = [.list ⟨""⟩, .stat ⟨"a.json"⟩, .stat ⟨"b.json"⟩, .stat ⟨"c.json"⟩] := by
  intro p lateFirst
  have hparse : Pattern.parse "**/*.json" = .ok p := by decide
  have hdeep := Memory.nestsWithin_store (show Memory.refusing.isPlain = true from by decide)
  have hflat := Memory.nestsWithin_store (show Memory.unstatted.isPlain = true from by decide)
  obtain ⟨first, hfirst⟩ := run_events_eq_traverse hparse {} hdeep (Nat.lt_succ_self _)
  obtain ⟨second, hsecond⟩ := run_events_eq_traverse hparse {} hflat (Nat.lt_succ_self _)
  obtain ⟨third, hthird⟩ :=
    run_events_eq_traverse hparse {} (hflat.delayed lateFirst) (Nat.lt_succ_self _)
  refine ⟨hparse, Memory.refusesAtOnce_store _, Memory.refusesAtOnce_store _, hdeep, hflat,
    hflat.delayed lateFirst, max first (max second third), fun bound count hb hc => ?_⟩
  obtain ⟨hb₁, hb⟩ := Nat.max_le.mp hb
  obtain ⟨hb₂, hb₃⟩ := Nat.max_le.mp hb
  obtain ⟨hc₁, hc⟩ := Nat.max_le.mp hc
  obtain ⟨hc₂, hc₃⟩ := Nat.max_le.mp hc
  rw [(hfirst bound count hb₁ hc₁).2 (Memory.refusesAtOnce_store _),
    (hsecond bound count hb₂ hc₂).2 (Memory.refusesAtOnce_store _),
    (hthird bound count hb₃ hc₃).1]
  refine ⟨by decide +kernel, by decide +kernel, ?_, by decide +kernel⟩
  have hfiles : ((visit together {} (Memory.unstatted.longest + 1) .root (p.segments, false)).run
      (Memory.unstatted.store.delayed lateFirst)).1.files = [] :=
    List.isEmpty_iff.mp (by decide +kernel)
  have hfailure : ((visit together {} (Memory.unstatted.longest + 1) .root (p.segments, false)).run
      (Memory.unstatted.store.delayed lateFirst)).1.failure
        = some (.stat ⟨"c.json"⟩ (.permissionDenied "c.json")) := by decide +kernel
  rw [Pattern.traverse, Access.run_bind, Access.pure_eq_done, Access.run_done, Findings.events,
    hfiles, hfailure]
  rfl

end Walker

end TreeQuery
