import TreeQuery.Proofs.Acceptance

/-!
# Patterns for which committing loses nothing

A walk leaves a `**` at the first directory that the next segment accepts, and
never comes back. In general this loses files: with `**/data/*.json` a walk that
has gone into `data` does not find `data/data/4.json`. But suppose that behind
the segment another `**` is due. The names between the first directory that was
accepted and the one at which the names of a file really go on are then no
obstacle: the next `**` stands for them as well (`Denotes.leave_early`).

So nothing is lost for patterns in which, from the first `**` on, single
segments alternate with `**` – `Spaced` patterns. Committed reading and the
language of the segments agree on them, for lists of names of any length
(`Pattern.reads_iff_denotes`), and a walk finds every file that is denoted.
-/

namespace TreeQuery

/-! ## Spaced patterns -/

/-- **Single segments that alternate with `**`**: `**/s₁/**/s₂/…/**/sₖ`. -/
inductive Alternating : List Segment → Prop
  | done : Alternating []
  | step {s : Segment} {later : List Segment} (single : s ≠ .globstar)
      (rest : Alternating later) : Alternating (.globstar :: s :: later)

/-- **Spaced segments**: behind the first `**` every `**` is followed by one
single segment, and this by another `**` or by nothing. -/
def Spaced (segments : List Segment) : Prop :=
  ∃ front back, segments = front ++ back ∧ .globstar ∉ front ∧ Alternating back

/-- Alternating segments are normal. -/
theorem Alternating.normal {segments : List Segment} (h : Alternating segments) :
    Normal segments := by
  induction h with
  | done => trivial
  | step single _ ih => exact ⟨fun _ => ⟨_, _, rfl, single⟩, fun hs => absurd hs single, ih⟩

/-! ## What segments denote -/

/-- A single segment denotes one name. -/
theorem denotes_cons_iff {s : Segment} (single : s ≠ .globstar) {ss : List Segment}
    {names : List String} :
    Denotes (s :: ss) names ↔
      ∃ n rest, names = n :: rest ∧ s.accepts n = true ∧ Denotes ss rest := by
  constructor
  · intro h
    cases h with
    | name _ accepted rest => exact ⟨_, _, rfl, accepted, rest⟩
    | skip _ => exact absurd rfl single
    | more _ _ => exact absurd rfl single
  · rintro ⟨n, rest, rfl, accepted, h⟩
    exact .name single accepted h

theorem denotes_nil_iff {names : List String} : Denotes [] names ↔ names = [] := by
  constructor
  · intro h
    cases h
    rfl
  · rintro rfl
    exact .done

/-- Normal segments ask for at least one name. -/
theorem Normal.denotes_nil_iff {segments : List Segment} (h : Normal segments) :
    Denotes segments [] ↔ segments = [] := by
  refine ⟨fun hd => ?_, fun hs => hs ▸ .done⟩
  cases hd with
  | done => rfl
  | skip rest =>
    obtain ⟨t, later, rfl, single⟩ := h.behind_globstar
    obtain ⟨_, _, hnil, _⟩ := (denotes_cons_iff single).mp rest
    cases hnil

/-- More names may stand in front of what a `**` begins. -/
theorem Denotes.above {ss : List Segment} {below : List String}
    (h : Denotes (.globstar :: ss) below) (above : List String) :
    Denotes (.globstar :: ss) (above ++ below) := by
  obtain ⟨above', below', rfl, hrest⟩ := denotes_globstar_iff.mp h
  exact denotes_globstar_iff.mpr ⟨above ++ above', below', (List.append_assoc _ _ _).symm, hrest⟩

/-- **Leaving early is no loss.** Wherever the name of a single segment stands
between two `**`: the names up to it, but for the first one, may be left to the
second `**`. -/
theorem Denotes.leave_early {s : Segment} (single : s ≠ .globstar) {ss : List Segment}
    {n : String} {names : List String}
    (h : Denotes (.globstar :: s :: .globstar :: ss) (n :: names)) :
    Denotes (.globstar :: ss) names := by
  obtain ⟨above, below, hsplit, hbelow⟩ := denotes_globstar_iff.mp h
  obtain ⟨m, rest, rfl, _, hrest⟩ := (denotes_cons_iff single).mp hbelow
  cases above with
  | nil =>
    obtain ⟨_, rfl⟩ := List.cons.inj hsplit
    exact hrest
  | cons a above =>
    obtain ⟨_, rfl⟩ := List.cons.inj hsplit
    have hmore := hrest.above (above ++ [m])
    rwa [List.append_assoc] at hmore

/-! ## Reading and denoting -/

/-- **Behind a `**`** committed reading accepts what is denoted, if single
segments alternate with `**` from there on. -/
theorem readsFrom_behind_globstar_iff {s : Segment} (single : s ≠ .globstar)
    {later : List Segment} (h : Alternating later) (n : String) (names : List String) :
    readsFrom (s :: later, true) (n :: names) = true ↔
      Denotes (.globstar :: s :: later) (n :: names) := by
  -- the names are used up one by one, the segments only now and then
  induction names generalizing s later n with
  | nil =>
    rw [readsFrom, Bool.and_eq_true, List.isEmpty_iff]
    constructor
    · rintro ⟨rfl, accepted⟩
      exact .skip (.name single accepted .done)
    · intro hd
      obtain ⟨above, below, hsplit, hbelow⟩ := denotes_globstar_iff.mp hd
      obtain ⟨m, rest, rfl, accepted, hrest⟩ := (denotes_cons_iff single).mp hbelow
      cases above with
      | nil =>
        obtain ⟨rfl, rfl⟩ := List.cons.inj hsplit
        exact ⟨h.normal.denotes_nil_iff.mp hrest, accepted⟩
      | cons a above => simp at hsplit
  | cons m names ih =>
    rw [readsFrom]
    split
    · next hleave =>
      obtain ⟨hlater, accepted⟩ := Bool.and_eq_true_iff.mp hleave
      cases h with
      | done => cases hlater
      | @step t later tsingle rest =>
        show readsFrom (t :: later, true) (m :: names) = true ↔ _
        rw [ih tsingle rest m]
        exact ⟨fun hd => .skip (.name single accepted hd), fun hd => hd.leave_early single⟩
    · next hstay =>
      rw [Bool.true_and, ih single h m]
      refine ⟨fun hd => .more n hd, fun hd => ?_⟩
      obtain ⟨above, below, hsplit, hbelow⟩ := denotes_globstar_iff.mp hd
      cases above with
      | nil =>
        -- `n` itself would have been accepted, and segments would remain
        rw [List.nil_append] at hsplit
        obtain ⟨_, _, hcons, accepted, hrest⟩ := (denotes_cons_iff single).mp (hsplit ▸ hbelow)
        obtain ⟨rfl, rfl⟩ := List.cons.inj hcons
        refine absurd (Bool.and_eq_true_iff.mpr ⟨?_, accepted⟩) hstay
        rw [Bool.not_eq_true', List.isEmpty_eq_false_iff]
        rintro rfl
        exact absurd (denotes_nil_iff.mp hrest) (List.cons_ne_nil _ _)
      | cons a above =>
        obtain ⟨_, hrest⟩ := List.cons.inj hsplit
        exact denotes_globstar_iff.mpr ⟨above, below, hrest, hbelow⟩

/-- **Up to the first `**`** reading has no choice, and so it accepts what is
denoted, if it does from the first `**` on. -/
theorem readsFrom_past_iff {front back : List Segment} (hfront : .globstar ∉ front)
    (hback : Alternating back) (hnormal : Normal (front ++ back)) (hne : front ++ back ≠ [])
    (n : String) (names : List String) :
    readsFrom (past (front ++ back, false)) (n :: names) = true ↔
      Denotes (front ++ back) (n :: names) := by
  induction front generalizing n names with
  | nil =>
    cases hback with
    | done => exact absurd rfl hne
    | step single rest => exact readsFrom_behind_globstar_iff single rest n names
  | cons s front ih =>
    obtain ⟨hs, hfront⟩ := not_or.mp (mt List.mem_cons.mpr hfront)
    have single : s ≠ .globstar := Ne.symm hs
    have hpast : past (s :: (front ++ back), false) = (s :: (front ++ back), false) := by
      unfold past
      split
      · next heq => cases heq; exact absurd rfl single
      · rfl
    rw [List.cons_append] at hnormal ⊢
    rw [hpast, denotes_cons_iff single]
    cases names with
    | nil =>
      rw [readsFrom, Bool.and_eq_true, List.isEmpty_iff, ← hnormal.tail.denotes_nil_iff]
      simp [and_comm]
    | cons m names =>
      rw [readsFrom, Bool.false_and]
      by_cases hlater : front ++ back = []
      · simp [hlater, denotes_nil_iff]
      · have hih := ih hfront hnormal.tail hlater m names
        simp [hlater, hih]

/-- **Reading is denoting** for spaced patterns: of every list of names,
committed reading accepts it if and only if it is denoted. -/
theorem Pattern.reads_iff_denotes {p : Pattern} (hp : Normal p.segments)
    (hspaced : Spaced p.segments) {names : List String} (hne : names ≠ []) :
    p.reads names = true ↔ Denotes p.segments names := by
  obtain ⟨n, rest, rfl⟩ := List.exists_cons_of_ne_nil hne
  obtain ⟨front, back, hsegments, hfront, hback⟩ := hspaced
  have hnil := p.segments_ne_nil
  rw [Pattern.reads]
  rw [hsegments] at hp hnil ⊢
  exact readsFrom_past_iff hfront hback hp hnil n rest

/-- With two single segments in a row the first `data` is not the only choice. -/
example : Pattern.reads ⟨.globstar, [.literal "data", .any]⟩ ["data", "data", "4.json"] = false ∧
    Denotes [.globstar, .literal "data", .any] ["data", "data", "4.json"] :=
  ⟨by decide, .more _ (.skip (.name (by decide) (by decide) (.name (by decide) rfl .done)))⟩

/-! ## What walks find -/

namespace Walker

open Traversal

variable {s : Store} {p : Pattern} {o : WalkOptions} {d : Nat}

/-- A visit of the root with exact findings is a walk with these findings. -/
theorem exists_events_of_exact (hp : Normal p.segments) (deep : s.NestsWithin d .root)
    {reads : List String → Prop}
    (h : ((visit together o (d + 1) .root (p.segments, false)).run s).1.Exact s o [] reads) :
    ∃ (files : List Match) (enough : Nat),
      (∀ m, m ∈ files ↔ ToFind s o [] reads m) ∧ (files.map Match.path).Nodup ∧
      ∀ bound count, enough ≤ bound → enough ≤ count →
        (((start p o).events bound count).run s).1
          = (⟨p, o, [], true⟩, files.map .found ++ [.finished]) := by
  obtain ⟨enough, hevents⟩ := exists_events_of_complete hp deep h.failure
  exact ⟨_, enough, h.mem_iff, h.nodup, fun bound count hb hc => by rw [hevents bound count hb hc]⟩

/-- **A walk finds all that a spaced pattern denotes.** On every store on which
nothing fails, whose listings repeat no name and give plain names, and whose
directories nest finitely deep, a walk in stats mode ends with the event that
everything has been visited. Before it come the files of the tree that the
pattern denotes and that have no ignored name, all of them, each once, and
nothing else: leaving a `**` at the first directory that allows it loses none. -/
theorem finds_all_that_is_denoted {query : String} (parsed : Pattern.parse query = .ok p)
    (hspaced : Spaced p.segments) (hstats : o.mode = .stats) (hs : s.ListsPlain)
    (hdistinct : s.ListsDistinct) (hanswers : s.Answers) (deep : s.NestsWithin d .root) :
    ∃ (files : List Match) (enough : Nat),
      (∀ m, m ∈ files ↔ ∃ names, s.Holds .root names m.metadata ∧ m.metadata.isDir = false ∧
        (∀ n ∈ names, o.ignore n = false) ∧ Denotes p.segments names ∧
        m.path = .ofNames names ∧ m.content = none) ∧
      (files.map Match.path).Nodup ∧
      ∀ bound count, enough ≤ bound → enough ≤ count →
        (((start p o).events bound count).run s).1
          = (⟨p, o, [], true⟩, files.map .found ++ [.finished]) := by
  have hp := Pattern.normal_of_parse parsed
  have hreads := exact_traverse hp hstats hs hdistinct hanswers deep
  have hdenotes : Findings.Exact s o [] (Denotes p.segments) _ :=
    hreads.congr fun names m hholds _ _ => Pattern.reads_iff_denotes hp hspaced hholds.ne_nil
  obtain ⟨files, enough, hmem, hnodup, hevents⟩ := exists_events_of_exact hp deep hdenotes
  refine ⟨files, enough, fun m => ?_, hnodup, hevents⟩
  rw [hmem, ToFind, Path.ofNames_nil]
  rfl

/-- Both single segments accept `data`: the first one takes the outer directory
and leaves the inner one to the second. -/
theorem finds_all_that_is_denoted_nested :
    Pattern.parse "**/d*/**/*a/**/*.json" = .ok ⟨.globstar,
        [.wildcard "d*", .globstar, .wildcard "*a", .globstar, .wildcard "*.json"]⟩ ∧
      Spaced [.globstar, .wildcard "d*", .globstar, .wildcard "*a", .globstar,
        .wildcard "*.json"] ∧
      Memory.nested.store.ListsPlain ∧ Memory.nested.store.ListsDistinct ∧
      Memory.nested.store.Answers ∧
      Memory.nested.store.NestsWithin Memory.nested.longest .root ∧
      ∃ (files : List Match) (enough : Nat),
        (∃ m ∈ files, m.path = ⟨"data/data/4.json"⟩) ∧
        (∀ m ∈ files, ∃ names, m.path = .ofNames names ∧ Denotes [.globstar, .wildcard "d*",
          .globstar, .wildcard "*a", .globstar, .wildcard "*.json"] names) ∧
        (files.map Match.path).Nodup ∧
        ∀ bound count, enough ≤ bound → enough ≤ count →
          (((start ⟨.globstar, [.wildcard "d*", .globstar, .wildcard "*a", .globstar,
              .wildcard "*.json"]⟩ {}).events bound count).run Memory.nested.store).1.2
            = files.map .found ++ [.finished] := by
  have hparse : Pattern.parse "**/d*/**/*a/**/*.json" = .ok ⟨.globstar,
      [.wildcard "d*", .globstar, .wildcard "*a", .globstar, .wildcard "*.json"]⟩ := by decide
  have hspaced : Spaced [.globstar, .wildcard "d*", .globstar, .wildcard "*a", .globstar,
      .wildcard "*.json"] :=
    ⟨[], _, rfl, List.not_mem_nil, .step (by decide) (.step (by decide) (.step (by decide) .done))⟩
  have hplain := Memory.listsPlain_store (show Memory.nested.isPlain = true from by decide)
  have hdistinct := Memory.listsDistinct_store
    (show ∀ a ∈ Memory.nested.entries, a.2.names.Nodup from by decide)
  have hanswers := Memory.answers_store (show Memory.nested.isFaultless = true from by decide)
  have hdeep := Memory.nestsWithin_store (show Memory.nested.isPlain = true from by decide)
  obtain ⟨files, enough, hmem, hnodup, hevents⟩ :=
    finds_all_that_is_denoted (o := {}) hparse hspaced rfl hplain hdistinct hanswers hdeep
  refine ⟨hparse, hspaced, hplain, hdistinct, hanswers, hdeep, files, enough, ?_, ?_, hnodup,
    fun bound count hb hc => by rw [hevents bound count hb hc]⟩
  · refine ⟨⟨⟨"data/data/4.json"⟩, ⟨false, true, 0, none⟩, none⟩,
      (hmem _).mpr ⟨["data", "data", "4.json"], ?_, rfl, by decide, ?_, by decide, rfl⟩, rfl⟩
    · have hentry : ∀ dir n names m, Memory.nested.store (.list dir) = .ok names → n ∈ names →
          Memory.nested.store (.stat (dir.entry n)) = .ok m → Memory.nested.store.HasEntry dir n m :=
        fun dir n names m hl hn hm => ⟨names, hl, hn, hm⟩
      refine .deeper (hentry _ _ ["data", "x"] ⟨true, false, 0, none⟩ ?_ ?_ ?_) rfl
        (.deeper (hentry _ _ ["3.json", "data"] ⟨true, false, 0, none⟩ ?_ ?_ ?_) rfl
          (.here (hentry _ _ ["4.json"] _ ?_ ?_ ?_))) <;> decide
    · exact .skip (.name (by decide) (by decide) (.skip (.name (by decide) (by decide)
        (.skip (.name (by decide) (by decide) .done)))))
  · intro m hm
    obtain ⟨names, _, _, _, hdenotes, hpath, _⟩ := (hmem m).mp hm
    exact ⟨names, hpath, hdenotes⟩

end Walker

end TreeQuery
