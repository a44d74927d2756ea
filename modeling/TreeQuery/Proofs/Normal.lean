import Mathlib.Data.List.Chain
import TreeQuery.Glob.Pattern

/-!
# The form of parsed patterns

A walk passes a `**` as soon as it stands in front of it, and looks at what
comes next: there has to be something next, and it must not be another `**`.
Parsing sees to that. `Normal` is this form, read off the segments alone, and
`Pattern.normal_of_parse` says that every parsed pattern has it.
-/

namespace TreeQuery

/-- **Normal segments**: behind every `**` stands another segment, which is not
a `**` itself. -/
def Normal : List Segment → Prop
  | [] => True
  | s :: rest => (s = .globstar → ∃ t later, rest = t :: later ∧ t ≠ .globstar) ∧ Normal rest

/-- What stands behind a normal segment is normal. -/
theorem Normal.tail {s : Segment} {rest : List Segment} (h : Normal (s :: rest)) : Normal rest :=
  h.2

/-- What stands behind a `**`. -/
theorem Normal.behind_globstar {rest : List Segment} (h : Normal (.globstar :: rest)) :
    ∃ t later, rest = t :: later ∧ t ≠ .globstar :=
  h.1 rfl

namespace Pattern

/-- No `**` stands right behind another one. -/
abbrev NoRuns (segments : List Segment) : Prop :=
  segments.IsChain fun s t => s = .globstar → t ≠ .globstar

/-- Collapsing leaves no runs of `**`. -/
theorem noRuns_collapse (segments : List Segment) : NoRuns (collapse segments) := by
  induction segments with
  | nil => exact .nil
  | cons s rest ih =>
    unfold collapse
    split
    · next r hr => rwa [← hr]
    · next hrun =>
      cases hr : collapse rest with
      | nil => exact .singleton _
      | cons t later =>
        refine .cons_cons (fun hs ht => ?_) (hr ▸ ih)
        exact hrun later hs (by rw [hr, ht])

/-- Closing keeps the segment in front. -/
theorem exists_close_cons (s : Segment) (rest : List Segment) :
    ∃ later, close (s :: rest) = s :: later := by
  unfold close
  split
  · next h => cases h
  · next h => cases h; exact ⟨_, rfl⟩
  · next h => cases h; exact ⟨_, rfl⟩

/-- Where no `**` follows another one, closing leaves normal segments. -/
theorem normal_close {segments : List Segment} (h : NoRuns segments) :
    Normal (close segments) := by
  induction segments with
  | nil => trivial
  | cons s rest ih =>
    cases rest with
    | nil =>
      cases s with
      | globstar => exact ⟨fun _ => ⟨.any, [], rfl, by decide⟩, by simp, trivial⟩
      | _ => exact ⟨by simp, trivial⟩
    | cons t later =>
      have hrest := ih h.tail
      obtain ⟨ts, ht⟩ := exists_close_cons t later
      rw [show close (s :: t :: later) = s :: close (t :: later) from by rw [close]; simp, ht]
      rw [ht] at hrest
      exact ⟨fun hs => ⟨t, ts, rfl, h.rel hs⟩, hrest⟩

/-- Normal segments have no runs of `**`. -/
theorem noRuns_of_normal {segments : List Segment} (h : Normal segments) : NoRuns segments := by
  induction segments with
  | nil => exact .nil
  | cons s rest ih =>
    cases rest with
    | nil => exact .singleton s
    | cons t later =>
      refine .cons_cons (fun hs => ?_) (ih h.tail)
      obtain ⟨_, _, hrest, single⟩ := h.1 hs
      rwa [(List.cons.inj hrest).1]

/-- Normal segments do not end in `**`. -/
theorem getLast?_ne_of_normal {segments : List Segment} (h : Normal segments) :
    segments.getLast? ≠ some .globstar := by
  induction segments with
  | nil => simp
  | cons s rest ih =>
    cases rest with
    | nil =>
      rw [List.getLast?_singleton]
      intro hs
      obtain ⟨_, _, hrest, _⟩ := h.1 (Option.some.inj hs)
      cases hrest
    | cons t later =>
      rw [List.getLast?_cons_cons]
      exact ih h.tail

/-- **Parsed patterns are normal.** -/
theorem normal_of_parse {query : String} {p : Pattern} (h : parse query = .ok p) :
    Normal p.segments := by
  unfold parse at h
  cases hc : (tokens query).mapM Segment.compile with
  | error e => rw [hc] at h; cases h
  | ok compiled =>
    have hnormal := normal_close (noRuns_collapse compiled)
    rw [hc] at h
    simp only [bind, Except.bind] at h
    split at h
    · cases h
    · next s rest hs =>
      cases h
      rwa [segments_mk, ← hs]

end Pattern

end TreeQuery
