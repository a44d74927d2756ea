import TreeQuery.Glob.Pattern

/-!
# The language of a query

A query describes lists of names, one name for each level of a tree. Three
readings of it are set down here, none of them in terms of a walk.

* `Denotes` is the meaning of the segments of a pattern: `**` stands for any
  list of names, every other segment for one name that it accepts.
* `Asks` is the meaning of the tokens as they are written, where a `**` at the
  end stands for one name or more.
* `Pattern.reads` goes over the names from left to right and *commits* itself:
  inside a `**` it leaves for the next segment at the first name that this
  segment accepts, and never comes back. It accepts no more than what is
  denoted, and may accept less.
-/

namespace TreeQuery

/-- **The meaning of segments.** -/
inductive Denotes : List Segment → List String → Prop
  | done : Denotes [] []
  | name {s : Segment} {n : String} {ss : List Segment} {ns : List String}
      (single : s ≠ .globstar) (accepted : s.accepts n = true) (rest : Denotes ss ns) :
      Denotes (s :: ss) (n :: ns)
  /-- A `**` stands for no name at all, … -/
  | skip {ss : List Segment} {ns : List String} (rest : Denotes ss ns) :
      Denotes (.globstar :: ss) ns
  /-- … or for one name and what else it stands for. -/
  | more (n : String) {ss : List Segment} {ns : List String}
      (rest : Denotes (.globstar :: ss) ns) : Denotes (.globstar :: ss) (n :: ns)

/-- **The meaning of tokens as they are written.** -/
inductive Asks : List Segment → List String → Prop
  | done : Asks [] []
  | name {s : Segment} {n : String} {ss : List Segment} {ns : List String}
      (single : s ≠ .globstar) (accepted : s.accepts n = true) (rest : Asks ss ns) :
      Asks (s :: ss) (n :: ns)
  /-- A final `**` stands for one name or more. -/
  | final (n : String) (ns : List String) : Asks [.globstar] (n :: ns)
  | skip {ss : List Segment} {ns : List String} (more : ss ≠ []) (rest : Asks ss ns) :
      Asks (.globstar :: ss) ns
  | more (n : String) {ss : List Segment} {ns : List String} (more : ss ≠ [])
      (rest : Asks (.globstar :: ss) ns) : Asks (.globstar :: ss) (n :: ns)

/-- A `**` denotes the names that the rest denotes, with any names in front. -/
theorem denotes_globstar_iff {ss : List Segment} {ns : List String} :
    Denotes (.globstar :: ss) ns ↔ ∃ above below, ns = above ++ below ∧ Denotes ss below := by
  constructor
  · intro h
    generalize hs : Segment.globstar :: ss = segments at h
    induction h with
    | done => cases hs
    | name single _ _ _ => cases hs; exact absurd rfl single
    | skip rest _ => cases hs; exact ⟨[], _, rfl, rest⟩
    | more n _ ih =>
      obtain ⟨above, below, rfl, h⟩ := ih hs
      exact ⟨n :: above, below, rfl, h⟩
  · rintro ⟨above, below, rfl, h⟩
    induction above with
    | nil => exact .skip h
    | cons n above ih => exact .more n ih

/-- The segments that are due and whether a `**` has been passed. -/
abbrev Stance := List Segment × Bool

/-- Pass a `**`, if one is due. -/
def past : Stance → Stance
  | (.globstar :: later, _) => (later, true)
  | stance => stance

/-- **Committed reading.** The last name has to be accepted by the last segment.
An earlier name that is accepted, while segments remain, uses its segment up;
any other name is taken along behind a `**` and refused elsewhere. -/
def readsFrom : Stance → List String → Bool
  | ([], _), _ => false
  | _, [] => false
  | (s :: later, _), [n] => later.isEmpty && s.accepts n
  | (s :: later, recursive), n :: m :: ns =>
    if !later.isEmpty && s.accepts n then readsFrom (past (later, false)) (m :: ns)
    else recursive && readsFrom (s :: later, recursive) (m :: ns)

/-- Are the names accepted by a committed reading of the pattern? -/
def Pattern.reads (p : Pattern) (names : List String) : Bool :=
  readsFrom (past (p.segments, false)) names

end TreeQuery
