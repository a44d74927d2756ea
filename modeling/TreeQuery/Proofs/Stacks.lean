import Mathlib.Data.List.Chain
import TreeQuery.Proofs.Frames
import TreeQuery.Proofs.Steps

/-!
# The stack of a walk

A frame holds the segment for its directory and the segments behind it; where it
stands in the pattern is a number, its *index*. This module says what the stack
of a walk looks like, whatever steps have led to it and whatever has failed on
the way: where the frames stand in the pattern, and how each of them was entered
from the one below.

Two facts carry it. A frame is a way to cut the pattern in two (`Frame.Placed`):
whether it is recursive can be read off the last segment before the cut, and what
lies behind is normal, so that there is something to go on with behind a `**`. And
each frame was entered from the entry that the frame below has taken last
(`Frame.EnteredFrom`). Entering keeps both, and no other step touches them.

That segments are never looked up beyond the end of the pattern is said with
`Pattern.frame?`, which builds a frame from an index and has none to give where
a look-up fails.
-/

namespace TreeQuery

namespace Cursor

/-- All entries of a loaded frame, in the order in which they are taken. -/
def entries (c : Cursor) : List Entry :=
  c.taken.reverse ++ c.ahead

/-- How many entries have been taken. -/
def position (c : Cursor) : Nat :=
  c.taken.length

theorem position_le (c : Cursor) : c.position ≤ c.entries.length := by
  rw [position, entries, List.length_append, List.length_reverse]
  exact Nat.le_add_right _ _

/-- The entry that was taken last stands just before the position. -/
theorem entries_getElem?_taken (e : Entry) (taken ahead : List Entry) :
    (Cursor.mk (e :: taken) ahead).entries[(Cursor.mk (e :: taken) ahead).position - 1]?
      = some e := by
  have hlength : taken.length = taken.reverse.length := List.length_reverse.symm
  rw [entries, position, List.length_cons, Nat.add_sub_cancel, List.reverse_cons,
    List.append_assoc, hlength, List.getElem?_append_right (Nat.le_refl _), Nat.sub_self]
  rfl

end Cursor

namespace Pattern

/-- **The frame for an index**: the segment at `i` is looked up, and behind a `**`
the one after it. There is no frame where a look-up goes beyond the end. -/
def frame? (p : Pattern) (dir : Path) (i : Nat) (recursive : Bool) : Option Frame :=
  match p.segments[i]? with
  | none => none
  | some .globstar => p.segments[i + 1]?.map fun t => ⟨dir, t, p.segments.drop (i + 2), true, none⟩
  | some t => some ⟨dir, t, p.segments.drop (i + 1), recursive, none⟩

/-- **Look-ups succeed in front of normal segments**, and give the frame that is
entered for them. -/
theorem frame?_of_split {p : Pattern} {before rest : List Segment} {t : Segment}
    (split : p.segments = before ++ t :: rest) (normal : Normal (t :: rest)) (dir : Path)
    (r : Bool) : p.frame? dir before.length r = some (Frame.enter dir r t rest) := by
  have hat : p.segments[before.length]? = some t := by
    rw [split, List.getElem?_append_right (Nat.le_refl _), Nat.sub_self, List.getElem?_cons_zero]
  unfold frame?
  by_cases ht : t = .globstar
  · subst ht
    obtain ⟨u, later, rfl, _⟩ := normal.behind_globstar
    rw [hat, split]
    simp [Frame.enter]
  · rw [hat, Frame.enter_of_ne_globstar ht, split]
    simp

end Pattern

namespace Frame

variable {s : Store} {p : Pattern} {o : WalkOptions} {f g : Frame}

/-- **Where a frame stands**: the index of its segment in the pattern. -/
def index (p : Pattern) (f : Frame) : Nat :=
  p.length - (f.later.length + 1)

/-- **A frame cuts its pattern in two** before its segment, and it is recursive
exactly if a `**` stands right before the cut. -/
def Placed (p : Pattern) (f : Frame) : Prop :=
  f.Passed ∧ ∃ before, p.segments = before ++ f.segment :: f.later ∧
    (f.recursive = true ↔ before.getLast? = some .globstar)

/-- Moving the cursor leaves a frame in its place. -/
theorem Placed.moved (h : f.Placed p) (c : Cursor) : (f.moved c).Placed p :=
  ⟨⟨h.1.single, h.1.normal⟩, h.2⟩

/-- A loaded frame has the entries that loading it has given. -/
def Filled (s : Store) (o : WalkOptions) (f : Frame) : Prop :=
  ∀ c ∈ f.cursor, ∃ calls, (f.load o).run s = (.ok c.entries, calls)

/-- A frame that is not loaded has nothing to be filled with. -/
theorem filled_of_fresh (h : f.cursor = none) : f.Filled s o := by
  intro c hc
  rw [h] at hc
  cases hc

/-- Loading fills a frame. -/
theorem filled_of_load {entries : List Entry} {calls : List Call}
    (h : (f.load o).run s = (.ok entries, calls)) : (f.moved ⟨[], entries⟩).Filled s o := by
  intro c hc
  cases hc
  exact ⟨calls, h⟩

/-- Taking the next entry leaves a frame filled. -/
theorem Filled.taken (h : f.Filled s o) {taken ahead : List Entry} {e : Entry}
    (due : f.cursor = some ⟨taken, e :: ahead⟩) : (f.moved ⟨e :: taken, ahead⟩).Filled s o := by
  intro c hc
  cases hc
  -- the entry has gone from what is ahead to what is taken
  have hsame : (Cursor.mk (e :: taken) ahead).entries = (Cursor.mk taken (e :: ahead)).entries := by
    simp [Cursor.entries]
  rw [hsame]
  exact h _ due

/-- **The frame `g` was entered from `f`**: for the directory that `f` has taken
last, and with no more segments left than `f` has. -/
def EnteredFrom (g f : Frame) : Prop :=
  g.later.length ≤ f.later.length ∧ ∃ e taken ahead, f.cursor = some ⟨e :: taken, ahead⟩ ∧
    e.metadata.isDir = true ∧ g.directory = f.pathOf e

/-- Where a frame was entered from does not depend on its own cursor. -/
theorem EnteredFrom.moved (h : g.EnteredFrom f) (c : Cursor) : (g.moved c).EnteredFrom f :=
  h

/-- The index is the number of segments before the cut. -/
theorem index_of_split {before : List Segment}
    (split : p.segments = before ++ f.segment :: f.later) : f.index p = before.length := by
  rw [index, Pattern.length, split, List.length_append, List.length_cons, Nat.add_sub_cancel]

/-- **Entering for the segments behind a cut** places a frame, as long as no `**`
stands before the cut. -/
theorem placed_enter {before rest : List Segment} {t : Segment}
    (split : p.segments = before ++ t :: rest) (normal : Normal (t :: rest))
    (hbefore : before.getLast? ≠ some .globstar) (dir : Path) :
    (enter dir false t rest).Placed p := by
  refine ⟨passed_enter normal dir false, ?_⟩
  by_cases ht : t = .globstar
  · subst ht
    obtain ⟨u, later, rfl, _⟩ := normal.behind_globstar
    refine ⟨before ++ [.globstar], ?_, ?_⟩
    · rw [split, List.append_assoc]
      rfl
    · simp [enter]
  · rw [enter_of_ne_globstar ht]
    exact ⟨before, split, by simpa using hbefore⟩

/-- **What a placed frame enters is placed**, and it is the frame for the same
index or the next one. -/
theorem placed_of_descend {e : Entry} (hf : f.Placed p) (h : f.action e = .descend g) :
    g.Placed p ∧ ∃ i r, (i = f.index p ∧ r = true ∨ i = f.index p + 1 ∧ r = false) ∧
      p.frame? (f.pathOf e) i r = some g := by
  obtain ⟨hpassed, before, split, hrec⟩ := hf
  rw [index_of_split split]
  obtain ⟨_, ⟨t, rest, hl, _, rfl⟩ | ⟨hr, rfl⟩⟩ := descend_cases h
  · have hnormal : Normal (t :: rest) := hl ▸ hpassed.normal.tail
    have hsplit : p.segments = (before ++ [f.segment]) ++ t :: rest := by
      rw [split, hl, List.append_assoc]
      rfl
    have hlookup := Pattern.frame?_of_split hsplit hnormal (f.pathOf e) false
    rw [List.length_append, List.length_singleton] at hlookup
    refine ⟨placed_enter hsplit hnormal ?_ (f.pathOf e), _, false, .inr ⟨rfl, rfl⟩, hlookup⟩
    -- the frame's own segment stands before the next cut, and it is no `**`
    simpa using hpassed.single
  · have hlookup := Pattern.frame?_of_split split hpassed.normal (f.pathOf e) true
    rw [enter_of_ne_globstar hpassed.single] at hlookup
    have hsame : f.deeper (f.pathOf e) = ⟨f.pathOf e, f.segment, f.later, true, none⟩ := by
      rw [← hr, deeper]
    exact ⟨⟨passed_of_descend hpassed h, before, split, hrec⟩, _, true, .inl ⟨rfl, rfl⟩,
      hsame ▸ hlookup⟩

/-- What a frame enters was entered from it. -/
theorem enteredFrom_of_descend {e : Entry} {taken ahead : List Entry} (hf : f.Passed)
    (h : f.action e = .descend g) : g.EnteredFrom (f.moved ⟨e :: taken, ahead⟩) := by
  obtain ⟨_, hdir⟩ := fresh_of_descend h
  obtain ⟨hd, hcases⟩ := descend_cases h
  refine ⟨?_, e, taken, ahead, rfl, hd, hdir⟩
  obtain ⟨t, rest, hl, _, rfl⟩ | ⟨_, rfl⟩ := hcases
  · have hnormal : Normal (t :: rest) := hl ▸ hf.normal.tail
    show _ ≤ f.later.length
    rw [hl]
    by_cases ht : t = .globstar
    · subst ht
      obtain ⟨u, later, rfl, _⟩ := hnormal.behind_globstar
      simp only [enter, List.length_cons]
      omega
    · rw [enter_of_ne_globstar ht]
      exact Nat.le_succ _
  · exact Nat.le_refl _

end Frame

namespace Walker

variable {s : Store} {p : Pattern} {o : WalkOptions}

/-! ## What every step keeps -/

/-- **How a stack is built**: every frame has its place in the pattern, was entered
from the one below, and holds what its directory gave. -/
structure Built (s : Store) (p : Pattern) (o : WalkOptions) (w : Walker) : Prop where
  options : w.options = o
  placed : ∀ f ∈ w.stack, f.Placed p
  filled : ∀ f ∈ w.stack, f.Filled s o
  entered : w.stack.IsChain Frame.EnteredFrom
  bottom : ∀ f ∈ w.stack.getLast?, f.directory = .root
  ended : w.halted = true → w.stack = []

/-- A walk that has ended has nothing to be said about. -/
theorem built_of_ended (s : Store) (p q : Pattern) (o : WalkOptions) :
    Built s p o ⟨q, o, [], true⟩ :=
  ⟨rfl, by simp, by simp, .nil, by simp, fun _ => rfl⟩

/-- The stack of a walk that begins is built. -/
theorem built_start (hp : Normal p.segments) (s : Store) (o : WalkOptions) :
    Built s p o (start p o) := by
  refine ⟨rfl, ?_, ?_, .singleton _, ?_, fun h => absurd h Bool.false_ne_true⟩
  · have hsplit : p.segments = [] ++ p.first :: p.rest := rfl
    exact List.forall_mem_singleton.mpr (Frame.placed_enter hsplit hp (by simp) .root)
  · exact List.forall_mem_singleton.mpr (Frame.filled_of_fresh (Frame.cursor_enter _ _ _ _))
  · intro f hf
    cases hf
    exact Frame.directory_enter .root false p.first p.rest

/-- Moving the cursor of the top frame keeps a stack built, as long as the entries
are those that loading has given. -/
theorem Built.moved {q : Pattern} {f : Frame} {below : List Frame} {c : Cursor}
    (h : Built s p o ⟨q, o, f :: below, false⟩) (hc : (f.moved c).Filled s o) :
    Built s p o ⟨q, o, f.moved c :: below, false⟩ := by
  obtain ⟨hf, hplaced⟩ := List.forall_mem_cons.mp h.placed
  obtain ⟨_, hfilled⟩ := List.forall_mem_cons.mp h.filled
  have hentered : (f :: below).IsChain Frame.EnteredFrom := h.entered
  have hmoved : (f.moved c :: below).IsChain Frame.EnteredFrom :=
    hentered.imp_head fun hb => hb.moved c
  refine ⟨rfl, List.forall_mem_cons.mpr ⟨hf.moved c, hplaced⟩,
    List.forall_mem_cons.mpr ⟨hc, hfilled⟩, hmoved, ?_,
    fun hend => absurd hend Bool.false_ne_true⟩
  intro b hb
  cases below with
  | nil =>
    cases hb
    exact h.bottom f rfl
  | cons b' below => exact h.bottom b hb

/-- Taking the next entry keeps a stack built. -/
theorem Built.taken {q : Pattern} {f : Frame} {below : List Frame} {taken ahead : List Entry}
    {e : Entry} (h : Built s p o ⟨q, o, f :: below, false⟩)
    (due : f.cursor = some ⟨taken, e :: ahead⟩) :
    Built s p o ⟨q, o, f.moved ⟨e :: taken, ahead⟩ :: below, false⟩ :=
  h.moved ((h.filled f List.mem_cons_self).taken due)

/-- **Every step keeps the stack built.** -/
theorem built_step {w w' : Walker} {event : Option WalkEvent} {calls : List Call}
    (hw : Built s p o w) (h : Step s w event calls w') : Built s p o w' := by
  obtain rfl := hw.options
  cases h with
  | rest ended => exact hw
  | finish => exact built_of_ended s p _ _
  | loadFailed fresh refused => exact built_of_ended s p _ _
  | emitFailed due action refused => exact built_of_ended s p _ _
  | load fresh loaded => exact hw.moved (Frame.filled_of_load loaded)
  | @pop _ _ f below taken spent =>
    obtain ⟨_, hplaced⟩ := List.forall_mem_cons.mp hw.placed
    obtain ⟨_, hfilled⟩ := List.forall_mem_cons.mp hw.filled
    refine ⟨rfl, hplaced, hfilled, hw.entered.tail, fun b hb => ?_,
      fun hend => absurd hend Bool.false_ne_true⟩
    cases below with
    | nil => cases hb
    | cons b' below => exact hw.bottom b hb
  | skip due action => exact hw.taken due
  | emit due action read => exact hw.taken due
  | @descend _ _ f g below taken ahead e due action =>
    have htaken := hw.taken due
    have hf := hw.placed f List.mem_cons_self
    obtain ⟨hcursor, _⟩ := Frame.fresh_of_descend action
    refine ⟨rfl, List.forall_mem_cons.mpr ⟨(Frame.placed_of_descend hf action).1, htaken.placed⟩,
      List.forall_mem_cons.mpr ⟨Frame.filled_of_fresh hcursor, htaken.filled⟩,
      .cons_cons (Frame.enteredFrom_of_descend hf.1 action) htaken.entered, htaken.bottom,
      fun hend => absurd hend Bool.false_ne_true⟩

/-! ## The stack read by index -/

/-- **What the stack of a walk looks like**, from the top frame down to the one for
the root of the walk. -/
structure Stacked (s : Store) (p : Pattern) (o : WalkOptions) (w : Walker) : Prop where
  /-- The index of a frame lies in the pattern, at a segment that is no `**`. -/
  segment : ∀ f ∈ w.stack, f.index p < p.length ∧ p.segments[f.index p]? = some f.segment ∧
    f.segment ≠ .globstar
  /-- Behind the index lies what the frame has left; nothing has to be cut off to
  count it. -/
  remaining : ∀ f ∈ w.stack, f.index p + (f.later.length + 1) = p.length ∧
    p.segments.drop (f.index p) = f.segment :: f.later
  /-- Recursive are the frames right behind a `**`. -/
  recursive : ∀ f ∈ w.stack,
    f.recursive = true ↔ 0 < f.index p ∧ p.segments[f.index p - 1]? = some .globstar
  /-- Indices do not decrease on the way up. -/
  indices : w.stack.Pairwise fun above below => below.index p ≤ above.index p
  bottom : ∀ f ∈ w.stack.getLast?, f.directory = .root
  /-- Only the top frame may be without entries still. -/
  loaded : ∀ f ∈ w.stack.tail, f.cursor.isSome = true
  /-- The cursor of a loaded frame stands among the entries that loading gave. -/
  cursor : ∀ f ∈ w.stack, ∀ c ∈ f.cursor,
    c.position ≤ c.entries.length ∧ ∃ calls, (f.load o).run s = (.ok c.entries, calls)
  /-- A frame above another one is that of the directory just before its cursor. -/
  entered : w.stack.IsChain fun above below => ∃ c ∈ below.cursor, 0 < c.position ∧
    ∃ e, c.entries[c.position - 1]? = some e ∧ e.metadata.isDir = true ∧
      above.directory = below.directory.entry e.name
  /-- Whatever entry a frame enters: looking up the segments for it succeeds. -/
  lookups : ∀ f ∈ w.stack, ∀ e g, f.action e = .descend g →
    ∃ i r, (i = f.index p ∧ r = true ∨ i = f.index p + 1 ∧ r = false) ∧
      p.frame? (f.pathOf e) i r = some g
  ended : w.halted = true → w.stack = []

end Walker

namespace Frame

variable {p : Pattern} {f g : Frame}

/-- The cut of a placed frame, read by its index. -/
theorem Placed.getElem? (h : f.Placed p) :
    f.index p < p.length ∧ p.segments[f.index p]? = some f.segment ∧
      p.segments.drop (f.index p) = f.segment :: f.later ∧
      (f.recursive = true ↔ 0 < f.index p ∧ p.segments[f.index p - 1]? = some .globstar) := by
  obtain ⟨_, before, split, hrec⟩ := h
  rw [index_of_split split, Pattern.length, split, hrec]
  refine ⟨by simp, by simp, by simp, ?_⟩
  rcases List.eq_nil_or_concat before with rfl | ⟨init, last, rfl⟩
  · simp
  · simp

/-- A frame has the place of the one that it was entered from, or a later one. -/
theorem EnteredFrom.index_le (h : g.EnteredFrom f) : f.index p ≤ g.index p := by
  have hle := h.1
  unfold index
  omega

/-- The frame below has taken the entry for the directory of the one above. -/
theorem EnteredFrom.exists_cursor (h : g.EnteredFrom f) :
    ∃ c ∈ f.cursor, 0 < c.position ∧ ∃ e, c.entries[c.position - 1]? = some e ∧
      e.metadata.isDir = true ∧ g.directory = f.directory.entry e.name := by
  obtain ⟨_, e, taken, ahead, hc, hd, hdir⟩ := h
  exact ⟨_, hc, Nat.succ_pos _, e, Cursor.entries_getElem?_taken e taken ahead, hd, hdir⟩

/-- In a chain of frames all but the top one are loaded. -/
theorem isSome_cursor_of_isChain {f : Frame} {stack : List Frame}
    (h : stack.IsChain EnteredFrom) (hf : f ∈ stack.tail) : f.cursor.isSome = true := by
  induction h with
  | nil | singleton => cases hf
  | cons_cons hentered _ ih =>
    rcases List.mem_cons.mp hf with rfl | hf
    · obtain ⟨c, hc, _⟩ := hentered.exists_cursor
      exact Option.isSome_iff_exists.mpr ⟨c, hc⟩
    · exact ih hf

end Frame

namespace Walker

variable {s : Store} {p : Pattern} {o : WalkOptions}

/-- **The stack of a walk.** After any number of steps of a walk for a parsed
pattern, on any store and whatever has failed: every frame stands at a segment of
the pattern that is no `**`, and is recursive exactly if a `**` stands before it;
the frames come one from the other, from the root on, and stand at later and later
segments; all but the top one are loaded. No look-up that a step makes goes beyond
the end of the pattern, nor does the one that the walk begins with. A walk that has
ended has no frame. -/
theorem stacked_of_reaches {query : String} (parsed : Pattern.parse query = .ok p)
    (o : WalkOptions) {es : List WalkEvent} {log : List Call} {w : Walker}
    (reached : Reaches s (start p o) es log w) :
    Stacked s p o w ∧ (start p o).stack = (p.frame? .root 0 false).toList := by
  have hnormal := Pattern.normal_of_parse parsed
  have hsplit : p.segments = [] ++ p.first :: p.rest := rfl
  have hfirst : p.frame? .root 0 false = some (Frame.enter .root false p.first p.rest) :=
    Pattern.frame?_of_split hsplit hnormal .root false
  refine ⟨?_, by rw [hfirst]; rfl⟩
  have hbuilt : Built s p o w :=
    (reached.induct (Q := fun _ => True) (built_start hnormal s o)
      fun hw h => ⟨built_step hw h, fun _ _ => trivial⟩).1
  have hplaced := fun f hf => (hbuilt.placed f hf).getElem?
  refine ⟨fun f hf => ?_, fun f hf => ?_, fun f hf => (hplaced f hf).2.2.2, ?_, hbuilt.bottom,
    fun f hf => Frame.isSome_cursor_of_isChain hbuilt.entered hf,
    fun f hf c hc => ⟨c.position_le, hbuilt.filled f hf c hc⟩,
    hbuilt.entered.imp fun _ _ h => h.exists_cursor,
    fun f hf e g h => (Frame.placed_of_descend (hbuilt.placed f hf) h).2, hbuilt.ended⟩
  · exact ⟨(hplaced f hf).1, (hplaced f hf).2.1, (hbuilt.placed f hf).1.single⟩
  · obtain ⟨hlt, _, hdrop, _⟩ := hplaced f hf
    have hlength := congrArg List.length hdrop
    rw [List.length_drop, List.length_cons, ← Pattern.length] at hlength
    exact ⟨by omega, hdrop⟩
  · have hle : (w.stack.map (Frame.index p)).IsChain (· ≥ ·) :=
      (List.isChain_map _).mpr (hbuilt.entered.imp fun _ _ h => h.index_le)
    exact List.pairwise_map.mp (List.isChain_iff_pairwise.mp hle)

/-- Inside of the second `**` of a query, two directories below the root. -/
theorem stacked_of_reaches_nested :
    let p : Pattern := ⟨.globstar, [.literal "data", .globstar, .wildcard "*.json"]⟩
    Pattern.parse "**/data/**/*.json" = .ok p ∧
      ∃ es log w, Reaches Memory.nested.store (start p {}) es log w ∧
        w.stack.map Frame.directory = [⟨"data/data"⟩, ⟨"data"⟩, .root] ∧
        w.stack.map (Frame.index p) = [3, 3, 1] ∧ Stacked Memory.nested.store p {} w := by
  intro p
  have hparse : Pattern.parse "**/data/**/*.json" = .ok p := by decide
  have hreached := Reaches.of_steps Memory.nested.store 6 (start p {})
  exact ⟨hparse, _, _, _, hreached, by decide +kernel, by decide +kernel,
    (stacked_of_reaches hparse {} hreached).1⟩

end Walker

end TreeQuery
