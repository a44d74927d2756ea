import TreeQuery.Glob.Language
import TreeQuery.Proofs.Frames
import TreeQuery.Proofs.Steps

/-!
# Matches are in the language of the query

A walk commits itself: it never goes back to a `**` that it has left. So it may
miss files that the query denotes, but it finds no others. A frame stands for
the segments that are still due below its directory – its *residual*, with a
`**` in front inside of one. The invariant says that whatever the residual
denotes, with the names of the directory in front, the whole pattern denotes.

Nothing is assumed about failures, about how deep the tree is or about the form
of the pattern. Only the names have to be plain, as otherwise a path could not
be split into its names again.
-/

namespace TreeQuery

/-- One more name in front, for one more segment that accepts it. A `**` stands
for this one name. -/
theorem Denotes.cons {t : Segment} {n : String} {ts : List Segment} {ns : List String}
    (accepted : t.accepts n = true) (h : Denotes ts ns) : Denotes (t :: ts) (n :: ns) := by
  by_cases ht : t = .globstar
  · rw [ht]
    exact .more n (.skip h)
  · exact .name ht accepted h

namespace Frame

/-- The segments that are due below the directory of a frame. -/
def residual (f : Frame) : List Segment :=
  if f.recursive then .globstar :: f.segment :: f.later else f.segment :: f.later

/-- Passing a `**` on entering leaves it due. -/
theorem residual_enter (dir : Path) (t : Segment) (rest : List Segment) :
    (enter dir false t rest).residual = t :: rest := by
  unfold enter
  split <;> rfl

/-- A name that may use up the segment of a frame does so in its residual. -/
theorem denotes_residual_cons {f : Frame} {n : String} {ns : List String}
    (accepted : f.segment.accepts n = true) (h : Denotes f.later ns) :
    Denotes f.residual (n :: ns) := by
  have hdue : Denotes (f.segment :: f.later) (n :: ns) := h.cons accepted
  unfold residual
  split
  · exact .skip hdue
  · exact hdue

/-- **Entering keeps to the residual**: what the entered frame has still due,
with the name of its directory in front, was due before. -/
theorem denotes_of_descend {f g : Frame} {e : Entry} {o : WalkOptions} {ns : List String}
    (h : f.action e = .descend g) (hkeeps : f.keeps o e.name = true)
    (hns : Denotes g.residual ns) : Denotes f.residual (e.name :: ns) := by
  obtain ⟨_, ⟨t, rest, hl, huse, rfl⟩ | ⟨hr, rfl⟩⟩ := descend_cases h
  · have haccepts : f.segment.accepts e.name = true := by
      rcases huse with hr | ha
      · -- outside of a `**` only accepted names have been kept
        rw [keeps, hr, Bool.false_or] at hkeeps
        exact (Bool.and_eq_true_iff.mp hkeeps).2
      · exact ha
    rw [residual_enter, ← hl] at hns
    exact denotes_residual_cons haccepts hns
  · have hsame : (f.deeper (f.pathOf e)).residual = f.residual := rfl
    rw [hsame] at hns
    rw [residual, if_pos hr] at hns ⊢
    exact .more e.name hns

/-- A reported file uses up what is due. -/
theorem denotes_of_emit {f : Frame} {e : Entry} (h : f.action e = .emit) :
    Denotes f.residual [e.name] := by
  obtain ⟨_, hl, ha⟩ := action_emit_iff.mp h
  refine denotes_residual_cons ha ?_
  rw [hl]
  exact .done

/-- **A frame on its way** through the language of a pattern: `names` lead to
its directory, and what its residual denotes below them the pattern denotes. -/
structure Sound (p : Pattern) (o : WalkOptions) (f : Frame) (names : List String) : Prop where
  directory : f.directory = .ofNames names
  plain : ∀ n ∈ names, PlainName n
  kept : ∀ n ∈ names, o.ignore n = false
  denotes : ∀ ns, Denotes f.residual ns → Denotes p.segments (names ++ ns)
  ahead : ∀ c ∈ f.cursor, ∀ e ∈ c.ahead, PlainName e.name ∧ f.keeps o e.name = true

namespace Sound

variable {p : Pattern} {o : WalkOptions} {f g : Frame} {names : List String} {e : Entry}

/-- A fresh frame has no entries to say anything about. -/
theorem moved (h : f.Sound p o names) {c : Cursor}
    (hahead : ∀ e ∈ c.ahead, PlainName e.name ∧ f.keeps o e.name = true) :
    (f.moved c).Sound p o names := by
  refine ⟨h.directory, h.plain, h.kept, h.denotes, fun c' hc' e he => ?_⟩
  cases hc'
  exact hahead e he

/-- The entries behind the first one ahead stay ahead. -/
theorem taken (h : f.Sound p o names) {taken ahead : List Entry}
    (due : f.cursor = some ⟨taken, e :: ahead⟩) :
    (f.moved ⟨e :: taken, ahead⟩).Sound p o names :=
  h.moved fun e' he' => h.ahead _ due e' (List.mem_cons_of_mem e he')

/-- The names of an entry of the frame. -/
theorem entry (h : f.Sound p o names) (hplain : PlainName e.name)
    (hkeeps : f.keeps o e.name = true) :
    f.pathOf e = .ofNames (names ++ [e.name]) ∧ (∀ n ∈ names ++ [e.name], PlainName n) ∧
      ∀ n ∈ names ++ [e.name], o.ignore n = false := by
  refine ⟨?_, ?_, ?_⟩
  · rw [pathOf, h.directory, Path.entry_ofNames h.plain hplain]
  · exact List.forall_mem_append.mpr ⟨h.plain, List.forall_mem_singleton.mpr hplain⟩
  · have hignore : o.ignore e.name = false := by
      simpa using (Bool.and_eq_true_iff.mp hkeeps).1
    exact List.forall_mem_append.mpr ⟨h.kept, List.forall_mem_singleton.mpr hignore⟩

/-- **Entering a directory** stays on the way. -/
theorem descend (h : f.Sound p o names) (hplain : PlainName e.name)
    (hkeeps : f.keeps o e.name = true) (action : f.action e = .descend g) :
    g.Sound p o (names ++ [e.name]) := by
  obtain ⟨hfresh, hdir⟩ := fresh_of_descend action
  obtain ⟨hpath, hnames, hkept⟩ := h.entry hplain hkeeps
  refine ⟨hdir.trans hpath, hnames, hkept, fun ns hns => ?_, fun c hc => ?_⟩
  · rw [List.append_assoc]
    exact h.denotes _ (denotes_of_descend action hkeeps hns)
  · rw [hfresh] at hc
    cases hc

end Sound

end Frame

/-- A match carries the path that it was made for. -/
theorem path_of_matchOf {o : WalkOptions} {path : Path} {e : Entry} {s : Store} {m : Match}
    {calls : List Call} (h : (matchOf o path e).run s = (.ok (some m), calls)) :
    m.path = path := by
  unfold matchOf at h
  split at h
  · cases h
    rfl
  · split at h
    · simp only [Access.read, Access.bind_ask, Access.bind_done, Access.run_ask] at h
      cases hr : s (.read path) with
      | error cause => simp [hr] at h
      | ok bytes =>
        cases hp : Json.parse bytes with
        | error cause => simp [hr, hp] at h
        | ok value =>
          simp only [hr, hp, Access.pure_eq_done, Access.run_done, Prod.mk.injEq,
            Except.ok.injEq, Option.some.injEq] at h
          rw [← h.1]
    · cases h

namespace Walker

variable {p : Pattern} {o : WalkOptions} {s : Store}

/-- **A walk on its way**: every frame of its stack is. -/
def Sound (p : Pattern) (o : WalkOptions) (w : Walker) : Prop :=
  w.options = o ∧ ∀ f ∈ w.stack, ∃ names, f.Sound p o names

/-- **What the language says of an event**: the names of a match are denoted, and
none of them is ignored. -/
def Denoted (p : Pattern) (o : WalkOptions) : WalkEvent → Prop
  | .found m => Denotes p.segments m.path.pieces ∧ ∀ n ∈ m.path.pieces, o.ignore n = false
  | _ => True

/-- A walk begins on its way. -/
theorem sound_start (p : Pattern) (o : WalkOptions) : Sound p o (start p o) := by
  refine ⟨rfl, fun f hf => ⟨[], ?_⟩⟩
  cases List.mem_singleton.mp hf
  refine ⟨?_, by simp, by simp, fun ns hns => ?_, fun c hc => ?_⟩
  · rw [Frame.directory_enter, Path.ofNames_nil]
  · rw [Frame.residual_enter] at hns
    exact hns
  · rw [Frame.cursor_enter] at hc
    cases hc

/-- **Every step stays on the way**, and what it reports is denoted. -/
theorem sound_step (hs : s.ListsPlain) {w w' : Walker} {event : Option WalkEvent}
    {calls : List Call} (hw : Sound p o w) (h : Step s w event calls w') :
    Sound p o w' ∧ ∀ e ∈ event, Denoted p o e := by
  obtain ⟨rfl, hstack⟩ := hw
  cases h with
  | rest ended => exact ⟨⟨rfl, hstack⟩, by simp⟩
  | finish => exact ⟨⟨rfl, by simp⟩, by simp [Denoted]⟩
  | loadFailed fresh refused => exact ⟨⟨rfl, by simp⟩, by simp [Denoted]⟩
  | emitFailed due action refused => exact ⟨⟨rfl, by simp⟩, by simp [Denoted]⟩
  | pop spent => exact ⟨⟨rfl, fun f hf => hstack f (List.mem_cons_of_mem _ hf)⟩, by simp⟩
  | load fresh loaded =>
    obtain ⟨⟨names, hf⟩, hbelow⟩ := List.forall_mem_cons.mp hstack
    refine ⟨⟨rfl, List.forall_mem_cons.mpr ⟨⟨names, hf.moved fun e he => ?_⟩, hbelow⟩⟩, by simp⟩
    obtain ⟨hentry, hkeeps⟩ := Frame.hasEntry_of_load loaded he
    exact ⟨hs.hasEntry hentry, hkeeps⟩
  | skip due action =>
    obtain ⟨⟨names, hf⟩, hbelow⟩ := List.forall_mem_cons.mp hstack
    exact ⟨⟨rfl, List.forall_mem_cons.mpr ⟨⟨names, hf.taken due⟩, hbelow⟩⟩, by simp⟩
  | descend due action =>
    obtain ⟨⟨names, hf⟩, hbelow⟩ := List.forall_mem_cons.mp hstack
    obtain ⟨hplain, hkeeps⟩ := hf.ahead _ due _ List.mem_cons_self
    refine ⟨⟨rfl, List.forall_mem_cons.mpr ⟨⟨_, hf.descend hplain hkeeps action⟩, ?_⟩⟩, by simp⟩
    exact List.forall_mem_cons.mpr ⟨⟨names, hf.taken due⟩, hbelow⟩
  | @emit _ _ _ _ _ _ e found _ due action read =>
    obtain ⟨⟨names, hf⟩, hbelow⟩ := List.forall_mem_cons.mp hstack
    obtain ⟨hplain, hkeeps⟩ := hf.ahead _ due _ List.mem_cons_self
    refine ⟨⟨rfl, List.forall_mem_cons.mpr ⟨⟨names, hf.taken due⟩, hbelow⟩⟩, fun event he => ?_⟩
    obtain ⟨m, rfl, rfl⟩ := Option.map_eq_some_iff.mp he
    obtain ⟨hpath, hnames, hkept⟩ := hf.entry hplain hkeeps
    show Denotes p.segments m.path.pieces ∧ ∀ n ∈ m.path.pieces, _
    rw [path_of_matchOf read, hpath, Path.pieces_ofNames (by simp) hnames]
    exact ⟨hf.denotes _ (Frame.denotes_of_emit action), hkept⟩

/-- **Matches are in the language of the query.** However many steps a walk takes
and whatever fails on the way: the names of every match are denoted by the
segments of the query, and no name in its path is ignored. -/
theorem denotes_of_found (p : Pattern) (o : WalkOptions) (hs : s.ListsPlain)
    {es : List WalkEvent} {log : List Call} {w : Walker}
    (reached : Reaches s (start p o) es log w) {m : Match} (found : .found m ∈ es) :
    Denotes p.segments m.path.pieces ∧ ∀ n ∈ m.path.pieces, o.ignore n = false :=
  (reached.induct (sound_start p o) fun hw h => sound_step hs hw h).2 _ found

/-- A match before the failure of a walk. -/
theorem denotes_of_found_refusing :
    Memory.refusing.store.ListsPlain ∧
      ∃ m es log w, Reaches Memory.refusing.store (start ⟨.globstar, [.wildcard "*.json"]⟩ {})
          es log w ∧ .found m ∈ es ∧ m.path = ⟨"a/x.json"⟩ ∧
        Denotes [.globstar, .wildcard "*.json"] m.path.pieces := by
  have hplain := Memory.listsPlain_store (show Memory.refusing.isPlain = true from by decide)
  have hreached : Reaches Memory.refusing.store (start ⟨.globstar, [.wildcard "*.json"]⟩ {})
      [.found ⟨⟨"a/x.json"⟩, ⟨false, true, 0, none⟩, none⟩] _ _ := ⟨4, rfl⟩
  have hfound := List.mem_singleton_self (WalkEvent.found ⟨⟨"a/x.json"⟩, ⟨false, true, 0, none⟩, none⟩)
  exact ⟨hplain, _, _, _, _, hreached, hfound, rfl,
    (denotes_of_found _ _ hplain hreached hfound).1⟩

end Walker

end TreeQuery
