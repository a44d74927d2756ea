import TreeQuery.Store.Memory
import TreeQuery.Proofs.Names

/-!
# The tree that a store shows

A store answers calls; the tree behind it is what a sequence of calls finds out:
an entry is a name that a directory lists and that can be statted. How far such
entries nest decides whether a walk ends, and which lists of names lead to one
(`Store.Holds`) is what a walk has to find.

Trees in memory whose names are plain show both: their listings are plain, and
they nest no deeper than their longest path has characters.
-/

namespace TreeQuery

namespace Store

/-- **An entry of a directory**: the directory lists the name, and `m` is known
about it. -/
def HasEntry (s : Store) (dir : Path) (name : String) (m : Metadata) : Prop :=
  ∃ names, s (.list dir) = .ok names ∧ name ∈ names ∧ s (.stat (dir.entry name)) = .ok m

/-- Every listed name is plain. -/
def ListsPlain (s : Store) : Prop :=
  ∀ dir names, s (.list dir) = .ok names → ∀ n ∈ names, PlainName n

/-- **Directories nest at most so many levels deep** below `dir`. -/
def NestsWithin (s : Store) : (levels : Nat) → Path → Prop
  | 0, dir => ∀ name m, s.HasEntry dir name m → m.isDir = false
  | levels + 1, dir => ∀ name m, s.HasEntry dir name m → m.isDir = true →
      NestsWithin s levels (dir.entry name)

/-- **Nothing fails** that a walk in stats mode may ask: directories can be
listed, and what they list can be statted. -/
structure Answers (s : Store) : Prop where
  lists : ∀ dir, (dir = .root ∨ ∃ m, s (.stat dir) = .ok m ∧ m.isDir = true) →
    ∃ names, s (.list dir) = .ok names
  stats : ∀ dir names, s (.list dir) = .ok names → ∀ n ∈ names,
    ∃ m, s (.stat (dir.entry n)) = .ok m

/-- No name is listed twice. -/
def ListsDistinct (s : Store) : Prop :=
  ∀ dir names, s (.list dir) = .ok names → names.Nodup

/-- **The tree behind a store**: the names lead from `dir` to an entry of which
`m` is known, each of them but the last to a directory. -/
inductive Holds (s : Store) : (dir : Path) → List String → Metadata → Prop
  | here {dir : Path} {n : String} {m : Metadata} (entry : s.HasEntry dir n m) : Holds s dir [n] m
  | deeper {dir : Path} {n : String} {d m : Metadata} {names : List String}
      (entry : s.HasEntry dir n d) (isDir : d.isDir = true) (rest : Holds s (dir.entry n) names m) :
      Holds s dir (n :: names) m

/-- Late refusals are refusals: what a store grants, it grants the same. -/
theorem delayed_eq_ok_iff {s : Store} {late : Call → Nat} {c : Call} {a : c.Result} :
    s.delayed late c = .ok a ↔ s c = .ok a := by
  unfold delayed
  cases s c with
  | error r => exact ⟨(nomatch ·), (nomatch ·)⟩
  | ok b => rfl

theorem hasEntry_delayed {s : Store} {late : Call → Nat} {dir : Path} {name : String}
    {m : Metadata} : (s.delayed late).HasEntry dir name m ↔ s.HasEntry dir name m :=
  exists_congr fun _ => and_congr delayed_eq_ok_iff (and_congr_right' delayed_eq_ok_iff)

/-- Directories nest as deep as before when refusals come late. -/
theorem NestsWithin.delayed {s : Store} {levels : Nat} {dir : Path}
    (h : s.NestsWithin levels dir) (late : Call → Nat) :
    (s.delayed late).NestsWithin levels dir := by
  induction levels generalizing dir with
  | zero => exact fun name m he => h name m (hasEntry_delayed.mp he)
  | succ levels ih => exact fun name m he hd => ih (h name m (hasEntry_delayed.mp he) hd)

/-- The names of entries are plain where listings are. -/
theorem ListsPlain.hasEntry {s : Store} (h : s.ListsPlain) {dir : Path} {name : String}
    {m : Metadata} (he : s.HasEntry dir name m) : PlainName name := by
  obtain ⟨names, hlist, hmem, _⟩ := he
  exact h dir names hlist name hmem

/-- An entry has one metadata. -/
theorem HasEntry.unique {s : Store} {dir : Path} {n : String} {m m' : Metadata}
    (h : s.HasEntry dir n m) (h' : s.HasEntry dir n m') : m = m' := by
  obtain ⟨_, _, _, hm⟩ := h
  obtain ⟨_, _, _, hm'⟩ := h'
  rw [hm] at hm'
  exact Except.ok.inj hm'

/-- Names that lead somewhere are plain where listings are. -/
theorem Holds.plain {s : Store} (hs : s.ListsPlain) {dir : Path} {names : List String}
    {m : Metadata} (h : s.Holds dir names m) : ∀ n ∈ names, PlainName n := by
  induction h with
  | here entry => exact fun n hn => List.mem_singleton.mp hn ▸ hs.hasEntry entry
  | deeper entry _ _ ih =>
    intro n hn
    rcases List.mem_cons.mp hn with rfl | hn
    · exact hs.hasEntry entry
    · exact ih n hn

theorem Holds.ne_nil {s : Store} {dir : Path} {names : List String} {m : Metadata}
    (h : s.Holds dir names m) : names ≠ [] := by
  cases h <;> exact List.cons_ne_nil _ _

/-- What lies behind a name of the tree. -/
theorem holds_cons_iff {s : Store} {dir : Path} {n : String} {names : List String}
    {m : Metadata} :
    s.Holds dir (n :: names) m ↔
      (names = [] ∧ s.HasEntry dir n m) ∨
        ∃ d, s.HasEntry dir n d ∧ d.isDir = true ∧ s.Holds (dir.entry n) names m := by
  constructor
  · intro h
    cases h with
    | here entry => exact .inl ⟨rfl, entry⟩
    | deeper entry isDir rest => exact .inr ⟨_, entry, isDir, rest⟩
  · rintro (⟨rfl, entry⟩ | ⟨d, entry, isDir, rest⟩)
    · exact .here entry
    · exact .deeper entry isDir rest

end Store

namespace Memory

/-- What is listed or statted stands in the tree. -/
theorem mem_entries_of_find? {t : Memory} {p : Path} {e : MemoryEntry} (h : t.find? p = some e) :
    (p, e) ∈ t.entries := by
  unfold find? at h
  obtain ⟨l₁, l₂, hl, _⟩ := List.lookup_eq_some_iff.mp h
  rw [hl]
  exact List.mem_append_right l₁ List.mem_cons_self

/-- What a directory lists are the names of its entry. -/
theorem exists_of_list {t : Memory} {dir : Path} {names : List String}
    (h : t.store (.list dir) = .ok names) : ∃ e, (dir, e) ∈ t.entries ∧ e.names = names := by
  simp only [store] at h
  cases hf : t.find? dir with
  | none => rw [hf] at h; cases h
  | some e =>
    refine ⟨e, mem_entries_of_find? hf, ?_⟩
    simp only [hf] at h
    split at h
    · cases h
    · split at h
      · cases h; rfl
      · cases h

/-- **Plain trees list plain names.** -/
theorem listsPlain_store {t : Memory} (h : t.isPlain = true) : t.store.ListsPlain := by
  intro dir names hlist n hn
  obtain ⟨e, he, rfl⟩ := exists_of_list hlist
  have hname := List.all_eq_true.mp (List.all_eq_true.mp h _ he) n hn
  simp only [Bool.and_eq_true, decide_eq_true_eq, Bool.not_eq_true', List.contains_eq_mem,
    decide_eq_false_iff_not] at hname
  exact ⟨hname.1, hname.2⟩

/-- No path of the tree is longer than the longest one. -/
theorem length_le_longest {t : Memory} {p : Path} {e : MemoryEntry} (h : (p, e) ∈ t.entries) :
    p.text.length ≤ t.longest := by
  have hmem : p.text.length ∈ t.entries.map fun e => e.1.text.length :=
    List.mem_map_of_mem (f := fun e : Path × MemoryEntry => e.1.text.length) h
  rw [longest, List.foldl_max_eq_max (List.ne_nil_of_mem hmem)]
  exact Nat.le_trans (List.le_max_of_mem hmem) (Nat.le_max_right _ _)

/-- Only what stands in the tree can be statted. -/
theorem length_le_of_stat {t : Memory} {p : Path} {m : Metadata}
    (h : t.store (.stat p) = .ok m) : p.text.length ≤ t.longest := by
  simp only [store] at h
  cases hf : t.find? p with
  | none => rw [hf] at h; cases h
  | some e => exact length_le_longest (mem_entries_of_find? hf)

/-- **Plain trees nest finitely deep**: each directory on the way down makes the
path longer, and no path is longer than the longest one. -/
theorem nestsWithin_store {t : Memory} (h : t.isPlain = true) :
    t.store.NestsWithin t.longest .root := by
  suffices hdeep : ∀ levels dir, t.longest ≤ dir.text.length + levels →
      t.store.NestsWithin levels dir from hdeep t.longest .root (Nat.le_add_left _ _)
  intro levels
  induction levels with
  | zero =>
    intro dir hdir name m he
    have hlonger := Path.length_lt_entry (p := dir) ((listsPlain_store h).hasEntry he)
    obtain ⟨_, _, _, hstat⟩ := he
    have := length_le_of_stat hstat
    omega
  | succ levels ih =>
    intro dir hdir name m he _
    have hlonger := Path.length_lt_entry (p := dir) ((listsPlain_store h).hasEntry he)
    exact ih _ (by omega)

/-- No node refuses to be listed or statted, and all that is listed is there. -/
def isFaultless (t : Memory) : Bool :=
  (t.find? .root).any MemoryEntry.isDir && t.entries.all fun a =>
    a.2.attributes.listFault.isNone && a.2.attributes.statFault.isNone &&
      a.2.names.all fun n => (t.find? (a.1.entry n)).isSome

/-- In a faultless tree everything that is there can be statted. -/
theorem stat_of_isFaultless {t : Memory} (h : t.isFaultless = true) {p : Path} {e : MemoryEntry}
    (hf : t.find? p = some e) : t.store (.stat p) = .ok (MemoryEntry.metadata e) := by
  have hall := List.all_eq_true.mp (Bool.and_eq_true_iff.mp h).2 _ (mem_entries_of_find? hf)
  simp only [Bool.and_eq_true, Option.isNone_iff_eq_none] at hall
  simp only [store, hf, hall.1.2]

/-- In a faultless tree every directory can be listed. -/
theorem list_of_isFaultless {t : Memory} (h : t.isFaultless = true) {p : Path} {e : MemoryEntry}
    (hf : t.find? p = some e) (hd : e.isDir = true) : t.store (.list p) = .ok e.names := by
  have hall := List.all_eq_true.mp (Bool.and_eq_true_iff.mp h).2 _ (mem_entries_of_find? hf)
  simp only [Bool.and_eq_true, Option.isNone_iff_eq_none] at hall
  simp only [store, hf, hall.1.1, hd, if_true]

/-- **Faultless trees answer.** -/
theorem answers_store {t : Memory} (h : t.isFaultless = true) : t.store.Answers := by
  constructor
  · intro dir hdir
    obtain ⟨e, hf, hd⟩ : ∃ e, t.find? dir = some e ∧ e.isDir = true := by
      rcases hdir with rfl | ⟨m, hstat, hd⟩
      · exact (Option.any_eq_true _ _).mp (Bool.and_eq_true_iff.mp h).1
      · cases hf : t.find? dir with
        | none => simp [store, hf] at hstat
        | some e =>
          rw [stat_of_isFaultless h hf] at hstat
          cases hstat
          exact ⟨e, rfl, hd⟩
    exact ⟨e.names, list_of_isFaultless h hf hd⟩
  · intro dir names hlist n hn
    obtain ⟨e, he, rfl⟩ := exists_of_list hlist
    have hall := List.all_eq_true.mp (Bool.and_eq_true_iff.mp h).2 _ he
    have hthere := List.all_eq_true.mp (Bool.and_eq_true_iff.mp hall).2 n hn
    obtain ⟨e', hf⟩ := Option.isSome_iff_exists.mp hthere
    exact ⟨_, stat_of_isFaultless h hf⟩

/-- Where no node repeats a name, no listing does. -/
theorem listsDistinct_store {t : Memory} (h : ∀ a ∈ t.entries, a.2.names.Nodup) :
    t.store.ListsDistinct := by
  intro dir names hlist
  obtain ⟨e, he, rfl⟩ := exists_of_list hlist
  exact h _ he

/-- What a tree in memory refuses, it refuses at once. -/
theorem refusesAtOnce_store (t : Memory) : t.store.RefusesAtOnce := by
  intro c r h
  cases c <;>
  · simp only [store] at h
    split at h
    · cases h; rfl
    · split at h
      · cases h; rfl
      · first | (split at h <;> cases h <;> rfl) | cases h

/-- A tree with a directory in a directory, in which one listing is refused. -/
def refusing : Memory :=
  ofNodes
    [ { path := ⟨"a/x.json"⟩ },
      { path := ⟨"a/b"⟩, isDir := true, attributes := { listFault := some .permission } },
      { path := ⟨"c.json"⟩ } ]

/-- A tree with two files that cannot be statted. -/
def unstatted : Memory :=
  ofNodes
    [ { path := ⟨"a.json"⟩, attributes := { statFault := some .io } },
      { path := ⟨"b.json"⟩ },
      { path := ⟨"c.json"⟩, attributes := { statFault := some .permission } } ]

/-- A tree in which a name occurs on several levels. -/
def nested : Memory :=
  ofNodes
    [ { path := ⟨"data/3.json"⟩ }, { path := ⟨"data/data/4.json"⟩ },
      { path := ⟨"x/data/1.json"⟩ }, { path := ⟨"x/note.txt"⟩ } ]

end Memory

end TreeQuery
