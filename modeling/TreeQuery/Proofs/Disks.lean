import Mathlib.Data.List.Nodup
import TreeQuery.Proofs.Containment
import TreeQuery.Proofs.Trees

/-!
# Ways on a disk

The disk follows a path piece by piece, with a count of links that goes down and pieces of
link targets that come in between. `Disk.Leads` says the same as a relation, one step for
each piece, and so ways can be put together and taken apart (`Leads.trans`,
`Leads.split`): a way along some pieces and then others goes through the place where the
first ones lead. A way that goes on from there shows that this place is a directory, that
it has an entry of the next name, and that it may be searched. Nothing is shown about
whether it may be read: what a way goes through need not be listed.

A disk is *proper* if no directory has a name twice and if the names that are texts are
plain, as on every real disk. Ways stay at proper places, since every place comes from the
top, and so what the store of a root lists is plain and without repetitions.
-/

namespace TreeQuery

namespace Disk

/-! ## Ways -/

/-- **What one piece comes to**, from a place with so many links that may be followed: the
place that it leads to, the links that are left, and the pieces that come first from
there. -/
inductive Onward (d : Disk) : (links : Nat) → (here : Place) → (piece : String) →
    (left : Nat) → (there : Place) → (ahead : List String) → Prop
  /-- An idle piece stays in the directory. -/
  | stay {links : Nat} {here : Place} {piece : String} {es : DiskEntries}
      (dir : here.node = .directory es) (free : d.barrier? here piece = none)
      (idle : Path.isIdle piece = true) : Onward d links here piece links here []
  | up {links : Nat} {here : Place} {es : DiskEntries} (dir : here.node = .directory es)
      (free : d.barrier? here ".." = none) : Onward d links here ".." links here.up []
  | down {links : Nat} {here : Place} {es : DiskEntries} {name : String} {n : DiskNode}
      (dir : here.node = .directory es) (free : d.barrier? here name = none)
      (moves : Path.isIdle name = false) (names : name ≠ "..")
      (short : name.utf8ByteSize ≤ maxName) (entry : es.lookup (.text name) = some n)
      (solid : ∀ target, n ≠ .link target) :
      Onward d links here name links (here.down (.text name) n) []
  /-- A link uses one up, and its target comes first. -/
  | through {links : Nat} {here : Place} {es : DiskEntries} {name : String} {target : Path}
      (dir : here.node = .directory es) (free : d.barrier? here name = none)
      (moves : Path.isIdle name = false) (names : name ≠ "..")
      (short : name.utf8ByteSize ≤ maxName) (entry : es.lookup (.text name) = some (.link target)) :
      Onward d (links + 1) here name links (if target.isAbsolute then d.top else here)
        target.pieces

/-- **A way on a disk**, from place to place along pieces. -/
inductive Leads (d : Disk) : (links : Nat) → (here : Place) → (pieces : List String) →
    (left : Nat) → (there : Place) → Prop
  | arrived {links : Nat} {here : Place} : Leads d links here [] links here
  | onward {links mid left : Nat} {here next there : Place} {piece : String}
      {ahead rest : List String} (first : Onward d links here piece mid next ahead)
      (way : Leads d mid next (ahead ++ rest) left there) :
      Leads d links here (piece :: rest) left there

variable {d : Disk} {links mid left : Nat} {here between there : Place}

/-- What follows a piece that leads on. -/
theorem Onward.follow_eq {piece : String} {ahead rest : List String}
    (h : d.Onward links here piece left there ahead) :
    d.follow links here (piece :: rest) = d.follow left there (ahead ++ rest) := by
  cases h with
  | stay dir free idle => simp [follow, dir, free, idle]
  | up dir free => simp [follow, dir, free, Path.isIdle]
  | down dir free moves names short entry solid =>
    simp [follow, dir, free, moves, names, Nat.not_lt.mpr short, entry]
  | through dir free moves names short entry =>
    simp [follow, dir, free, moves, names, Nat.not_lt.mpr short, entry]

/-- **Following pieces finds where they lead.** -/
theorem follow_eq_ok_iff {pieces : List String} :
    d.follow links here pieces = .ok there ↔ ∃ left, d.Leads links here pieces left there := by
  constructor
  · intro h
    fun_induction Disk.follow d links here pieces with
    | case1 links here =>
      cases h
      exact ⟨links, .arrived⟩
    | case5 links here piece rest es dir free idle ih =>
      exact (ih h).imp fun _ => .onward (.stay dir free idle)
    | case6 links here rest es dir free _ ih =>
      exact (ih h).imp fun _ => .onward (.up dir free)
    | case10 here piece rest es dir free moves names short target entry links ih =>
      exact (ih h).imp fun _ =>
        .onward (.through dir free (Bool.eq_false_iff.mpr moves) names (Nat.not_lt.mp short) entry)
    | case11 links here piece rest es dir free moves names short n solid entry ih =>
      exact (ih h).imp fun _ => .onward
        (.down dir free (Bool.eq_false_iff.mpr moves) names (Nat.not_lt.mp short) entry solid)
    | _ => cases h
  · rintro ⟨left, h⟩
    induction h with
    | arrived => rw [follow]
    | onward first _ ih => rw [first.follow_eq, ih]

namespace Leads

variable {before after : List String}

/-- Ways that meet are one way. -/
theorem trans (h : d.Leads links here before mid between)
    (h' : d.Leads mid between after left there) :
    d.Leads links here (before ++ after) left there := by
  induction h with
  | arrived => exact h'
  | onward first _ ih => exact .onward first (List.append_assoc _ _ _ ▸ ih h')

/-- **A way goes through where its first pieces lead.** -/
theorem split (h : d.Leads links here (before ++ after) left there) :
    ∃ mid between, d.Leads links here before mid between ∧
      d.Leads mid between after left there := by
  generalize hpieces : before ++ after = pieces at h
  induction h generalizing before with
  | arrived =>
    obtain ⟨rfl, rfl⟩ := List.append_eq_nil_iff.mp hpieces
    exact ⟨_, _, .arrived, .arrived⟩
  | onward first way ih =>
    cases before with
    | nil =>
      obtain rfl : after = _ := hpieces
      exact ⟨_, _, .arrived, .onward first way⟩
    | cons piece before =>
      obtain ⟨rfl, rfl⟩ := List.cons.inj hpieces
      obtain ⟨mid, between, h, h'⟩ := ih (List.append_assoc _ before after)
      exact ⟨mid, between, .onward first h, h'⟩

/-- A way that goes on with a name finds an entry of that name. -/
theorem exists_entry {name : String} {rest : List String} (moves : Path.isIdle name = false)
    (names : name ≠ "..") (h : d.Leads links here (name :: rest) left there) :
    ∃ es n, here.node = .directory es ∧ es.lookup (.text name) = some n := by
  obtain _ | ⟨first, _⟩ := h
  cases first with
  | stay _ _ idle => exact absurd (moves.symm.trans idle) Bool.false_ne_true
  | up => exact absurd rfl names
  | down dir _ _ _ _ entry | through dir _ _ _ _ entry => exact ⟨_, _, dir, entry⟩

end Leads

/-! ## Proper disks -/

end Disk

/-- **A node as a disk keeps it**: no directory in or below it has two entries of one name,
and the names that are texts are plain. -/
inductive DiskNode.Proper : DiskNode → Prop
  | directory {es : DiskEntries} (distinct : (es.map Prod.fst).Nodup)
      (plain : ∀ n, DiskName.text n ∈ es.map Prod.fst → PlainName n)
      (below : ∀ e ∈ es, e.2.Proper) : Proper (.directory es)
  | file (data : Bytes) (modified : Int) : Proper (.file data modified)
  | link (target : Path) : Proper (.link target)

/-- A place that is proper all the way. -/
structure Place.Proper (p : Place) : Prop where
  node : p.node.Proper
  way : ∀ e ∈ p.way, e.2.Proper

namespace Place.Proper

variable {p : Place}

theorem up (h : p.Proper) : p.up.Proper := by
  obtain ⟨node, way⟩ := p
  cases way with
  | nil => exact h
  | cons e way =>
    exact ⟨h.way e List.mem_cons_self, fun e' he => h.way e' (List.mem_cons_of_mem e he)⟩

theorem down (h : p.Proper) {name : DiskName} {n : DiskNode} (hn : n.Proper) :
    (p.down name n).Proper :=
  ⟨hn, List.forall_mem_cons.mpr ⟨h.node, h.way⟩⟩

/-- The entries of a proper directory are proper. -/
theorem entry (h : p.Proper) {es : DiskEntries} (dir : p.node = .directory es) {name : DiskName}
    {n : DiskNode} (entry : es.lookup name = some n) : n.Proper := by
  have hnode := h.node
  rw [dir] at hnode
  obtain ⟨before, after, hes, _⟩ := List.lookup_eq_some_iff.mp entry
  cases hnode with
  | directory _ _ below => exact below (name, n) (hes ▸ by simp)

end Place.Proper

namespace Disk

variable {d : Disk} {links mid left : Nat} {here between there : Place}

/-- **A proper disk**: one whose top is proper. -/
def Proper (d : Disk) : Prop :=
  d.top.node.Proper

/-- **Ways on a proper disk stay at proper places.** -/
theorem Leads.proper {pieces : List String} (hd : d.Proper) (hhere : here.Proper)
    (h : d.Leads links here pieces left there) : there.Proper := by
  induction h with
  | arrived => exact hhere
  | onward first _ ih =>
    refine ih ?_
    cases first with
    | stay => exact hhere
    | up => exact hhere.up
    | down dir _ _ _ _ entry => exact hhere.down (hhere.entry dir entry)
    | @through _ _ _ _ target =>
      split
      · exact ⟨hd, by simp [Disk.top]⟩
      · exact hhere

/-! ## Calls to the disk -/

/-- **A path that can be asked about**: one that a call to the system takes. -/
structure Askable (p : Path) : Prop where
  noNul : '\x00' ∉ p.text.toList
  nonempty : p.text ≠ ""
  short : p.text.utf8ByteSize ≤ maxPath

/-- What a path that can be asked about begins with can be asked about. -/
theorem Askable.of_append {before after : String} (h : Askable ⟨before ++ after⟩)
    (hne : before ≠ "") : Askable ⟨before⟩ := by
  obtain ⟨hnul, _, hshort⟩ := h
  rw [String.toList_append, List.mem_append, not_or] at hnul
  rw [String.utf8ByteSize_append] at hshort
  exact ⟨hnul.1, hne, Nat.le_of_add_right_le hshort⟩

/-- **The place of a path** is where its pieces lead from the top. -/
theorem locate_eq_ok_iff {p : Path} :
    d.locate p = .ok there ↔ Askable p ∧ ∃ left, d.Leads maxLinks d.top p.pieces left there := by
  unfold locate
  rw [← follow_eq_ok_iff]
  constructor
  · intro h
    split at h
    · cases h
    · next hnul =>
      split at h
      · cases h
      · next hne =>
        split at h
        · cases h
        · next hshort => exact ⟨⟨by simpa using hnul, hne, Nat.not_lt.mp hshort⟩, h⟩
  · rintro ⟨⟨hnul, hne, hshort⟩, h⟩
    rw [if_neg (by simpa using hnul), if_neg hne, if_neg (Nat.not_lt.mpr hshort), h]

/-- What can be listed is a directory that may be read. -/
theorem list_eq_ok_iff {p : Path} {names : List DiskName} :
    d.list p = .ok names ↔
      ∃ there es, d.locate p = .ok there ∧ there.node = .directory es ∧
        d.refusal? .read there.location = none ∧ names = es.map Prod.fst := by
  unfold list
  cases h : d.locate p with
  | error e => simp [bind, Except.bind]
  | ok there =>
    cases hn : there.node with
    | file | link => simp [bind, Except.bind, hn]
    | directory es =>
      cases hr : d.refusal? .read there.location <;> simp [bind, Except.bind, hn, hr, eq_comm]

/-- What can be read is a file that may be. -/
theorem read_eq_ok_iff {p : Path} {bytes : Bytes} :
    d.read p = .ok bytes ↔
      ∃ there modified, d.locate p = .ok there ∧ d.refusal? .read there.location = none ∧
        there.node = .file bytes modified := by
  unfold read
  cases h : d.locate p with
  | error e => simp [bind, Except.bind]
  | ok there =>
    cases hr : d.refusal? .read there.location with
    | some fault => simp [bind, Except.bind, hr]
    | none => cases hn : there.node <;> simp [bind, Except.bind, hn, hr]

/-- A file that may not be read is not. -/
theorem read_of_refused {p : Path} {fault : DiskFault} (h : d.locate p = .ok there)
    (refused : d.refusal? .read there.location = some fault) : d.read p = .error fault.error := by
  simp [read, h, refused, bind, Except.bind]

/-- A directory is statted as one. -/
theorem stat_of_directory {p : Path} {es : DiskEntries} (h : d.locate p = .ok there)
    (dir : there.node = .directory es) : d.stat p = .ok ⟨true, false, 0, none⟩ := by
  simp [stat, h, dir, bind, Except.bind]

/-- A file is statted as one. -/
theorem stat_of_file {p : Path} {data : Bytes} {modified : Int} (h : d.locate p = .ok there)
    (file : there.node = .file data modified) :
    d.stat p = .ok ⟨false, true, data.length, some modified⟩ := by
  simp [stat, h, file, bind, Except.bind]

/-- **Listings of a proper disk** repeat no name, and their texts are plain. -/
theorem Proper.of_list (hd : d.Proper) {p : Path} {names : List DiskName}
    (h : d.list p = .ok names) :
    names.Nodup ∧ ∀ n, DiskName.text n ∈ names → PlainName n := by
  obtain ⟨there, es, hlocate, dir, _, rfl⟩ := list_eq_ok_iff.mp h
  obtain ⟨_, left, hleads⟩ := locate_eq_ok_iff.mp hlocate
  have hnode := (hleads.proper hd ⟨hd, by simp [Disk.top]⟩).node
  rw [dir] at hnode
  cases hnode with
  | directory distinct plain _ => exact ⟨distinct, plain⟩

end Disk

/-- A disk with a link to a directory on the way to its files. -/
def Disk.linked : Disk where
  entries := [(.text "srv", .directory
    [(.text "alias", .link ⟨"data"⟩),
     (.text "data", .directory
      [(.text "amy.json", .file [110, 117, 108, 108] 0), (.text "bob.json", .file [] 0)])])]

/-- It is proper. -/
theorem Disk.proper_linked : linked.Proper := by
  have hplain : ∀ n ∈ ["srv", "alias", "data", "amy.json", "bob.json"], PlainName n := by decide
  refine .directory (by decide) (by simp [linked, hplain]) (List.forall_mem_singleton.mpr ?_)
  refine .directory (by decide) (by simp [hplain]) ?_
  refine List.forall_mem_cons.mpr ⟨.link _, List.forall_mem_singleton.mpr ?_⟩
  refine .directory (by decide) (by simp [hplain]) ?_
  exact List.forall_mem_cons.mpr ⟨.file _ _, List.forall_mem_singleton.mpr (.file _ _)⟩

/-- One file is read through the link, and the other one without it. -/
theorem Disk.read_linked :
    linked.read ⟨"/srv/alias/amy.json"⟩ = .ok [110, 117, 108, 108] ∧
      linked.read ⟨"/srv/data/bob.json"⟩ = .ok [] := by
  have hpieces : (Path.mk "/srv/alias/amy.json").pieces = ["", "srv", "alias", "amy.json"] ∧
      (Path.mk "/srv/data/bob.json").pieces = ["", "srv", "data", "bob.json"] ∧
      (Path.mk "data").pieces = ["data"] := by decide
  have hsizes : "/srv/alias/amy.json".utf8ByteSize = 19 ∧ "/srv/data/bob.json".utf8ByteSize = 18 ∧
      "srv".utf8ByteSize = 3 ∧ "alias".utf8ByteSize = 5 ∧ "data".utf8ByteSize = 4 ∧
      "amy.json".utf8ByteSize = 8 ∧ "bob.json".utf8ByteSize = 8 := by decide
  have hnames : (DiskName.text "data" == .text "alias") = false ∧
      (DiskName.text "bob.json" == .text "amy.json") = false := by decide
  constructor <;>
    simp [read, locate, hpieces, follow, hsizes, List.lookup_cons, hnames, top, linked, Place.down,
      Path.isIdle, Path.isAbsolute, maxLinks, maxName, maxPath, barrier?, refusal?, bind,
      Except.bind]

/-- A disk with a directory that may be searched but not listed, and a file that may not be
read. -/
def Disk.guarded : Disk where
  entries := [(.text "srv", .directory
    [(.text "sealed.json", .file [110, 117, 108, 108] 0),
     (.text "vault", .directory [(.text "amy.json", .file [110, 117, 108, 108] 0)])])]
  refusals :=
    [((.read, [.text "srv", .text "vault"]), { number := 13 }),
     ((.read, [.text "srv", .text "sealed.json"]), { number := 13 })]

/-- It is proper. -/
theorem Disk.proper_guarded : guarded.Proper := by
  have hplain : ∀ n ∈ ["srv", "sealed.json", "vault", "amy.json"], PlainName n := by decide
  refine .directory (by decide) (by simp [guarded, hplain]) (List.forall_mem_singleton.mpr ?_)
  refine .directory (by decide) (by simp [hplain]) ?_
  refine List.forall_mem_cons.mpr ⟨.file _ _, List.forall_mem_singleton.mpr ?_⟩
  exact .directory (by decide) (by simp [hplain]) (List.forall_mem_singleton.mpr (.file _ _))

/-- What lies in the directory is read, but it is not listed; the file is statted, but not
read. -/
theorem Disk.read_guarded :
    guarded.read ⟨"/srv/vault/amy.json"⟩ = .ok [110, 117, 108, 108] ∧
      guarded.list ⟨"/srv/vault"⟩ = .error (.ofNumber 13) ∧
      guarded.list ⟨"/srv/"⟩ = .ok [.text "sealed.json", .text "vault"] ∧
      guarded.stat ⟨"/srv/sealed.json"⟩ = .ok ⟨false, true, 4, some 0⟩ ∧
      guarded.read ⟨"/srv/sealed.json"⟩ = .error (.ofNumber 13) := by
  have hpieces : (Path.mk "/srv/vault/amy.json").pieces = ["", "srv", "vault", "amy.json"] ∧
      (Path.mk "/srv/vault").pieces = ["", "srv", "vault"] ∧
      (Path.mk "/srv/").pieces = ["", "srv", ""] ∧
      (Path.mk "/srv/sealed.json").pieces = ["", "srv", "sealed.json"] := by decide
  have hsizes : "/srv/vault/amy.json".utf8ByteSize = 19 ∧ "/srv/vault".utf8ByteSize = 10 ∧
      "/srv/".utf8ByteSize = 5 ∧ "/srv/sealed.json".utf8ByteSize = 16 ∧
      "srv".utf8ByteSize = 3 ∧ "vault".utf8ByteSize = 5 ∧ "amy.json".utf8ByteSize = 8 ∧
      "sealed.json".utf8ByteSize = 11 := by decide
  have hnames : (DiskName.text "vault" == .text "sealed.json") = false := by decide
  have hsearch : ∀ l, guarded.refusal? .search l = none := fun l => by
    simp [refusal?, guarded, List.lookup_cons, show ∀ l', ((DiskUse.search, l) == (.read, l')) = false
      from fun l' => beq_eq_false_iff_ne.mpr (by simp)]
  have hreads : guarded.refusal? .read [.text "srv", .text "vault"] = some { number := 13 } ∧
      guarded.refusal? .read [.text "srv", .text "vault", .text "amy.json"] = none ∧
      guarded.refusal? .read [.text "srv"] = none ∧
      guarded.refusal? .read [.text "srv", .text "sealed.json"] = some { number := 13 } := by
    decide
  have htop : guarded.top = ⟨.directory [(.text "srv", .directory
      [(.text "sealed.json", .file [110, 117, 108, 108] 0),
       (.text "vault", .directory [(.text "amy.json", .file [110, 117, 108, 108] 0)])])], []⟩ := rfl
  refine ⟨?_, ?_, ?_, ?_, ?_⟩ <;>
    simp [read, list, stat, locate, hpieces, follow, hsizes, List.lookup_cons, hnames, htop,
      hsearch, hreads, Place.down, Place.location, Path.isIdle, maxLinks, maxName, maxPath,
      barrier?, bind, Except.bind, DiskFault.error]

/-! ## The store of a root -/

namespace Records

variable {r : Records}

/-- The listing has the names that are texts. -/
theorem mem_listing {names : List DiskName} {n : String} :
    n ∈ listing names ↔ .text n ∈ names := by
  rw [listing, List.mem_mergeSort, List.mem_filterMap]
  constructor
  · rintro ⟨name, hname, htext⟩
    cases name with
    | text n' => cases htext; exact hname
    | raw bytes => cases htext
  · exact fun h => ⟨_, h, rfl⟩

/-- It repeats none if the directory does not. -/
theorem nodup_listing {names : List DiskName} (h : names.Nodup) : (listing names).Nodup := by
  rw [listing, (List.mergeSort_perm _ _).nodup_iff]
  refine h.filterMap fun a a' b hb hb' => ?_
  cases a <;> cases a' <;> simp_all [DiskName.text?]

/-- What the store lists, the disk has listed. -/
theorem exists_list_of_store {p : Path} {names : List String}
    (h : r.store (.list p) = .ok names) :
    ∃ full raw, r.disk.list full = .ok raw ∧ names = listing raw := by
  simp only [store, reach] at h
  cases hresolved : resolve r.root p with
  | error e => rw [hresolved] at h; cases h
  | ok full =>
    simp only [hresolved] at h
    cases hraw : r.disk.list full with
    | error e => rw [hraw] at h; cases h
    | ok raw =>
      rw [hraw] at h
      exact ⟨full, raw, hraw, (Except.ok.inj h).symm⟩

/-- A directory that may be read is listed by the names in it. -/
theorem list_of_locate {p full : Path} {there : Place} {es : DiskEntries}
    (h : resolve r.root p = .ok full) (located : r.disk.locate full = .ok there)
    (dir : there.node = .directory es) (free : r.disk.refusal? .read there.location = none) :
    r.store (.list p) = .ok (listing (es.map Prod.fst)) := by
  rw [store, reach_of_resolve h, Disk.list_eq_ok_iff.mpr ⟨there, es, located, dir, free, rfl⟩]
  rfl

/-- A directory is statted as one, -/
theorem stat_directory_of_locate {p full : Path} {there : Place} {es : DiskEntries}
    (h : resolve r.root p = .ok full) (located : r.disk.locate full = .ok there)
    (dir : there.node = .directory es) : r.store (.stat p) = .ok ⟨true, false, 0, none⟩ := by
  rw [store, reach_of_resolve h, Disk.stat_of_directory located dir]
  rfl

/-- and a file as one, -/
theorem stat_file_of_locate {p full : Path} {there : Place} {data : Bytes} {modified : Int}
    (h : resolve r.root p = .ok full) (located : r.disk.locate full = .ok there)
    (file : there.node = .file data modified) :
    r.store (.stat p) = .ok ⟨false, true, data.length, some modified⟩ := by
  rw [store, reach_of_resolve h, Disk.stat_of_file located file]
  rfl

/-- and a file that may be read gives its bytes. -/
theorem read_of_locate {p full : Path} {there : Place} {data : Bytes} {modified : Int}
    (h : resolve r.root p = .ok full) (located : r.disk.locate full = .ok there)
    (free : r.disk.refusal? .read there.location = none)
    (file : there.node = .file data modified) : r.store (.read p) = .ok data := by
  rw [store, reach_of_resolve h, Disk.read_eq_ok_iff.mpr ⟨there, modified, located, free, file⟩]
  rfl

/-- Where nothing is waited for, what is refused is refused at once. -/
theorem refusesAtOnce_store (r : Records) (prompt : r.disk.waits = []) :
    r.store.RefusesAtOnce := by
  have hreach : ∀ {α : Type} (p : Path) (ask : Path → Except SystemError α) refusal,
      r.reach p ask = .error refusal → refusal.late = 0 := by
    intro α p ask refusal h
    unfold reach at h
    split at h
    · cases h
      rfl
    · next full _ =>
      cases hask : ask full with
      | ok a => rw [hask] at h; cases h
      | error e =>
        rw [hask] at h
        cases h
        rw [Refusal.ofSystem, Disk.late, prompt, List.lookup_nil, Option.getD_none]
  intro c refusal h
  cases c with
  | stat p | read p => exact hreach p _ refusal h
  | list p =>
    cases hlist : r.reach p r.disk.list with
    | ok names => rw [store, hlist] at h; cases h
    | error e =>
      rw [store, hlist] at h
      obtain rfl : e = refusal := Except.error.inj h
      exact hreach p _ e hlist

/-- **Roots on proper disks list plain names.** -/
theorem listsPlain_store (hd : r.disk.Proper) : r.store.ListsPlain := by
  intro dir names hlist n hn
  obtain ⟨full, raw, hraw, rfl⟩ := exists_list_of_store hlist
  exact (hd.of_list hraw).2 n (mem_listing.mp hn)

/-- **Roots on proper disks repeat no name.** -/
theorem listsDistinct_store (hd : r.disk.Proper) : r.store.ListsDistinct := by
  intro dir names hlist
  obtain ⟨full, raw, hraw, rfl⟩ := exists_list_of_store hlist
  exact nodup_listing (hd.of_list hraw).1

end Records

end TreeQuery
