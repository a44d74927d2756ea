import TreeQuery.Proofs.Once
import TreeQuery.Proofs.Places

/-!
# Walks end among links that go round

On a real disk links may lead to the directories above them, to each other and to
themselves, and a walk remembers nothing of where it has been. It ends all the same: the
names of a path are bounded by the height of the disk and the links that may be followed
(`Disk.farthest`), every directory that the walk goes into adds a name, and so what it sees
nests finitely deep (`Store.nestsWithin_of_components_le`). How many steps it takes at most
depends on the disk alone, and on neither the root nor the pattern.

Where a path goes through too many links the system refuses it, and the walk fails there.
What has been statted has a place, and so only a path that is statted can be refused, or
that of the root, which is listed first.
-/

namespace TreeQuery

/-! ## Real disks -/

/-- **A node without the name `.`**, which every real directory keeps for itself. -/
inductive DiskNode.Undotted : DiskNode → Prop
  | directory {es : DiskEntries} (undotted : .text "." ∉ es.map Prod.fst)
      (below : ∀ e ∈ es, e.2.Undotted) : Undotted (.directory es)
  | file (data : Bytes) (modified : Int) : Undotted (.file data modified)
  | link (target : Path) : Undotted (.link target)

/-- **A real disk**: the names in a directory are different, not empty, without a slash and
not `.`. Of its links nothing is asked. -/
structure Disk.Real (d : Disk) : Prop where
  proper : d.Proper
  undotted : d.top.node.Undotted

namespace Disk

variable {d : Disk} {links : Nat} {here : Place}

theorem Has.undotted (hd : d.top.node.Undotted) (h : d.Has here) : here.node.Undotted := by
  induction h with
  | top => exact hd
  | entry _ dir mem ih =>
    rw [dir] at ih
    cases ih with
    | directory _ below => exact below _ mem

/-- **A link to itself is refused**, however many links may be followed. -/
theorem follow_of_link_to_itself {es : DiskEntries} {name : String}
    (dir : here.node = .directory es) (free : d.barrier? here name = none)
    (moves : Path.isIdle name = false) (names : name ≠ "..") (plain : PlainName name)
    (short : name.utf8ByteSize ≤ maxName) (entry : es.lookup (.text name) = some (.link ⟨name⟩))
    (rest : List String) : d.follow links here (name :: rest) = .error .tooManyLinks := by
  induction links with
  | zero => simp [follow, dir, free, moves, names, Nat.not_lt.mpr short, entry]
  | succ links ih =>
    rw [(Onward.through dir free moves names short entry).follow_eq, Path.isAbsolute_of_plain plain,
      Path.pieces_of_plain plain]
    exact ih

end Disk

/-! ## Names that move -/

/-- **Directories nest no deeper than paths lead**: where listed names move and paths that
can be statted have at most `b` names, there are at most so many levels. -/
theorem Store.nestsWithin_of_components_le {s : Store} {b : Nat}
    (moving : ∀ dir names, s (.list dir) = .ok names → ∀ n ∈ names, PlainName n ∧ n ≠ ".")
    (near : ∀ q m, s (.stat q) = .ok m → q.components.length ≤ b) : s.NestsWithin b .root := by
  suffices hlevels : ∀ levels dir, b ≤ dir.components.length + levels → s.NestsWithin levels dir
    from hlevels b .root (Nat.le_add_left _ _)
  have hdeeper : ∀ dir name m, s.HasEntry dir name m →
      (dir.entry name).components.length = dir.components.length + 1 := by
    rintro dir name m ⟨names, hlist, hmem, _⟩
    obtain ⟨hplain, hdot⟩ := moving dir names hlist name hmem
    rw [Path.components_entry hplain hdot, List.length_append, List.length_singleton]
  intro levels
  induction levels with
  | zero =>
    intro dir hdir name m hentry
    have hlonger := hdeeper dir name m hentry
    obtain ⟨_, _, _, hstat⟩ := hentry
    have hnear := near _ m hstat
    omega
  | succ levels ih =>
    intro dir hdir name m hentry _
    have hlonger := hdeeper dir name m hentry
    exact ih _ (by omega)

namespace Records

variable {r : Records} {q full : Path}

/-- Below a root of a real disk the names move. -/
theorem moving_of_list (real : r.disk.Real) {names : List String}
    (h : r.store (.list q) = .ok names) : ∀ n ∈ names, PlainName n ∧ n ≠ "." := by
  intro n hn
  refine ⟨listsPlain_store real.proper q names h n hn, ?_⟩
  rintro rfl
  obtain ⟨full, raw, hraw, rfl⟩ := exists_list_of_store h
  obtain ⟨there, es, hlocate, dir, _, rfl⟩ := Disk.list_eq_ok_iff.mp hraw
  have hnode := (Disk.has_of_locate hlocate).undotted real.undotted
  rw [dir] at hnode
  cases hnode with
  | directory undotted _ => exact undotted (mem_listing.mp hn)

/-! ## Refusals -/

end Records

/-- The failure that is reported of a path through too many links. -/
def AccessError.overlinked (full : Path) : AccessError :=
  .io (full.text ++ ": " ++ "Too many levels of symbolic links (os error 40)")

theorem AccessError.ofSystem_tooManyLinks (full : Path) :
    ofSystem full .tooManyLinks = overlinked full := by
  have htext : SystemError.tooManyLinks =
      ⟨.other, "Too many levels of symbolic links (os error 40)"⟩ := by decide
  rw [htext]
  rfl

/-- **A path through too many links**: its full path is refused for them. -/
structure Records.Overlinked (r : Records) (q full : Path) : Prop where
  resolved : resolve r.root q = .ok full
  refused : r.disk.locate full = .error .tooManyLinks

namespace Records.Overlinked

variable {r : Records} {q full : Path}

/-- Whatever is asked about such a path, the answer is this failure. -/
theorem reach_eq {α : Type} (h : r.Overlinked q full) {ask : Path → Except SystemError α}
    (asks : ask full = .error .tooManyLinks) :
    r.reach q ask = .error ⟨.overlinked full, r.disk.late full⟩ := by
  rw [reach_of_resolve h.resolved, asks, ← AccessError.ofSystem_tooManyLinks]
  rfl

theorem stat_eq (h : r.Overlinked q full) :
    r.store (.stat q) = .error ⟨.overlinked full, r.disk.late full⟩ := by
  have hstat : r.disk.stat full = .error .tooManyLinks := by rw [Disk.stat, h.refused]; rfl
  rw [store, h.reach_eq hstat]

theorem failure_stat (h : r.Overlinked q full) :
    Call.failure? (.stat q) (r.store (.stat q)) = some (.stat q (.overlinked full)) := by
  rw [h.stat_eq]
  rfl

theorem list_eq (h : r.Overlinked q full) :
    r.store (.list q) = .error ⟨.overlinked full, r.disk.late full⟩ := by
  have hlist : r.disk.list full = .error .tooManyLinks := by rw [Disk.list, h.refused]; rfl
  rw [store, h.reach_eq hlist]
  rfl

theorem failure_list (h : r.Overlinked q full) :
    Call.failure? (.list q) (r.store (.list q)) = some (.list q (.overlinked full)) := by
  rw [h.list_eq]
  rfl

/-- **Where a walk runs into too many links**, it stats a path, or it lists the root. What it
lists or reads elsewhere it has statted before. -/
theorem exists_failure {p : Pattern} {o : WalkOptions} {v : Walker} {es : List WalkEvent}
    {log : List Call} {c : Call} (h : r.Overlinked c.path full) (real : r.disk.Real)
    (reached : Walker.Reaches r.store (.start p o) es log v) (hc : c ∈ log) :
    ∃ e, c.failure? (r.store c) = some e ∧
      ((∃ q, c = .stat q ∧ e = .stat q (.overlinked full)) ∨
        c = .list .root ∧ e = .list .root (.overlinked full)) := by
  obtain ⟨before, after, hlog⟩ := List.append_of_mem hc
  have hfounded : Founded r.store log :=
    Walker.founded_of_reaches (listsPlain_store real.proper) (listsDistinct_store real.proper)
      reached (Walker.sound_start p o) (Walker.known_start _ p o) .nil
  have hjustified := hfounded.justified hlog
  have hunstatted : ∀ m, r.store (.stat c.path) ≠ .ok m := fun m hstat => by
    rw [h.stat_eq] at hstat
    cases hstat
  cases c with
  | stat q => exact ⟨_, h.failure_stat, .inl ⟨q, rfl, rfl⟩⟩
  | read q =>
    obtain ⟨_, m, hstat, _⟩ := hjustified
    exact absurd hstat (hunstatted m)
  | list q =>
    rcases hjustified with rfl | ⟨_, m, hstat, _⟩
    · exact ⟨_, h.failure_list, .inr ⟨rfl, rfl⟩⟩
    · exact absurd hstat (hunstatted m)

end Records.Overlinked

/-! ## Two links in a directory -/

/-- A link to the directory that holds it, and one to itself. -/
def Disk.loops : DiskEntries :=
  [(.text "again", .link ⟨"."⟩), (.text "self", .link ⟨"self"⟩)]

/-- A disk with these links in a directory. -/
def Disk.looped : Disk where
  entries := [(.text "srv", .directory loops)]

namespace Disk

/-- It is real. -/
theorem real_looped : looped.Real := by
  have hplain : ∀ n ∈ ["srv", "again", "self"], PlainName n := by decide
  constructor
  · refine .directory (by decide) (by simp [looped, hplain]) (List.forall_mem_singleton.mpr ?_)
    refine .directory (by decide) (by simp [loops, hplain]) ?_
    exact List.forall_mem_cons.mpr ⟨.link _, List.forall_mem_singleton.mpr (.link _)⟩
  · refine .directory (by decide) (List.forall_mem_singleton.mpr (.directory (by decide) ?_))
    exact List.forall_mem_cons.mpr ⟨.link _, List.forall_mem_singleton.mpr (.link _)⟩

/-- The directory is found, also by its first link. -/
theorem locate_looped :
    looped.locate ⟨"/srv/"⟩ = .ok (looped.top.down (.text "srv") (.directory loops)) ∧
      looped.locate ⟨"/srv/again"⟩ = .ok (looped.top.down (.text "srv") (.directory loops)) := by
  have hpieces : (Path.mk "/srv/").pieces = ["", "srv", ""] ∧
      (Path.mk "/srv/again").pieces = ["", "srv", "again"] ∧
      (Path.mk ".").pieces = ["."] := by decide
  have hsizes : "/srv/".utf8ByteSize = 5 ∧ "/srv/again".utf8ByteSize = 10 ∧
      "srv".utf8ByteSize = 3 ∧ "again".utf8ByteSize = 5 := by decide
  constructor <;>
    simp [locate, hpieces, follow, hsizes, top, looped, loops, Place.down, barrier?, refusal?,
      Path.isIdle, Path.isAbsolute, maxLinks, maxName, maxPath]

/-- The other link is refused, whatever comes after it. -/
theorem refused_looped :
    looped.locate ⟨"/srv/self"⟩ = .error .tooManyLinks ∧
      looped.locate ⟨"/srv/self/"⟩ = .error .tooManyLinks := by
  have hpieces : (Path.mk "/srv/self").pieces = ["", "srv", "self"] ∧
      (Path.mk "/srv/self/").pieces = ["", "srv", "self", ""] := by decide
  have hsizes : "/srv/self".utf8ByteSize = 9 ∧ "/srv/self/".utf8ByteSize = 10 := by decide
  have hself : ∀ rest, looped.follow maxLinks looped.top ("" :: "srv" :: "self" :: rest)
      = .error .tooManyLinks := fun rest => by
    rw [(Onward.stay rfl rfl rfl).follow_eq, List.nil_append,
      (Onward.down rfl rfl rfl (by decide) (by decide) rfl (by simp)).follow_eq]
    exact follow_of_link_to_itself rfl rfl rfl (by decide) (by decide) (by decide) rfl rest
  constructor <;> simp [locate, hpieces, hself, hsizes, maxPath]

end Disk

/-! ## Walks -/

namespace Walker

/-- **Walks end on every real disk**, wherever its links lead. Below a root, no path leads to
anything by more names than the disk lets a path have. So a walk ends within a number of
steps that is known from the disk, whatever its pattern and options. And if a path of the
walk goes through too many links, the walk ends there, as failed, and nothing is left on the
stack.

Where answers are not waited for, what comes after the matches is the failure to stat that
path, or to list the root, if the path is the root's; and the call that was refused is the
last one. Otherwise the last calls are those that were made together with it, and the failure
is that of the one among them which is refused first. -/
theorem halts_on_disk (r : Records) (real : r.disk.Real) (p : Pattern) (o : WalkOptions) :
    (∀ q m, r.store (.stat q) = .ok m → q.components.length ≤ r.disk.farthest) ∧
      (∀ more, visitBound r.disk.width r.disk.farthest + 1 ≤ more →
        (((start p o).steps more).run r.store).1.1.halted = true) ∧
      ∀ {es log v}, Reaches r.store (start p o) es log v → ∀ c ∈ log, ∀ full,
        r.Overlinked c.path full → v.halted = true ∧ v.stack = [] ∧
          (r.disk.waits = [] → ∃ (files : List Match) (before : List Call) (e : WalkError),
            es = files.map .found ++ [.failed e] ∧ log = before ++ [c] ∧
            ((∃ q, c = .stat q ∧ e = .stat q (.overlinked full)) ∨
              c = .list .root ∧ e = .list .root (.overlinked full))) ∧
          ∃ (files : List Match) (before together : List Call) (c' : Call) (e : WalkError),
            es = files.map .found ++ [.failed e] ∧ log = before ++ together ∧ c ∈ together ∧
            CutAt r.store r.store.Fails log before together c' e ∧
            (c' = c → (∃ q, c = .stat q ∧ e = .stat q (.overlinked full)) ∨
              c = .list .root ∧ e = .list .root (.overlinked full)) := by
  have hnear : ∀ q m, r.store (.stat q) = .ok m → q.components.length ≤ r.disk.farthest :=
    fun q m hstat => Records.length_components_le_of_stat hstat
  have hdeep : r.store.NestsWithin r.disk.farthest .root :=
    Store.nestsWithin_of_components_le (fun dir names => Records.moving_of_list real) hnear
  refine ⟨hnear, fun more hmore => ?_, fun {es log v} reached c hc full overlinked => ?_⟩
  · have hroot : r.store.NestsWithin r.disk.farthest
        (Frame.enter .root false p.first p.rest).directory := by
      rwa [Frame.directory_enter]
    have hlasts := Frame.lasts_visitBound (p := p) (o := o) (Frame.cursor_enter _ _ _ _)
      (fun dir names => Records.length_le_of_list) hroot
    exact (endsWithin_start hlasts).mono hmore
  · obtain ⟨e, hfails, hwhich⟩ := overlinked.exists_failure real reached hc
    obtain ⟨hended, hempty, files, before, together, c', e', hes, hlog, hmem, hcut⟩ :=
      reached.cut_of_fails hc ⟨e, hfails⟩
    refine ⟨hended, hempty, fun prompt => ?_, files, before, together, c', e', hes, hlog, hmem, hcut,
      ?_⟩
    · obtain ⟨files, before, hes, hlog⟩ :=
        reached.ended_of_failure (r.refusesAtOnce_store prompt) hc hfails
      exact ⟨files, before, e, hes, hlog, hwhich⟩
    · rintro rfl
      obtain rfl := Option.some.inj (hcut.failure.symm.trans hfails)
      exact hwhich

/-- A walk of a directory with a link to itself and one that is refused: it stats the first
one, and fails at the other one. -/
theorem halts_on_disk_looped :
    let r : Records := ⟨Disk.looped, ⟨"/srv"⟩⟩
    let w := start ⟨.globstar, [.wildcard "*.json"]⟩ {}
    r.disk.Real ∧ r.Overlinked ⟨"self"⟩ ⟨"/srv/self"⟩ ∧
      (∀ more, visitBound 2 122 + 1 ≤ more → ((w.steps more).run r.store).1.1.halted = true) ∧
      ∃ v, v.halted = true ∧ Reaches r.store w
        [.failed (.stat ⟨"self"⟩ (.io "/srv/self: Too many levels of symbolic links (os error 40)"))]
        [.list .root, .stat ⟨"again"⟩, .stat ⟨"self"⟩] v := by
  intro r w
  have hover : r.Overlinked ⟨"self"⟩ ⟨"/srv/self"⟩ := ⟨by decide, Disk.refused_looped.1⟩
  have hlist : r.store (.list .root) = .ok ["again", "self"] := by
    have hlisting : Records.listing [.text "again", .text "self"] = ["again", "self"] :=
      List.mergeSort_of_pairwise (by decide)
    have hraw := Records.list_of_locate (r := r) (p := .root) (by decide) Disk.locate_looped.1 rfl
      rfl
    exact hraw.trans (congrArg Except.ok hlisting)
  have hstat : r.store (.stat (Path.root.entry "again")) = .ok ⟨true, false, 0, none⟩ :=
    Records.stat_directory_of_locate (by decide) Disk.locate_looped.2 rfl
  have hstats : (statAll .root ["again", "self"]).run r.store
      = (.error (.stat ⟨"self"⟩ (.overlinked ⟨"/srv/self"⟩)),
        [.stat ⟨"again"⟩, .stat ⟨"self"⟩]) := by
    have hagain : Path.root.entry "again" = ⟨"again"⟩ := by decide
    have hself : Path.root.entry "self" = ⟨"self"⟩ := by decide
    have hrefused : r.store (.stat (Path.root.entry "self"))
        = .error ⟨.overlinked ⟨"/srv/self"⟩, 0⟩ := hself ▸ hover.stat_eq
    rw [run_statAll, run_statEach_of_ok hstat, run_statEach_of_atOnce hrefused rfl, hagain, hself]
    rfl
  have hload : ((Frame.enter .root false .globstar [.wildcard "*.json"]).load {}).run r.store
      = (.error (.stat ⟨"self"⟩ (.overlinked ⟨"/srv/self"⟩)),
        [.list .root, .stat ⟨"again"⟩, .stat ⟨"self"⟩]) := by
    have hkept : ["again", "self"].filter
        ((Frame.enter .root false .globstar [.wildcard "*.json"]).keeps {})
          = ["again", "self"] := by decide
    rw [Frame.run_load_of_listed hlist, hkept, Frame.directory_enter, hstats]
    rfl
  have hreached : Reaches r.store w _ _ _ := .of_step (Step.loadFailed rfl hload)
  obtain ⟨_, hhalts, hrefused⟩ :=
    halts_on_disk r Disk.real_looped ⟨.globstar, [.wildcard "*.json"]⟩ {}
  obtain ⟨hended, _⟩ := hrefused hreached (.stat ⟨"self"⟩) (by simp) _ hover
  exact ⟨Disk.real_looped, hover, hhalts, _, hended, hreached⟩

/-- **At a root that is such a link, nothing is statted**: it is listing the root that fails. -/
theorem not_statted_at_overlinked_root :
    let r : Records := ⟨Disk.looped, ⟨"/srv/self"⟩⟩
    let e : WalkError :=
      .list .root (.io "/srv/self/: Too many levels of symbolic links (os error 40)")
    r.disk.Real ∧ r.Overlinked .root ⟨"/srv/self/"⟩ ∧
      (∃ v, v.halted = true ∧
        Reaches r.store (start ⟨.globstar, [.any]⟩ {}) [.failed e] [.list .root] v) ∧
      ∀ q cause, e ≠ .stat q cause := by
  intro r e
  have hover : r.Overlinked .root ⟨"/srv/self/"⟩ := ⟨by decide, Disk.refused_looped.2⟩
  have hload : ((Frame.enter .root false .globstar [.any]).load {}).run r.store
      = (.error e, [.list .root]) := by
    have hroot : (Frame.enter .root false .globstar [.any]).directory = .root := rfl
    rw [Frame.run_load_of_refused (hroot ▸ hover.list_eq)]
    rfl
  exact ⟨Disk.real_looped, hover, ⟨_, rfl, .of_step (Step.loadFailed rfl hload)⟩,
    fun q cause => WalkError.noConfusion⟩

end Walker

end TreeQuery
