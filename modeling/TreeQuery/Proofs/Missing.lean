import TreeQuery.Command.Run
import TreeQuery.Proofs.Cycles

/-!
# Keys that lead to nothing

A key can lead to nothing in two ways, even if no link leads in circles and no name is too
long. A directory on the way has no entry of the next name, be it one of the key or one of a
link's target; or a piece is due where there is no directory, since a file is in the way. In
both cases there is no record, but the system has a failure of its own for each, and only the
first is one of the kind that a lookup takes for "not found"
(`Hindrance.kind_failure_eq_notFound_iff`). So a missing key is reported as such unless
something bars the way to it, and a key that asks for something below a file is not. Where a
directory may not be searched nothing is known about the key, and that is reported as
something else again.

That a path leads somewhere is said by `Disk.Leads`. Its counterpart is `Disk.Stops`, with one
case for each thing that can stop a way; a path does the one or the other, as it is followed
to a place or to a failure (`Disk.follow_eq_error_iff`). What a way leads to can then be told
from what it does not: it ends at no link, as the last one is followed too (`Disk.Leads.solid`),
and so the only failures to read what is there are that it is a directory and that it may not
be read.
-/

namespace TreeQuery

/-! ## Ways that stop -/

/-- **Why a way stops.** -/
inductive Hindrance
  /-- The directory has no entry of the next name. -/
  | missing
  /-- There is no directory for the next piece. -/
  | barred
  /-- The next name is longer than that of any entry. -/
  | overlong
  /-- The next entry is a link, and none may be followed any more. -/
  | overlinked
  /-- The directory may not be searched. -/
  | refused (fault : DiskFault)
  deriving DecidableEq, Repr

/-- The failure that the system reports. -/
def Hindrance.failure : Hindrance → SystemError
  | missing => .noEntry
  | barred => .notDirectory
  | overlong => .nameTooLong
  | overlinked => .tooManyLinks
  | refused fault => fault.error

/-- Only what is missing is reported as such. -/
theorem Hindrance.kind_failure_eq_notFound_iff (why : Hindrance) :
    why.failure.kind = .notFound ↔ why = .missing := by
  cases why with
  | refused fault => simpa [failure] using fault.kind_error_ne_notFound
  | missing | barred | overlong | overlinked => decide

namespace Disk

/-- **A way that stops** along pieces, from a place with so many links that may be followed:
it stops at the first piece, or that one leads on and the way stops later. -/
inductive Stops (d : Disk) : (links : Nat) → (here : Place) → (pieces : List String) →
    (why : Hindrance) → Prop
  | refused {links : Nat} {here : Place} {es : DiskEntries} {piece : String} {rest : List String}
      {fault : DiskFault} (dir : here.node = .directory es)
      (barrier : d.barrier? here piece = some fault) :
      Stops d links here (piece :: rest) (.refused fault)
  | missing {links : Nat} {here : Place} {es : DiskEntries} {name : String} {rest : List String}
      (dir : here.node = .directory es) (free : d.barrier? here name = none)
      (moves : Path.isIdle name = false) (names : name ≠ "..") (short : name.utf8ByteSize ≤ maxName)
      (absent : es.lookup (.text name) = none) :
      Stops d links here (name :: rest) .missing
  | barred {links : Nat} {here : Place} {piece : String} {rest : List String}
      (noDir : ∀ es, here.node ≠ .directory es) : Stops d links here (piece :: rest) .barred
  | overlong {links : Nat} {here : Place} {es : DiskEntries} {name : String} {rest : List String}
      (dir : here.node = .directory es) (free : d.barrier? here name = none)
      (moves : Path.isIdle name = false) (names : name ≠ "..") (long : maxName < name.utf8ByteSize) : Stops d links here (name :: rest) .overlong
  | overlinked {here : Place} {es : DiskEntries} {name : String} {target : Path}
      {rest : List String} (dir : here.node = .directory es) (free : d.barrier? here name = none)
      (moves : Path.isIdle name = false) (names : name ≠ "..") (short : name.utf8ByteSize ≤ maxName)
      (entry : es.lookup (.text name) = some (.link target)) :
      Stops d 0 here (name :: rest) .overlinked
  | onward {links mid : Nat} {here next : Place} {piece : String} {ahead rest : List String}
      {why : Hindrance} (first : Onward d links here piece mid next ahead)
      (later : Stops d mid next (ahead ++ rest) why) : Stops d links here (piece :: rest) why

/-- **A path that leads somewhere.** -/
def Finds (d : Disk) (p : Path) : Prop :=
  ∃ left there, d.Leads maxLinks d.top p.pieces left there

/-- **A path that leads to a directory.** Whether this can be listed is left open. -/
def HasDirectory (d : Disk) (p : Path) : Prop :=
  ∃ there es, d.locate p = .ok there ∧ there.node = .directory es

/-- **A path that leads to nothing**, for this reason. -/
def Misses (d : Disk) (p : Path) (why : Hindrance) : Prop :=
  d.Stops maxLinks d.top p.pieces why

variable {d : Disk} {links left : Nat} {here there : Place} {pieces : List String} {p : Path}
  {why : Hindrance}

/-- **Following pieces fails where their way stops**, with the failure for what stops it. -/
theorem follow_eq_error_iff {e : SystemError} :
    d.follow links here pieces = .error e ↔
      ∃ why, d.Stops links here pieces why ∧ e = why.failure := by
  constructor
  · intro h
    fun_induction Disk.follow d links here pieces with
    | case1 => cases h
    | case2 links here piece rest data modified hnode =>
      cases h
      exact ⟨.barred, .barred fun es => by simp [hnode], rfl⟩
    | case3 links here piece rest target hnode =>
      cases h
      exact ⟨.barred, .barred fun es => by simp [hnode], rfl⟩
    | case4 links here piece rest es dir fault barrier =>
      cases h
      exact ⟨.refused fault, .refused dir barrier, rfl⟩
    | case5 links here piece rest es dir free idle ih =>
      exact (ih h).imp fun why stops => ⟨.onward (.stay dir free idle) stops.1, stops.2⟩
    | case6 links here rest es dir free _ ih =>
      exact (ih h).imp fun why stops => ⟨.onward (.up dir free) stops.1, stops.2⟩
    | case7 links here piece rest es dir free moves names long =>
      cases h
      exact ⟨.overlong, .overlong dir free (Bool.eq_false_iff.mpr moves) names long, rfl⟩
    | case8 links here piece rest es dir free moves names short absent =>
      cases h
      exact ⟨.missing,
        .missing dir free (Bool.eq_false_iff.mpr moves) names (Nat.not_lt.mp short) absent, rfl⟩
    | case9 here piece rest es dir free moves names short target entry =>
      cases h
      exact ⟨.overlinked,
        .overlinked dir free (Bool.eq_false_iff.mpr moves) names (Nat.not_lt.mp short) entry, rfl⟩
    | case10 here piece rest es dir free moves names short target entry links ih =>
      have first : Onward d (links + 1) here piece links _ _ :=
        .through dir free (Bool.eq_false_iff.mpr moves) names (Nat.not_lt.mp short) entry
      exact (ih h).imp fun why stops => ⟨.onward first stops.1, stops.2⟩
    | case11 links here piece rest es dir free moves names short n solid entry ih =>
      have first : Onward d links here piece links _ _ :=
        .down dir free (Bool.eq_false_iff.mpr moves) names (Nat.not_lt.mp short) entry solid
      exact (ih h).imp fun why stops => ⟨.onward first stops.1, stops.2⟩
  · rintro ⟨why, h, rfl⟩
    induction h with
    | refused dir barrier => simp [follow, dir, barrier, Hindrance.failure]
    | missing dir free moves names short absent =>
      simp [follow, dir, free, moves, names, Nat.not_lt.mpr short, absent, Hindrance.failure]
    | @barred _ here _ _ noDir =>
      cases hnode : here.node with
      | directory es => exact absurd hnode (noDir es)
      | file | link => simp [follow, hnode, Hindrance.failure]
    | overlong dir free moves names long =>
      simp [follow, dir, free, moves, names, long, Hindrance.failure]
    | overlinked dir free moves names short entry =>
      simp [follow, dir, free, moves, names, Nat.not_lt.mpr short, entry, Hindrance.failure]
    | onward first _ ih => rw [first.follow_eq, ih]

/-- **A path leads somewhere, or something stops it.** -/
theorem finds_or_misses (d : Disk) (p : Path) : d.Finds p ∨ ∃ why, d.Misses p why := by
  cases h : d.follow maxLinks d.top p.pieces with
  | ok there =>
    obtain ⟨left, hleads⟩ := follow_eq_ok_iff.mp h
    exact .inl ⟨left, there, hleads⟩
  | error e =>
    obtain ⟨why, hstops, _⟩ := follow_eq_error_iff.mp h
    exact .inr ⟨why, hstops⟩

/-- Not both. -/
theorem Misses.not_finds (h : d.Misses p why) : ¬ d.Finds p := by
  rintro ⟨left, there, hleads⟩
  have hfound := follow_eq_ok_iff.mpr ⟨left, hleads⟩
  rw [follow_eq_error_iff.mpr ⟨why, h, rfl⟩] at hfound
  cases hfound

end Disk

/-! ## What is there -/

/-- A place that is no link and that no link is above. -/
structure Place.Solid (p : Place) : Prop where
  node : p.node.isLink = false
  way : ∀ e ∈ p.way, e.2.isLink = false

namespace Disk

variable {d : Disk} {links left : Nat} {here there : Place} {pieces : List String} {p : Path}
  {why : Hindrance}

theorem solid_top (d : Disk) : d.top.Solid :=
  ⟨rfl, List.forall_mem_nil _⟩

/-- **Ways end at no link**: the last one is followed too. -/
theorem Leads.solid (hhere : here.Solid) (h : d.Leads links here pieces left there) :
    there.Solid := by
  induction h with
  | arrived => exact hhere
  | @onward _ _ _ here _ _ _ _ _ first _ ih =>
    refine ih ?_
    cases first with
    | stay => exact hhere
    | up =>
      obtain ⟨node, _ | ⟨above, way⟩⟩ := here
      · exact hhere
      · exact ⟨hhere.way above List.mem_cons_self,
          fun e he => hhere.way e (List.mem_cons_of_mem above he)⟩
    | @down _ _ _ _ n _ _ _ _ _ _ solid =>
      refine ⟨?_, List.forall_mem_cons.mpr ⟨hhere.node, hhere.way⟩⟩
      cases n with
      | directory | file => rfl
      | link target => exact absurd rfl (solid target)
    | through =>
      split
      · exact d.solid_top
      · exact hhere

/-- What a path leads to can be read, or it is a directory, or it may not be read. -/
theorem read_of_finds (askable : Askable p) (h : d.Finds p) :
    d.read p = .error .isDirectory ∨ (∃ fault : DiskFault, d.read p = .error fault.error) ∨
      ∃ data, d.read p = .ok data := by
  obtain ⟨left, there, hleads⟩ := h
  have hlocate : d.locate p = .ok there := locate_eq_ok_iff.mpr ⟨askable, left, hleads⟩
  have hsolid := (hleads.solid d.solid_top).node
  cases hrefusal : d.refusal? .read there.location with
  | some fault => exact .inr (.inl ⟨fault, read_of_refused hlocate hrefusal⟩)
  | none =>
    cases hnode : there.node with
    | directory es =>
      exact .inl (by simp [read, hlocate, bind, Except.bind, hrefusal, hnode])
    | file data modified =>
      exact .inr (.inr ⟨data, read_eq_ok_iff.mpr ⟨there, modified, hlocate, hrefusal, hnode⟩⟩)
    | link target => rw [hnode] at hsolid; cases hsolid

/-- Where a path leads to nothing, nothing is read. -/
theorem read_of_misses (askable : Askable p) (h : d.Misses p why) :
    d.read p = .error why.failure := by
  have hlocate : d.locate p = .error why.failure := by
    rw [locate, if_neg (by simpa using askable.noNul), if_neg askable.nonempty,
      if_neg (Nat.not_lt.mpr askable.short)]
    exact follow_eq_error_iff.mpr ⟨why, h, rfl⟩
  rw [read, hlocate]
  rfl

end Disk

/-! ## Lookups -/

/-- The failure that is reported of a path with a file in its way. -/
theorem AccessError.ofSystem_notDirectory (full : Path) :
    ofSystem full .notDirectory = .io (full.text ++ ": Not a directory (os error 20)") := by
  have htext : SystemError.notDirectory = ⟨.other, "Not a directory (os error 20)"⟩ := by decide
  rw [htext]
  exact congrArg io String.append_assoc

/-- A failure of the system is one of what is missing if its kind says so. -/
theorem LookupError.isNotFound_ofSystem (full : Path) (e : SystemError) :
    (read full (.ofSystem full e)).isNotFound = true ↔ e.kind = .notFound := by
  unfold AccessError.ofSystem
  cases e.kind <;> simp [isNotFound]

/-- A lookup that finds no record prints its key. -/
theorem GetRequest.run_of_isNotFound {g : GetRequest} {d : Disk} {e : LookupError}
    (failed : Records.get ⟨d, g.root⟩ g.key = .error e) (missing : e.isNotFound = true) :
    g.run d = ⟨1, "", [.text ("not found: " ++ g.key ++ "\n")]⟩ := by
  unfold run
  simp only [failed]
  rw [if_pos missing]
  rfl

namespace Records

variable {r : Records} {key : String} {full : Path} {why : Hindrance}

/-- Below a root that is a directory, keys without NUL can be asked about. -/
theorem askable_key (root : r.disk.HasDirectory r.root) (noNul : '\x00' ∉ key.toList)
    (short : (r.root.join (Path.mk key).fromTop).text.utf8ByteSize ≤ Disk.maxPath) :
    Disk.Askable (r.root.join (Path.mk key).fromTop) := by
  obtain ⟨there, es, hlocate, -⟩ := root
  obtain ⟨hroot, -⟩ := Disk.locate_eq_ok_iff.mp hlocate
  refine ⟨?_, ?_, short⟩ <;> rw [Path.join_of_relative (Path.isAbsolute_fromTop _)]
  · simp only [String.toList_append, List.mem_append, not_or]
    refine ⟨⟨hroot.noNul, by split <;> decide⟩, fun h => noNul ?_⟩
    exact Path.mem_of_mem_fromTop (by decide) h
  · rw [Ne, String.append_eq_empty_iff, String.append_eq_empty_iff]
    exact fun h => hroot.nonempty h.1.1

/-- A key that does not go up is resolved as it is from the top. -/
theorem resolve_key (root : Path) (stays : ".." ∉ (Path.mk key).pieces) :
    resolve root (Path.mk key).fromTop = .ok (root.join (Path.mk key).fromTop) := by
  have hstays : ".." ∉ (Path.mk key).fromTop.pieces := by
    rwa [← Path.mem_components (by decide), Path.components_fromTop,
      Path.mem_components (by decide)]
  rw [resolve_of_stays hstays, Path.fromTop_fromTop]

/-- Loading a record fails with what stops the way to it. -/
theorem get_of_misses (resolved : resolve r.root (Path.mk key).fromTop = .ok full)
    (askable : Disk.Askable full) (h : r.disk.Misses full why) :
    r.get key = .error (.read full (.ofSystem full why.failure)) := by
  rw [get_of_resolve resolved, Disk.read_of_misses askable h]

/-- What is there is not reported as missing, be it a directory, refused or no JSON. -/
theorem isNotFound_of_finds (resolved : resolve r.root (Path.mk key).fromTop = .ok full)
    (askable : Disk.Askable full) (h : r.disk.Finds full) {e : LookupError}
    (failed : r.get key = .error e) : e.isNotFound = false := by
  rw [get_of_resolve resolved] at failed
  rcases Disk.read_of_finds askable h with hdir | ⟨fault, hfault⟩ | ⟨data, hdata⟩
  · rw [hdir] at failed
    cases failed
    rfl
  · rw [hfault] at failed
    cases failed
    rw [Bool.eq_false_iff, Ne, LookupError.isNotFound_ofSystem]
    exact fault.kind_error_ne_notFound
  · rw [hdata] at failed
    cases hparse : Json.parse data with
    | ok v =>
      simp only [hparse] at failed
      cases failed
    | error cause =>
      simp only [hparse] at failed
      cases failed
      rfl

/-- **What is missing is not found, and nothing else.** Take a root that is a directory, and a
key without NUL that does not go up and whose full path is not too long for the system. The
path leads somewhere, or something stops it. Loading the record fails with a failure that says
"not found" exactly if a directory on the way has no entry of the next name, whether it is a
name of the key or of a link's target; then `get` prints that, with the key. If a file bars
the way, so that there is nothing at the key either, the failure is another one. -/
theorem not_found_iff_missing (root : r.disk.HasDirectory r.root)
    (noNul : '\x00' ∉ key.toList) (stays : ".." ∉ (Path.mk key).pieces)
    (short : (r.root.join (Path.mk key).fromTop).text.utf8ByteSize ≤ Disk.maxPath) :
    let full := r.root.join (Path.mk key).fromTop
    (r.disk.Finds full ∨ ∃ why, r.disk.Misses full why) ∧
      (∀ why, r.disk.Misses full why → ¬ r.disk.Finds full) ∧
      ((∃ e, r.get key = .error e ∧ e.isNotFound = true) ↔ r.disk.Misses full .missing) ∧
      (r.disk.Misses full .missing → ∀ usual words,
        Request.ofWords words = .ok (.get ⟨r.root, key⟩) →
          runCommand r.disk usual words
            = .ok ⟨1, "", [.text ("not found: " ++ key ++ "\n")]⟩) ∧
      (r.disk.Misses full .barred → r.get key
        = .error (.read full (.io (full.text ++ ": Not a directory (os error 20)")))) := by
  intro full
  have askable : Disk.Askable full := askable_key root noNul short
  have resolved : resolve r.root (Path.mk key).fromTop = .ok full := resolve_key r.root stays
  have hmissing (h : r.disk.Misses full .missing) :
      ∃ e, r.get key = .error e ∧ e.isNotFound = true :=
    ⟨_, get_of_misses resolved askable h, (LookupError.isNotFound_ofSystem full _).mpr rfl⟩
  refine ⟨r.disk.finds_or_misses full, fun why h => h.not_finds, ⟨?_, hmissing⟩,
    fun h usual words valid => ?_, fun h => ?_⟩
  · rintro ⟨e, hget, hnotFound⟩
    rcases r.disk.finds_or_misses full with hfinds | ⟨why, h⟩
    · rw [isNotFound_of_finds resolved askable hfinds hget] at hnotFound
      cases hnotFound
    · rw [get_of_misses resolved askable h] at hget
      cases hget
      rw [LookupError.isNotFound_ofSystem, why.kind_failure_eq_notFound_iff] at hnotFound
      rwa [← hnotFound]
  · obtain ⟨e, hget, hnotFound⟩ := hmissing h
    have hrun := GetRequest.run_of_isNotFound (g := ⟨r.root, key⟩) hget hnotFound
    rw [runCommand, valid]
    show Except.ok (GetRequest.run ⟨r.root, key⟩ r.disk) = _
    rw [hrun]
  · rw [get_of_misses resolved askable h, ← AccessError.ofSystem_notDirectory]
    rfl

end Records

/-! ## A link to nothing, and a file in the way -/

/-- The entries of a directory with a file and a link to nothing. -/
def Disk.loose : DiskEntries :=
  [(.text "amy.json", .file [110, 117, 108, 108] 0), (.text "gone", .link ⟨"nowhere/bob.json"⟩)]

/-- A disk with this directory. -/
def Disk.dangling : Disk where
  entries := [(.text "srv", .directory loose)]

namespace Disk

/-- It is real. -/
theorem real_dangling : dangling.Real := by
  have hplain : ∀ n ∈ ["srv", "amy.json", "gone"], PlainName n := by decide
  constructor
  · refine .directory (by decide) (by simp [dangling, hplain]) (List.forall_mem_singleton.mpr ?_)
    refine .directory (by decide) (by simp [loose, hplain]) ?_
    exact List.forall_mem_cons.mpr ⟨.file _ _, List.forall_mem_singleton.mpr (.link _)⟩
  · refine .directory (by decide) (List.forall_mem_singleton.mpr (.directory (by decide) ?_))
    exact List.forall_mem_cons.mpr ⟨.file _ _, List.forall_mem_singleton.mpr (.link _)⟩

/-- A way into the directory goes on there. -/
theorem stops_dangling {piece : String} {rest : List String} {why : Hindrance}
    (h : dangling.Stops maxLinks (dangling.top.down (.text "srv") (.directory loose))
      (piece :: rest) why) :
    dangling.Stops maxLinks dangling.top ("" :: "srv" :: piece :: rest) why :=
  .onward (.stay rfl rfl rfl)
    (.onward (.down rfl rfl rfl (by decide) (by decide) rfl (by simp)) h)

/-- The link leads to a name that is missing. -/
theorem misses_dangling : dangling.Misses ⟨"/srv/gone"⟩ .missing := by
  have hpieces : (Path.mk "/srv/gone").pieces = ["", "srv", "gone"] := by decide
  have htarget : (Path.mk "nowhere/bob.json").pieces = ["nowhere", "bob.json"] := by decide
  rw [Misses, hpieces]
  refine stops_dangling (.onward (.through rfl rfl rfl (by decide) (by decide) rfl) ?_)
  rw [htarget]
  exact .missing rfl rfl rfl (by decide) (by decide) rfl

/-- The file bars the way to what is below it. -/
theorem barred_dangling : dangling.Misses ⟨"/srv/amy.json/x"⟩ .barred := by
  have hpieces : (Path.mk "/srv/amy.json/x").pieces = ["", "srv", "amy.json", "x"] := by decide
  rw [Misses, hpieces]
  refine stops_dangling (.onward (.down rfl rfl rfl (by decide) (by decide) rfl (by simp)) ?_)
  exact .barred fun es => by simp [Place.down]

/-- The directory is found. -/
theorem hasDirectory_dangling : dangling.HasDirectory ⟨"/srv"⟩ := by
  have hpieces : (Path.mk "/srv").pieces = ["", "srv"] := by decide
  have hsrv : dangling.Leads maxLinks dangling.top ["", "srv"] maxLinks
      (dangling.top.down (.text "srv") (.directory loose)) :=
    .onward (.stay rfl rfl rfl)
      (.onward (.down rfl rfl rfl (by decide) (by decide) rfl (by simp)) .arrived)
  have askable : Askable ⟨"/srv"⟩ := ⟨by decide, by decide, by decide⟩
  exact ⟨_, _, locate_eq_ok_iff.mpr ⟨askable, _, hpieces ▸ hsrv⟩, rfl⟩

end Disk

namespace Records

/-- A key that is a link to nothing. -/
theorem not_found_iff_missing_dangling :
    let r : Records := ⟨.dangling, ⟨"/srv"⟩⟩
    r.disk.HasDirectory r.root ∧ '\x00' ∉ "gone".toList ∧
      ".." ∉ (Path.mk "gone").pieces ∧
      (r.root.join (Path.mk "gone").fromTop).text.utf8ByteSize ≤ Disk.maxPath ∧
      (∃ e, r.get "gone" = .error e ∧ e.isNotFound = true) ∧
      runCommand r.disk ⟨"/etc/fsroot.toml"⟩ ["get", "--root", "/srv", "gone"]
        = .ok ⟨1, "", [.text "not found: gone\n"]⟩ := by
  intro r
  have root : r.disk.HasDirectory r.root := Disk.hasDirectory_dangling
  have noNul : '\x00' ∉ "gone".toList := by decide
  have stays : ".." ∉ (Path.mk "gone").pieces := by decide
  have short : (r.root.join (Path.mk "gone").fromTop).text.utf8ByteSize ≤ Disk.maxPath := by decide
  have hfull : r.root.join (Path.mk "gone").fromTop = ⟨"/srv/gone"⟩ := by decide
  have hvalid : Request.ofWords ["get", "--root", "/srv", "gone"] = .ok (.get ⟨r.root, "gone"⟩) := by
    decide +kernel
  obtain ⟨_, _, hnotFound, hprints, _⟩ := not_found_iff_missing root noNul stays short
  rw [hfull] at hnotFound hprints
  exact ⟨root, noNul, stays, short, hnotFound.mpr Disk.misses_dangling,
    hprints Disk.misses_dangling _ _ hvalid⟩

/-- **A key below a file is not reported as missing**, although there is nothing at it. -/
theorem barred_not_found_below_file :
    let r : Records := ⟨.dangling, ⟨"/srv"⟩⟩
    r.disk.Real ∧ r.disk.HasDirectory r.root ∧ '\x00' ∉ "amy.json/x".toList ∧
      ".." ∉ (Path.mk "amy.json/x").pieces ∧
      r.root.join (Path.mk "amy.json/x").fromTop = ⟨"/srv/amy.json/x"⟩ ∧
      r.disk.Misses ⟨"/srv/amy.json/x"⟩ .barred ∧ ¬ r.disk.Finds ⟨"/srv/amy.json/x"⟩ ∧
      (∃ e, r.get "amy.json/x" = .error e ∧ e.isNotFound = false) ∧
      runCommand r.disk ⟨"/etc/fsroot.toml"⟩ ["get", "--root", "/srv", "amy.json/x"]
        = .ok ⟨1, "", [.text ("Error: reading /srv/amy.json/x: " ++
            "io error: /srv/amy.json/x: Not a directory (os error 20)\n\nCaused by:\n" ++
            "    io error: /srv/amy.json/x: Not a directory (os error 20)\n")]⟩ := by
  intro r
  have hbarred := Disk.barred_dangling
  have askable : Disk.Askable ⟨"/srv/amy.json/x"⟩ := ⟨by decide, by decide, by decide⟩
  have resolved : resolve r.root (Path.mk "amy.json/x").fromTop = .ok ⟨"/srv/amy.json/x"⟩ := by
    decide
  have hget := get_of_misses (r := r) resolved askable hbarred
  have hvalid : Request.ofWords ["get", "--root", "/srv", "amy.json/x"]
      = .ok (.get ⟨r.root, "amy.json/x"⟩) := by decide +kernel
  refine ⟨Disk.real_dangling, Disk.hasDirectory_dangling, by decide, by decide, by decide, hbarred,
    hbarred.not_finds, ⟨_, hget, rfl⟩, ?_⟩
  rw [runCommand, hvalid]
  show Except.ok (GetRequest.run ⟨r.root, "amy.json/x"⟩ r.disk) = _
  unfold GetRequest.run
  simp only [show Records.get ⟨r.disk, r.root⟩ "amy.json/x" = _ from hget]
  decide +kernel

end Records

end TreeQuery
