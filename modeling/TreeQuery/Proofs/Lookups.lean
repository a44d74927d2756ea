import TreeQuery.Proofs.Contents
import TreeQuery.Proofs.Keys

/-!
# Walks and lookups

There are two ways to a record: a walk in content mode finds its file and reads it, and a
lookup takes its key and reads it. Both read the same path. A walk makes its paths from
plain names, so that they are relative, and taking such a path from the top leaves it as
it is; so the file that a walk looks at is the one that a lookup of its path loads
(`Records.run_matchOf_eq_get`). Whatever a walk finds or fails at can therefore be looked
up again (`Walker.found_is_loaded`).

The other direction needs a walk that gets to the file of a key. It is the walk for the
key itself, and the two agree for every key that has no star in it
(`Records.get_iff_walk`): one half is the way down to the file, and the other one is that
its events can be looked up.
-/

namespace TreeQuery

/-- The failure to load a record, as a walk gives it that has come to the record at
`path`. -/
def LookupError.inWalk (path : Path) : LookupError → WalkError
  | read _ cause => .read path cause
  | parse _ cause => .parse path cause

/-- The failure of a walk below `root`, as a lookup gives it, if it is one of a record. -/
def WalkError.inLookup? (root : Path) : WalkError → Option LookupError
  | list _ _ => none
  | stat _ _ => none
  | read path cause => some (.read (root.join path) cause)
  | parse path cause => some (.parse (root.join path) cause)

namespace Records

variable {r : Records} {o : WalkOptions} {path : Path}

/-! ## One record -/

/-- **Loading a record** at a relative path is reading it from the store. -/
theorem get_of_relative (relative : path.isAbsolute = false) :
    r.get path.text = match r.store (.read path) with
      | .error refusal => .error (.read (r.root.join path) refusal.cause)
      | .ok bytes => (Json.parse bytes).mapError (.parse (r.root.join path)) := by
  have htop : (Path.mk path.text).fromTop = path := Path.fromTop_of_relative relative
  unfold Records.get
  generalize (Path.mk path.text).fromTop = top at htop ⊢
  subst htop
  rfl

/-- What a lookup fails with comes back from the walk. -/
theorem inLookup?_inWalk (relative : path.isAbsolute = false) {e : LookupError}
    (h : r.get path.text = .error e) : (e.inWalk path).inLookup? r.root = some e := by
  rw [get_of_relative relative] at h
  cases hread : r.store (.read path) with
  | error cause =>
    simp only [hread] at h
    cases h
    rfl
  | ok bytes =>
    simp only [hread] at h
    cases hparse : Json.parse bytes with
    | error cause =>
      rw [hparse] at h
      cases h
      rfl
    | ok v =>
      rw [hparse] at h
      cases h

/-- **A walk looks at a record as a lookup does.** -/
theorem run_matchOf_eq_get (hmode : o.mode = .content) (relative : path.isAbsolute = false)
    {e : Entry} (json : isJsonName e.name = true) :
    (matchOf o path e).run r.store
      = (((r.get path.text).mapError (LookupError.inWalk path)).map
            fun v => some ⟨path, e.metadata, some v⟩,
          [.read path]) := by
  unfold matchOf
  rw [get_of_relative relative]
  simp only [hmode, json, if_true, Access.read, Access.bind_ask, Access.bind_done, Access.run_ask]
  cases hread : r.store (.read path) with
  | error cause => rfl
  | ok bytes =>
    cases hparse : Json.parse bytes with
    | error cause | ok v =>
      simp only [hparse]
      rfl

/-- **A lookup bears an event out**: the record at the path of a match is the content of
the match, and where a walk has failed to read or parse a file, loading it fails in the
same way. -/
def BearsOut (r : Records) : WalkEvent → Prop
  | .found m => ∃ v, m.content = some v ∧ r.get m.path.text = .ok v
  | .finished => True
  | .failed e => ∀ error ∈ e.inLookup? r.root, r.get e.path.text = .error error

/-- Lookups bear out what a walk has looked at. -/
theorem bearsOut_of_found (hmode : o.mode = .content) (relative : path.isAbsolute = false)
    {e : Entry} {found : Option Match} {calls : List Call}
    (h : (matchOf o path e).run r.store = (.ok found, calls)) :
    ∀ event ∈ found.map .found, r.BearsOut event := by
  by_cases json : isJsonName e.name = true
  · rw [run_matchOf_eq_get hmode relative json] at h
    cases hget : r.get path.text with
    | error cause =>
      rw [hget] at h
      cases h
    | ok v =>
      rw [hget] at h
      cases h
      rintro _ ⟨⟩
      exact ⟨v, rfl, hget⟩
  · simp only [matchOf, hmode, if_neg json] at h
    cases h
    rintro _ ⟨⟩

/-- And what it has failed to look at. -/
theorem bearsOut_of_refused (hmode : o.mode = .content) (relative : path.isAbsolute = false)
    {e : Entry} {error : WalkError} {calls : List Call}
    (h : (matchOf o path e).run r.store = (.error error, calls)) : r.BearsOut (.failed error) := by
  by_cases json : isJsonName e.name = true
  · rw [run_matchOf_eq_get hmode relative json] at h
    cases hget : r.get path.text with
    | error cause =>
      rw [hget] at h
      cases h
      have hpath : (cause.inWalk path).path = path := by
        cases cause <;> rfl
      intro error herror
      rw [inLookup?_inWalk relative hget] at herror
      cases herror
      rw [hpath, hget]
    | ok v =>
      rw [hget] at h
      cases h
  · simp only [matchOf, hmode, if_neg json] at h
    cases h

end Records

/-! ## Looking matches up -/

/-- Entries that are due on a walk have relative paths. -/
theorem Frame.Sound.isAbsolute_pathOf {p : Pattern} {o : WalkOptions} {f : Frame}
    {names : List String} (hf : f.Sound p o names) {taken ahead : List Entry} {e : Entry}
    (due : f.cursor = some ⟨taken, e :: ahead⟩) : (f.pathOf e).isAbsolute = false := by
  obtain ⟨hplain, hkeeps⟩ := hf.ahead _ due e List.mem_cons_self
  obtain ⟨hpath, hnames, _⟩ := hf.entry hplain hkeeps
  rw [hpath, Path.isAbsolute_ofNames hnames]

namespace Walker

variable {r : Records} {p : Pattern} {o : WalkOptions} {w v : Walker}

/-- **What a step gives, a lookup bears out.** -/
theorem Step.bearsOut (hmode : o.mode = .content) (hw : Sound p o w) {event : Option WalkEvent}
    {calls : List Call} (h : Step r.store w event calls v) : ∀ e ∈ event, r.BearsOut e := by
  obtain ⟨rfl, hstack⟩ := hw
  cases h with
  | finish =>
    rintro _ ⟨⟩
    trivial
  | @loadFailed _ o f _ e _ _ refused =>
    -- a directory is not a record, and loading it reads none
    have hcalls := (f.only_load o).run r.store
    rw [refused] at hcalls
    have hcontents := (GivesUp.load f o).ofContents_eq refused hcalls
    rintro _ ⟨⟩
    cases e with
    | list | stat => exact fun error h => absurd h (by simp [WalkError.inLookup?])
    | read | parse => cases hcontents
  | emit due action read =>
    obtain ⟨⟨names, hf⟩, _⟩ := List.forall_mem_cons.mp hstack
    exact Records.bearsOut_of_found hmode (hf.isAbsolute_pathOf due) read
  | emitFailed due action refused =>
    obtain ⟨⟨names, hf⟩, _⟩ := List.forall_mem_cons.mp hstack
    rintro _ ⟨⟩
    exact Records.bearsOut_of_refused hmode (hf.isAbsolute_pathOf due) refused
  | _ => simp

/-- **What a walk gives, lookups bear out**, however it ends. -/
theorem Reaches.bearsOut (hdisk : r.disk.Proper) (hmode : o.mode = .content)
    {es : List WalkEvent} {log : List Call} (h : Reaches r.store (start p o) es log w) :
    ∀ e ∈ es, r.BearsOut e :=
  (h.induct (sound_start p o) fun hw hstep =>
    ⟨(sound_step (Records.listsPlain_store hdisk) hw hstep).1, hstep.bearsOut hmode hw⟩).2

end Walker

/-! ## A root with a link -/

/-- The root of the records on it. -/
def Records.linked : Records :=
  ⟨.linked, ⟨"/srv"⟩⟩

/-- The contents of the two files: the bytes of `null`, and none. -/
theorem Json.parse_linked :
    Json.parse [110, 117, 108, 108] = .ok .null ∧ Json.parse [] = .error ⟨.endInValue, 1, 0⟩ := by
  constructor <;> cbv

/-- The record behind the link is `null`, and the other one is empty. -/
theorem Records.get_linked :
    linked.get "alias/amy.json" = .ok .null ∧
      linked.get "data/bob.json" = .error (.parse ⟨"/srv/data/bob.json"⟩ ⟨.endInValue, 1, 0⟩) := by
  have hamy : resolve linked.root (Path.mk "alias/amy.json").fromTop
      = .ok ⟨"/srv/alias/amy.json"⟩ := by decide
  have hbob : resolve linked.root (Path.mk "data/bob.json").fromTop
      = .ok ⟨"/srv/data/bob.json"⟩ := by decide
  rw [get_of_resolve hamy, get_of_resolve hbob, show linked.disk = .linked from rfl,
    Disk.read_linked.1, Disk.read_linked.2]
  simp only [Json.parse_linked]
  exact ⟨rfl, rfl⟩

/-- The root of the records on the disk where not everything may be read. -/
def Records.guarded : Records :=
  ⟨.guarded, ⟨"/srv"⟩⟩

/-- What its store answers: the vault does not list, and the sealed record is not read. -/
theorem Records.store_guarded :
    guarded.store (.list .root) = .ok ["sealed.json", "vault"] ∧
      guarded.store (.list ⟨"vault"⟩) = .error (.ofSystem 0 ⟨"/srv/vault"⟩ (.ofNumber 13)) ∧
      guarded.store (.read ⟨"vault/amy.json"⟩) = .ok [110, 117, 108, 108] ∧
      guarded.store (.stat ⟨"sealed.json"⟩) = .ok ⟨false, true, 4, some 0⟩ ∧
      guarded.store (.read ⟨"sealed.json"⟩)
        = .error (.ofSystem 0 ⟨"/srv/sealed.json"⟩ (.ofNumber 13)) := by
  have hresolve : resolve guarded.root .root = .ok ⟨"/srv/"⟩ ∧
      resolve guarded.root ⟨"vault"⟩ = .ok ⟨"/srv/vault"⟩ ∧
      resolve guarded.root ⟨"vault/amy.json"⟩ = .ok ⟨"/srv/vault/amy.json"⟩ ∧
      resolve guarded.root ⟨"sealed.json"⟩ = .ok ⟨"/srv/sealed.json"⟩ := by decide
  obtain ⟨hroot, hvault, hamy, hsealed⟩ := hresolve
  obtain ⟨hread, hunlisted, hlist, hstat, hunread⟩ := Disk.read_guarded
  simp only [store, reach_of_resolve hroot, reach_of_resolve hvault, reach_of_resolve hamy,
    reach_of_resolve hsealed, show guarded.disk = .guarded from rfl, hread, hunlisted, hlist, hstat,
    hunread]
  exact ⟨congrArg Except.ok (List.mergeSort_of_pairwise (by decide)), rfl, rfl, rfl, rfl⟩

/-- The record in the vault is `null`, and the sealed one cannot be loaded. -/
theorem Records.get_guarded :
    guarded.get "vault/amy.json" = .ok .null ∧
      guarded.get "sealed.json" = .error (.read ⟨"/srv/sealed.json"⟩
        (.permissionDenied "/srv/sealed.json: Permission denied (os error 13)")) := by
  obtain ⟨_, _, hread, _, hunread⟩ := store_guarded
  have hvault : (Path.mk "vault/amy.json").isAbsolute = false := by decide
  have hsealed : (Path.mk "sealed.json").isAbsolute = false := by decide
  rw [get_of_relative hvault, hread, get_of_relative hsealed, hunread]
  simp only [Json.parse_linked]
  exact ⟨rfl, congrArg Except.error (by decide)⟩

/-! ## Walking for a key and looking it up -/

namespace Records

open Walker

variable {r : Records} {o : WalkOptions} {ds : List String} {name : String}

/-- **The walk for a key whose file can be read** gives what a lookup gives if the
directories on the way list, and the failure to list the first one that does not otherwise. -/
theorem endsWith_of_read (hdisk : r.disk.Proper) {key : String}
    (hkey : Path.ofNames (ds ++ [name]) = ⟨key⟩) (hnames : ∀ m ∈ ds ++ [name], KeyName m)
    (json : isJsonName name = true) (hmode : o.mode = .content)
    (kept : ∀ m ∈ ds ++ [name], o.ignore m = false) {bytes : Bytes}
    (hread : r.store (.read ⟨key⟩) = .ok bytes) :
    (r.ListsWay ds ∧
      ∃ m, (start (Pattern.behind ⟨.literal name, []⟩ ds) o).EndsWith r.store
        (match r.get key with
          | .error e => [.failed (e.inWalk ⟨key⟩)]
          | .ok v => [.found ⟨⟨key⟩, m, some v⟩, .finished])) ∨
      ∃ above refusal, above <+: ds ∧ r.store (.list (.ofNames above)) = .error refusal ∧
        (start (Pattern.behind ⟨.literal name, []⟩ ds) o).EndsWith r.store
          [.failed (.list (.ofNames above) refusal.cause)] := by
  have hplain : ∀ m ∈ ds ++ [name], PlainName m := fun m hm => (hnames m hm).toPlainName
  have relative : (Path.mk key).isAbsolute = false := hkey ▸ Path.isAbsolute_ofNames hplain
  obtain ⟨hds, hname⟩ := List.forall_mem_append.mp hplain
  obtain ⟨keptDs, keptName⟩ := List.forall_mem_append.mp kept
  obtain ⟨there, modified, hlocate, hfile⟩ := locate_of_read hnames (hkey ▸ hread)
  have hstat := stat_file_of_locate (hkey ▸ resolve_ofNames r.root hnames) (hkey ▸ hlocate) hfile
  rcases wayDown_or_refused hdisk (show ∀ m ∈ [] ++ (ds ++ [name]), KeyName m from hnames) hlocate
    with
    ⟨hway, listed, hlist, honce⟩ | ⟨before, refusal, ⟨after, rfl⟩, hway, hrefused⟩
  · have hend := endsWith_of_look hway hds (hname name (List.mem_singleton_self name)) keptDs
      (keptName name (List.mem_singleton_self name)) hlist honce hkey hstat rfl
      (run_matchOf_eq_get hmode relative json)
    refine .inl ⟨listsWay_of_wayDown hway hlist, ⟨false, true, bytes.length, some modified⟩, ?_⟩
    cases hget : r.get key with
    | error e => rwa [show (Path.mk key).text = key from rfl, hget] at hend
    | ok v => rwa [show (Path.mk key).text = key from rfl, hget] at hend
  · exact .inr ⟨before, refusal, ⟨after, rfl⟩, hrefused,
      endsWith_of_refused hway (List.forall_mem_append.mp hds).1
        (List.forall_mem_append.mp keptDs).1 hrefused⟩

/-- A lookup that comes to the contents of a file has read it. -/
theorem exists_read_of_get {key : String} (relative : (Path.mk key).isAbsolute = false)
    (h : ∀ full cause, r.get key ≠ .error (.read full cause)) :
    ∃ bytes, r.store (.read ⟨key⟩) = .ok bytes := by
  cases hread : r.store (.read ⟨key⟩) with
  | ok bytes => exact ⟨bytes, rfl⟩
  | error refusal =>
    have hget := get_of_relative (r := r) relative
    rw [hread] at hget
    exact absurd hget (h _ _)

/-- So it gives what a lookup gives that comes to the contents, if the directories on the way
to what can be read list. -/
theorem endsWith_of_get (hdisk : r.disk.Proper) {key : String}
    (hkey : Path.ofNames (ds ++ [name]) = ⟨key⟩) (hnames : ∀ m ∈ ds ++ [name], KeyName m)
    (json : isJsonName name = true) (hmode : o.mode = .content)
    (kept : ∀ m ∈ ds ++ [name], o.ignore m = false)
    (lists : ∀ bytes, r.store (.read ⟨key⟩) = .ok bytes → r.ListsWay ds)
    (hget : ∀ full cause, r.get key ≠ .error (.read full cause)) :
    ∃ m, (start (Pattern.behind ⟨.literal name, []⟩ ds) o).EndsWith r.store
      (match r.get key with
        | .error e => [.failed (e.inWalk ⟨key⟩)]
        | .ok v => [.found ⟨⟨key⟩, m, some v⟩, .finished]) := by
  have relative : (Path.mk key).isAbsolute = false :=
    hkey ▸ Path.isAbsolute_ofNames fun m hm => (hnames m hm).toPlainName
  obtain ⟨bytes, hread⟩ := exists_read_of_get relative hget
  rcases endsWith_of_read hdisk hkey hnames json hmode kept hread with
    ⟨_, hwalk⟩ | ⟨above, refusal, hprefix, hrefused, _⟩
  · exact hwalk
  · obtain ⟨listed, hlisted⟩ := lists bytes hread above hprefix
    rw [hlisted] at hrefused
    cases hrefused

/-- **Loading a record is walking for its key.** Take a root on a proper disk – one with
directories, files and links, in which no name occurs twice in a directory –, and a key of
names in which no star occurs and of which none begins with a dot, the last one a name in
`.json`. Then the key compiles as a query.

If the file under the key can be read, let each directory on the way to it list as well.
Then loading the record gives a value exactly if the walk for the key, in content mode and
with the rule that walks have by default, finds the file under the key with this value and
then ends; and loading it fails because the contents are no JSON exactly if that failure,
at the key, is all that the walk gives.

A file may be read that lies below a directory which does not list. Then a lookup gets to the
file, and the walk does not: all that it gives is the failure to list such a directory. -/
theorem get_iff_walk (hdisk : r.disk.Proper) {key : String}
    (hkey : key = String.intercalate "/" (ds ++ [name])) (hnames : ∀ m ∈ ds ++ [name], KeyName m)
    (json : isJsonName name = true) (filesFirst : Bool) :
    ∃ w, ofQuery key ⟨.content, filesFirst, isDotfile⟩ = .ok w ∧
      ((∀ bytes, r.store (.read ⟨key⟩) = .ok bytes → r.ListsWay ds) →
        (∀ v, r.get key = .ok v ↔
          ∃ m, w.EndsWith r.store [.found ⟨⟨key⟩, m, some v⟩, .finished]) ∧
        ∀ cause, (∃ full, r.get key = .error (.parse full cause)) ↔
          w.EndsWith r.store [.failed (.parse ⟨key⟩ cause)]) ∧
      ∀ bytes, r.store (.read ⟨key⟩) = .ok bytes → ¬ r.ListsWay ds →
        ∃ above refusal, above <+: ds ∧ r.store (.list (.ofNames above)) = .error refusal ∧
          w.EndsWith r.store [.failed (.list (.ofNames above) refusal.cause)] := by
  obtain ⟨hds, hname⟩ := List.forall_mem_append.mp hnames
  have hlast : KeyName name := hname name (List.mem_singleton_self name)
  have hparse := Pattern.parse_behind (fun d hd => (hds d hd).toPlainName)
    (fun d hd => (hds d hd).noStar) (Pattern.parse_of_noStar hlast.toPlainName hlast.noStar)
  have hpath : Path.ofNames (ds ++ [name]) = ⟨key⟩ := congrArg Path.mk hkey.symm
  have kept : ∀ m ∈ ds ++ [name], isDotfile m = false := fun m hm => (hnames m hm).visible
  rw [← hkey] at hparse
  refine ⟨start _ _, by rw [ofQuery, hparse]; rfl, fun lists => ?_, fun bytes hread unlisted => ?_⟩
  · have hgives := endsWith_of_get hdisk hpath hnames json
      (o := ⟨.content, filesFirst, isDotfile⟩) rfl kept lists
    refine ⟨fun v => ⟨fun hget => ?_, ?_⟩, fun cause => ⟨?_, fun hwalk => ?_⟩⟩
    · simp only [hget] at hgives
      exact hgives fun _ _ => by simp
    · rintro ⟨m, log, w, hreached, _⟩
      obtain ⟨v', hv, hget⟩ := hreached.bearsOut hdisk rfl _ List.mem_cons_self
      cases hv
      exact hget
    · rintro ⟨full, hget⟩
      simp only [hget] at hgives
      exact (hgives fun _ _ => by simp).choose_spec
    · obtain ⟨log, w, hreached, _⟩ := hwalk
      exact ⟨_, hreached.bearsOut hdisk rfl _ List.mem_cons_self _ rfl⟩
  · exact (endsWith_of_read hdisk hpath hnames json rfl kept hread).resolve_left fun h =>
      unlisted h.1

/-- On the first root all directories on the way to a record list. -/
theorem listsWay_linked {key : String} (hkey : Path.ofNames (ds ++ [name]) = ⟨key⟩)
    (hnames : ∀ m ∈ ds ++ [name], KeyName m) (bytes : Bytes)
    (hread : linked.store (.read ⟨key⟩) = .ok bytes) : linked.ListsWay ds :=
  listsWay_of_free (by decide) (Disk.refusal?_of_free rfl .read) hnames (hkey ▸ hread)

/-- On the other root the vault does not. -/
theorem not_listsWay_guarded : ¬ guarded.ListsWay ["vault"] := by
  intro lists
  obtain ⟨listed, hlisted⟩ := lists ["vault"] (List.prefix_refl _)
  rw [show Path.ofNames ["vault"] = ⟨"vault"⟩ by decide, store_guarded.2.1] at hlisted
  cases hlisted

/-- The key of a file behind a link, and the key of an empty file; and the key of a file in a
directory that does not list. -/
theorem get_iff_walk_linked :
    linked.disk.Proper ∧ guarded.disk.Proper ∧
      (∀ m ∈ ["alias", "amy.json", "data", "bob.json", "vault"], KeyName m) ∧
      (linked.get "alias/amy.json" = .ok .null ∧
        ∃ w m, ofQuery "alias/amy.json" ⟨.content, false, isDotfile⟩ = .ok w ∧
          w.EndsWith linked.store [.found ⟨⟨"alias/amy.json"⟩, m, some .null⟩, .finished]) ∧
      (∃ w, ofQuery "data/bob.json" ⟨.content, true, isDotfile⟩ = .ok w ∧
        w.EndsWith linked.store [.failed (.parse ⟨"data/bob.json"⟩ ⟨.endInValue, 1, 0⟩)]) ∧
      guarded.get "vault/amy.json" = .ok .null ∧
        ∃ w, ofQuery "vault/amy.json" ⟨.content, false, isDotfile⟩ = .ok w ∧
          w.EndsWith guarded.store [.failed (.list ⟨"vault"⟩
            (.permissionDenied "/srv/vault: Permission denied (os error 13)"))] := by
  have hnames : ∀ m ∈ ["alias", "amy.json", "data", "bob.json", "vault"], KeyName m := by decide
  have hamy : Path.ofNames (["alias"] ++ ["amy.json"]) = ⟨"alias/amy.json"⟩ := by decide
  have hbob : Path.ofNames (["data"] ++ ["bob.json"]) = ⟨"data/bob.json"⟩ := by decide
  obtain ⟨w, hw, hagrees, _⟩ := get_iff_walk (r := linked) Disk.proper_linked
    (show "alias/amy.json" = String.intercalate "/" (["alias"] ++ ["amy.json"]) by decide)
    (by decide) (by decide) false
  obtain ⟨hfound, _⟩ := hagrees (listsWay_linked hamy (by decide))
  obtain ⟨m, hm⟩ := (hfound .null).mp get_linked.1
  obtain ⟨w', hw', hagrees', _⟩ := get_iff_walk (r := linked) Disk.proper_linked
    (show "data/bob.json" = String.intercalate "/" (["data"] ++ ["bob.json"]) by decide)
    (by decide) (by decide) true
  obtain ⟨_, hfailed⟩ := hagrees' (listsWay_linked hbob (by decide))
  obtain ⟨u, hu, _, hrefused⟩ := get_iff_walk (r := guarded) Disk.proper_guarded
    (show "vault/amy.json" = String.intercalate "/" (["vault"] ++ ["amy.json"]) by decide)
    (by decide) (by decide) false
  obtain ⟨hroot, hvault, hread, _⟩ := store_guarded
  obtain ⟨above, refusal, hprefix, hlist, hgives⟩ := hrefused _ hread not_listsWay_guarded
  -- the root lists, and so it is the vault that does not
  obtain rfl | hnone := List.prefix_concat_iff.mp (show above <+: [] ++ ["vault"] from hprefix)
  · rw [show Path.ofNames ([] ++ ["vault"]) = ⟨"vault"⟩ by decide, hvault] at hlist
    cases hlist
    exact ⟨Disk.proper_linked, Disk.proper_guarded, hnames, ⟨get_linked.1, w, m, hw, hm⟩,
      ⟨w', hw', (hfailed _).mp ⟨_, get_linked.2⟩⟩, get_guarded.1, u, hu, hgives⟩
  · rw [List.prefix_nil.mp hnone, Path.ofNames_nil, hroot] at hlist
    cases hlist

end Records

namespace Walker

variable {r : Records} {o : WalkOptions} {w : Walker} {es : List WalkEvent} {log : List Call}

/-- **What a walk has found can be looked up.** Let a walk in content mode go over a root on
a proper disk, for any pattern and however far. Each match carries a value, and loading the
record at the path of the match gives this value. If the walk has failed to read a file or
to parse it, then loading the record at the path of the failure fails in the same way, for
the same cause. -/
theorem found_is_loaded (hdisk : r.disk.Proper) (p : Pattern) (hmode : o.mode = .content)
    (reached : Reaches r.store (start p o) es log w) :
    (∀ m, .found m ∈ es → ∃ v, m.content = some v ∧ r.get m.path.text = .ok v) ∧
      (∀ path cause, .failed (.read path cause) ∈ es →
        r.get path.text = .error (.read (r.root.join path) cause)) ∧
      ∀ path cause, .failed (.parse path cause) ∈ es →
        r.get path.text = .error (.parse (r.root.join path) cause) := by
  have hevents := reached.bearsOut hdisk hmode
  exact ⟨fun m hm => hevents _ hm, fun path cause hmem => hevents _ hmem _ rfl,
    fun path cause hmem => hevents _ hmem _ rfl⟩

/-- The match of a file behind a link; and the failures of walks at an empty file, and at one
that is listed and statted but may not be read. -/
theorem found_is_loaded_linked :
    Records.linked.disk.Proper ∧ Records.guarded.disk.Proper ∧
      (∃ es log w m, Reaches Records.linked.store
          (start (Pattern.behind ⟨.literal "amy.json", []⟩ ["alias"]) { mode := .content })
          es log w ∧
        .found m ∈ es ∧ m.content = some .null ∧
        ∃ v, m.content = some v ∧ Records.linked.get m.path.text = .ok v) ∧
      (∃ es log w cause, Reaches Records.linked.store
          (start (Pattern.behind ⟨.literal "bob.json", []⟩ ["data"]) { mode := .content })
          es log w ∧
        .failed (.parse ⟨"data/bob.json"⟩ cause) ∈ es ∧
        Records.linked.get "data/bob.json" = .error (.parse ⟨"/srv/data/bob.json"⟩ cause)) ∧
      ∃ es log w cause, Reaches Records.guarded.store
          (start ⟨.literal "sealed.json", []⟩ { mode := .content }) es log w ∧
        .failed (.read ⟨"sealed.json"⟩ cause) ∈ es ∧
        cause = .permissionDenied "/srv/sealed.json: Permission denied (os error 13)" ∧
        Records.guarded.get "sealed.json" = .error (.read ⟨"/srv/sealed.json"⟩ cause) := by
  have hdisk : Records.linked.disk.Proper := Disk.proper_linked
  have hguarded : Records.guarded.disk.Proper := Disk.proper_guarded
  have hamy : Path.ofNames (["alias"] ++ ["amy.json"]) = ⟨"alias/amy.json"⟩ := by decide
  have hbob : Path.ofNames (["data"] ++ ["bob.json"]) = ⟨"data/bob.json"⟩ := by decide
  have hgives := Records.endsWith_of_get (o := { mode := .content }) hdisk hamy (by decide)
    (by decide) rfl (by decide) (Records.listsWay_linked hamy (by decide))
  have hfails := Records.endsWith_of_get (o := { mode := .content }) hdisk hbob (by decide)
    (by decide) rfl (by decide) (Records.listsWay_linked hbob (by decide))
  simp only [Records.get_linked] at hgives hfails
  obtain ⟨m, log, w, hreached, _⟩ := hgives fun _ _ => by simp
  obtain ⟨_, log', w', hreached', _⟩ := hfails fun _ _ => by simp
  obtain ⟨hlist, _, _, hstat, _⟩ := Records.store_guarded
  have hsealed : (Path.mk "sealed.json").isAbsolute = false := by decide
  have hlook := Records.run_matchOf_eq_get (r := .guarded) (o := { mode := .content })
    (e := ⟨"sealed.json", ⟨false, true, 4, some 0⟩⟩) rfl hsealed (by decide)
  rw [Records.get_guarded.2] at hlook
  have hway : Records.guarded.store.WayDown [] [] := .here
  obtain ⟨log'', w'', hreached'', _⟩ := endsWith_of_look hway (by simp) (by decide) (by simp)
    (by decide) hlist (by decide) (by decide) hstat rfl hlook
  obtain ⟨hfound, _⟩ := found_is_loaded hdisk _ rfl hreached
  obtain ⟨_, _, hfailed⟩ := found_is_loaded hdisk _ rfl hreached'
  obtain ⟨_, hunread, _⟩ := found_is_loaded hguarded _ rfl hreached''
  exact ⟨hdisk, hguarded,
    ⟨_, _, _, _, hreached, List.mem_cons_self, rfl, hfound _ List.mem_cons_self⟩,
    ⟨_, _, _, _, hreached', List.mem_cons_self, hfailed _ _ List.mem_cons_self⟩,
    _, _, _, _, hreached'', List.mem_cons_self, rfl, hunread _ _ List.mem_cons_self⟩

end Walker

end TreeQuery
