import TreeQuery.Proofs.Lines
import TreeQuery.Proofs.Missing
import TreeQuery.Proofs.Printing

/-!
# Matches as lines with two columns

Unless objects are asked for, `select` prints a match as its path, a tab, and its contents or
else its size. Who reads this takes the output apart at its line breaks and cuts each line at
its last tab.

Behind the tab this is safe. Sizes are digits, and values are written without any character
below U+0020 (`Match.unbroken_column`), so that the last tab of a line is always the one that
was put there. In front of it the path stands as it is, and a file may have any name. A tab in
a path does no harm, since it is not the last one. A line break does: it ends the line, and
what is left of the path begins the next one. So how many lines there are can be told from the
paths alone (`Match.length_lines`), and cutting gives the matches back exactly if no path has
a line break in it (`Match.cut_lines_iff`). As objects such paths are escaped and stay on
their line.
-/

namespace TreeQuery

/-! ## Texts taken apart -/

namespace Text

/-- What stands between the line breaks of a text. -/
def parts (text : String) : List String :=
  (text.toList.splitOn '\n').map String.ofList

/-- **The lines of a text**: what stands between its line breaks. Behind a break at the end no
line begins. -/
def lines (text : String) : List String :=
  if (parts text).getLast? = some "" then (parts text).dropLast else parts text

/-- **A line cut at its last tab**: what stands before the tab and what behind it, if there is
one. -/
def cutAtLastTab (line : String) : Option (String × String) :=
  let backwards := line.toList.reverse
  match backwards.dropWhile (· != '\t') with
  | [] => none
  | _ :: before =>
    some (.ofList before.reverse, .ofList (backwards.takeWhile (· != '\t')).reverse)

/-- A line break parts a text. -/
theorem parts_append (before after : String) :
    parts (before ++ "\n" ++ after) = parts before ++ parts after := by
  unfold parts
  rw [String.toList_append, String.toList_append, List.append_assoc, ← List.map_append]
  exact congrArg _ (List.splitOn_append_cons_self before.toList after.toList)

/-- There is one part more than there are breaks. -/
theorem length_parts (text : String) : (parts text).length = text.toList.count '\n' + 1 := by
  unfold parts
  rw [List.length_map]
  induction text.toList with
  | nil => rfl
  | cons c cs ih =>
    rw [List.splitOn_cons_eq_if_modifyHead, List.count_cons]
    by_cases hc : c = '\n'
    · simp [hc, ih]
    · simp [hc, ih]

theorem parts_of_unbroken {text : String} (h : '\n' ∉ text.toList) : parts text = [text] := by
  rw [parts, List.splitOn_eq_singleton h, List.map_singleton, String.ofList_toList]

/-- Texts with an end of the line each are parted at these ends and inside. -/
theorem parts_unlines (ls : List String) : parts (unlines ls) = ls.flatMap parts ++ [""] := by
  induction ls with
  | nil => decide
  | cons l ls ih =>
    have hjoin : unlines (l :: ls) = l ++ "\n" ++ unlines ls := String.join_cons
    rw [hjoin, parts_append, ih, List.flatMap_cons, List.append_assoc]

theorem lines_unlines (ls : List String) : lines (unlines ls) = ls.flatMap parts := by
  rw [lines, parts_unlines, List.getLast?_concat, if_pos rfl, List.dropLast_concat]

/-- **Each break inside makes one more line.** -/
theorem length_lines_unlines (ls : List String) :
    (lines (unlines ls)).length = ls.length + (ls.flatMap String.toList).count '\n' := by
  rw [lines_unlines]
  induction ls with
  | nil => rfl
  | cons l ls ih =>
    rw [List.flatMap_cons, List.length_append, length_parts, ih, List.length_cons,
      List.flatMap_cons, List.count_append]
    omega

/-- Texts without breaks are the lines. -/
theorem lines_unlines_of_unbroken {ls : List String} (h : ∀ l ∈ ls, '\n' ∉ l.toList) :
    lines (unlines ls) = ls := by
  rw [lines_unlines]
  induction ls with
  | nil => rfl
  | cons l ls ih =>
    obtain ⟨hl, hls⟩ := List.forall_mem_cons.mp h
    rw [List.flatMap_cons, parts_of_unbroken hl, ih hls, List.singleton_append]

/-- A tab with no other one behind it is where a line is cut, whatever is before it. -/
theorem cutAtLastTab_append {behind : String} (h : '\t' ∉ behind.toList) (before : String) :
    cutAtLastTab (before ++ "\t" ++ behind) = some (before, behind) := by
  have hreverse : (before ++ "\t" ++ behind).toList.reverse
      = behind.toList.reverse ++ '\t' :: before.toList.reverse := by
    simp
  have hkept : ∀ c ∈ behind.toList.reverse, (c != '\t') = true := by
    intro c hc
    rw [bne_iff_ne]
    rintro rfl
    exact h (List.mem_reverse.mp hc)
  unfold cutAtLastTab
  simp only [hreverse]
  rw [List.dropWhile_append_of_pos hkept, List.takeWhile_append_of_pos hkept]
  simp

end Text

/-! ## The columns of a match -/

namespace Match

/-- What stands behind the tab in the line of a match: its contents, or else its size. -/
def column (m : Match) : String :=
  match m.content with
  | some value => value.compact
  | none => toString m.metadata.size

/-- The line is the path, a tab and this. -/
theorem line_eq_columns (m : Match) : m.line false = m.path.text ++ "\t" ++ m.column := by
  unfold line column
  cases m.content <;> rfl

/-- A match with contents shows them, -/
theorem column_of_content {m : Match} (h : m.content.isSome = true) :
    ∃ v, m.content = some v ∧ m.column = v.compact := by
  obtain ⟨v, hv⟩ := Option.isSome_iff_exists.mp h
  refine ⟨v, hv, ?_⟩
  rw [column, hv]

/-- and one without them its size. -/
theorem column_of_stats {m : Match} (h : m.content.isSome = false) :
    m.column = toString m.metadata.size := by
  rw [column, Option.isNone_iff_eq_none.mp (Option.isSome_eq_false_iff.mp h)]

/-- **Neither a tab nor a line break stands behind the tab.** -/
theorem unbroken_column (m : Match) : Text.Unbroken m.column.toList := by
  unfold column
  split
  · exact Json.unbroken_compact _
  · rw [Nat.toString_eq_repr, Nat.repr_eq_ofList_toDigits, String.toList_ofList]
    exact Json.unbroken_toDigits _

/-- So the breaks of a line are those of the path, -/
theorem count_line (m : Match) :
    (m.line false).toList.count '\n' = m.path.text.toList.count '\n' := by
  have hcolumn : m.column.toList.count '\n' = 0 :=
    List.count_eq_zero.mpr fun h => absurd (m.unbroken_column _ h) (by decide)
  rw [line_eq_columns, String.toList_append, String.toList_append, List.count_append,
    List.count_append, hcolumn]
  rfl

/-- and its last tab is the one behind the path. -/
theorem cut_line (m : Match) : Text.cutAtLastTab (m.line false) = some (m.path.text, m.column) := by
  rw [line_eq_columns]
  exact Text.cutAtLastTab_append (fun h => absurd (m.unbroken_column _ h) (by decide)) _

/-- **How many lines matches take**: one for each of them, and one more for each line break in
a path. -/
theorem length_lines (files : List Match) :
    (Text.lines (unlines (files.map (line · false)))).length
      = files.length + (files.flatMap fun m => m.path.text.toList).count '\n' := by
  rw [Text.length_lines_unlines, List.length_map, List.flatMap_map, Nat.add_left_cancel_iff]
  induction files with
  | nil => rfl
  | cons m files ih =>
    rw [List.flatMap_cons, List.count_append, count_line, ih, List.flatMap_cons,
      List.count_append]

/-- **Lines give matches back if there are as many of them**, and that is so if no path has a
line break in it. -/
theorem cut_lines_iff (files : List Match) :
    (Text.lines (unlines (files.map (line · false)))).map Text.cutAtLastTab
        = files.map (fun m => some (m.path.text, m.column)) ↔
      ∀ m ∈ files, '\n' ∉ m.path.text.toList := by
  constructor
  · intro hcut m hm hbreak
    have hsame := congrArg List.length hcut
    rw [List.length_map, List.length_map, length_lines] at hsame
    have hnone := List.count_eq_zero.mp (Nat.add_eq_left.mp hsame)
    exact hnone (List.mem_flatMap.mpr ⟨m, hm, hbreak⟩)
  · intro hpaths
    have hlines : ∀ l ∈ files.map (line · false), '\n' ∉ l.toList := by
      refine List.forall_mem_map.mpr fun m hm => ?_
      rw [← List.count_eq_zero, m.count_line, List.count_eq_zero]
      exact hpaths m hm
    rw [Text.lines_unlines_of_unbroken hlines, List.map_map]
    exact List.map_congr_left fun m _ => m.cut_line

end Match

/-! ## The matches of a walk -/

/-- A match has contents exactly in content mode. -/
theorem isSome_content_of_matchOf {s : Store} {o : WalkOptions} {path : Path} {e : Entry}
    {m : Match} {calls : List Call} (h : (matchOf o path e).run s = (.ok (some m), calls)) :
    m.content.isSome = (o.mode == .content) := by
  unfold matchOf at h
  cases hmode : o.mode with
  | stats =>
    rw [hmode] at h
    cases h
    rfl
  | content =>
    simp only [hmode] at h
    split at h
    · simp only [Access.read, Access.bind_ask, Access.bind_done, Access.run_ask] at h
      cases hread : s (.read path) with
      | error cause => rw [hread] at h; cases h
      | ok bytes =>
        simp only [hread] at h
        cases hparse : Json.parse bytes with
        | error cause => rw [hparse] at h; cases h
        | ok v => rw [hparse] at h; cases h; rfl
    · cases h

namespace Walker

variable {s : Store} {p : Pattern} {o : WalkOptions} {w : Walker}

/-- Steps keep the options, and give no match that has not been looked at under them. -/
theorem Step.isSome_content {v : Walker} {event : Option WalkEvent} {calls : List Call}
    (hw : w.options = o) (h : Step s w event calls v) :
    v.options = o ∧ ∀ e ∈ event, ∀ m ∈ e.file?, m.content.isSome = (o.mode == .content) := by
  subst hw
  cases h with
  | @emit _ _ _ _ _ _ _ found _ due action read =>
    refine ⟨rfl, ?_⟩
    cases found with
    | none => simp
    | some m =>
      rintro _ ⟨⟩ _ ⟨⟩
      exact isSome_content_of_matchOf read
  | _ => simp [WalkEvent.file?]

theorem Reaches.isSome_content {es : List WalkEvent} {log : List Call}
    (h : Reaches s (start p o) es log w) :
    ∀ e ∈ es, ∀ m ∈ e.file?, m.content.isSome = (o.mode == .content) :=
  (h.induct (I := fun v => v.options = o) rfl fun hv hstep => hstep.isSome_content hv).2

/-- What stands behind the tab in the lines of a walk is told by its mode. -/
theorem EndsWith.column_of_found {es : List WalkEvent} (h : (start p o).EndsWith s es) {m : Match}
    (hm : .found m ∈ es) :
    (o.mode = .stats → m.column = toString m.metadata.size) ∧
      (o.mode = .content → ∃ v, m.content = some v ∧ m.column = v.compact) := by
  obtain ⟨log, v, hreached, _⟩ := h
  have hmode := hreached.isSome_content (.found m) hm m rfl
  refine ⟨fun hstats => m.column_of_stats ?_, fun hcontent => m.column_of_content ?_⟩
  · rw [hmode, hstats]
    rfl
  · rw [hmode, hcontent]
    rfl

/-- A walk ends in one way. -/
theorem EndsWith.unique {es es' : List WalkEvent} (h : w.EndsWith s es) (h' : w.EndsWith s es') :
    es = es' := by
  obtain ⟨log, v, ⟨n, hn⟩, ended⟩ := h
  obtain ⟨log', v', part, ended'⟩ := h'
  obtain ⟨later, calls, rfl, _, hlater⟩ := part.rest_of_halted hn ended
  rw [run_steps_of_halted ended'] at hlater
  cases hlater
  exact List.append_nil es'

/-- So it has one list of matches. -/
theorem EndsWith.files_unique {files files' : List Match} {last last' : WalkEvent}
    (h : w.EndsWith s (files.map .found ++ [last]))
    (h' : w.EndsWith s (files'.map .found ++ [last'])) : files = files' := by
  have hfiles := (List.append_inj' (h.unique h') rfl).1
  exact List.map_injective_iff.mpr (fun _ _ => WalkEvent.found.inj) hfiles

end Walker

/-! ## What is printed -/

/-- **The plain output of a request** is the lines of the matches of its walk. -/
theorem SelectRequest.exists_output {d : Disk} (proper : d.Proper) (usual : Path)
    {r : SelectRequest} (plain : r.json = false) {c : Config} (loads : r.base d usual = .ok c)
    {p : Pattern} (hparse : Pattern.parse (r.queryOver c) = .ok p) :
    ∃ (files : List Match) (last : WalkEvent),
      (Walker.start p (r.optionsOver c)).EndsWith (Records.store ⟨d, r.root⟩)
        (files.map .found ++ [last]) ∧
      (r.run d usual).output = unlines (files.map (Match.line · false)) := by
  obtain ⟨n, v, log, hsteps, hended⟩ :=
    Records.exists_steps_eventsOf (r := ⟨d, r.root⟩) proper p (r.optionsOver c)
  have hreached : Walker.Reaches (Records.store ⟨d, r.root⟩) _ _ _ _ := ⟨n, hsteps⟩
  obtain ⟨files, last?, hevents, hterminal, hlast⟩ := hreached.exists_files rfl
  obtain ⟨last, rfl⟩ := Option.isSome_iff_exists.mp (hlast.symm.trans hended)
  rw [Option.toList_some] at hevents
  refine ⟨files, last, ⟨log, v, hevents ▸ hreached, hended⟩, ?_⟩
  have hquery : Walker.ofQuery (r.queryOver c) (r.optionsOver c)
      = .ok (.start p (r.optionsOver c)) := by
    rw [Walker.ofQuery, hparse]
    rfl
  rw [SelectRequest.run_eq loads, hquery]
  dsimp only
  rw [hevents, report_eq r.json files (hterminal last rfl), plain, unlines, List.map_map]
  rfl

/-- **Lines are matches unless a path breaks a line.** Let a command line be a request for
matches that are not printed as objects, on a disk as they are, and let its configuration load.
If the query does not parse, there are no lines. If it parses, take the matches of the walk for
it below the root, with the options of the request. There is a line for each of them, and one
more for each line break in a path. Cutting the lines at their last tabs gives the path of each
match, in order, and behind it the size or, in content mode, the contents – if no path has a
line break in it, and only then. -/
theorem lines_are_matches_iff {d : Disk} (proper : d.Proper) (usual : Path) {words : List String}
    {r : SelectRequest} (valid : Request.ofWords words = .ok (.select r)) (plain : r.json = false)
    {c : Config} (loads : r.base d usual = .ok c) :
    ∃ outcome, runCommand d usual words = .ok outcome ∧
      (∀ e, Pattern.parse (r.queryOver c) = .error e → Text.lines outcome.output = []) ∧
      ∀ p, Pattern.parse (r.queryOver c) = .ok p → ∃ (files : List Match) (last : WalkEvent),
        (Walker.start p (r.optionsOver c)).EndsWith (Records.store ⟨d, r.root⟩)
          (files.map .found ++ [last]) ∧
        (∀ m ∈ files,
          ((r.optionsOver c).mode = .stats → m.column = toString m.metadata.size) ∧
          ((r.optionsOver c).mode = .content → ∃ v, m.content = some v ∧ m.column = v.compact)) ∧
        (Text.lines outcome.output).length
          = files.length + (files.flatMap fun m => m.path.text.toList).count '\n' ∧
        ((Text.lines outcome.output).map Text.cutAtLastTab
            = files.map (fun m => some (m.path.text, m.column)) ↔
          ∀ m ∈ files, '\n' ∉ m.path.text.toList) := by
  have hrun : runCommand d usual words = .ok (r.run d usual) := by
    rw [runCommand, valid]
    rfl
  refine ⟨r.run d usual, hrun, fun e hparse => ?_, fun p hparse => ?_⟩
  · have hquery : Walker.ofQuery (r.queryOver c) (r.optionsOver c) = .error e := by
      rw [Walker.ofQuery, hparse]
      rfl
    rw [SelectRequest.run_eq loads, hquery]
    rfl
  · obtain ⟨files, last, hends, houtput⟩ := SelectRequest.exists_output proper usual plain loads hparse
    rw [houtput]
    exact ⟨files, last, hends,
      fun m hm => hends.column_of_found (List.mem_append_left _ (List.mem_map_of_mem hm)),
      Match.length_lines files, Match.cut_lines_iff files⟩

/-! ## A disk with one file -/

namespace Disk

/-- The entries of a directory with an empty file of this name. -/
def only (name : String) : DiskEntries :=
  [(.text name, .file [] 0)]

/-- A disk with this directory. -/
def holding (name : String) : Disk where
  entries := [(.text "srv", .directory (only name))]

variable {name : String}

/-- It is proper if the name is plain. -/
theorem proper_holding (h : PlainName name) : (holding name).Proper := by
  refine .directory (List.nodup_singleton _) (by simp [holding, show PlainName "srv" by decide])
    (List.forall_mem_singleton.mpr ?_)
  exact .directory (List.nodup_singleton _) (by simp [only, h])
    (List.forall_mem_singleton.mpr (.file _ _))

/-- There is no configuration. -/
theorem read_config_holding (name : String) :
    (holding name).read ⟨"/etc/fsroot.toml"⟩ = .error .noEntry := by
  have hpieces : (Path.mk "/etc/fsroot.toml").pieces = ["", "etc", "fsroot.toml"] := by decide
  have hmisses : (holding name).Misses ⟨"/etc/fsroot.toml"⟩ .missing := by
    rw [Misses, hpieces]
    exact .onward (.stay rfl rfl rfl) (.missing rfl rfl rfl (by decide) (by decide) rfl)
  exact read_of_misses ⟨by decide, by decide, by decide⟩ hmisses

/-- The file is below its directory. -/
theorem locate_holding (h : KeyName name) (noNul : '\x00' ∉ name.toList)
    (short : name.utf8ByteSize ≤ maxName) :
    ∃ there, (holding name).locate (Path.join ⟨"/srv"⟩ ⟨name⟩) = .ok there ∧
      there.node = .file [] 0 := by
  have hrelative := Path.isAbsolute_of_plain h.toPlainName
  have hpieces : (Path.join ⟨"/srv"⟩ ⟨name⟩).pieces = ["", "srv", name] := by
    rw [Path.pieces_join hrelative, Path.pieces_of_plain h.toPlainName,
      show Path.stem ⟨"/srv"⟩ = ["", "srv"] by decide]
    rfl
  have askable : Askable (Path.join ⟨"/srv"⟩ ⟨name⟩) := by
    rw [Path.join_of_relative hrelative, if_pos (by decide)]
    refine ⟨?_, ?_, ?_⟩
    · simpa using noNul
    · simp
    · have hsize : "/srv".utf8ByteSize = 4 ∧ "/".utf8ByteSize = 1 := by decide
      simp only [String.utf8ByteSize_append, hsize, maxName, maxPath] at short ⊢
      omega
  have hfile : (only name).lookup (.text name) = some (.file [] 0) := List.lookup_cons_self
  have free : ∀ here, (holding name).barrier? here name = none := Disk.barrier?_of_free rfl name
  have way : (holding name).Leads maxLinks (holding name).top ["", "srv", name] maxLinks
      (((holding name).top.down (.text "srv") (.directory (only name))).down (.text name)
        (.file [] 0)) :=
    .onward (.stay rfl rfl rfl) <|
      .onward (.down rfl rfl rfl (by decide) (by decide) rfl (by simp)) <|
        .onward (.down rfl (free _) h.moves h.ne_up short hfile (by simp)) .arrived
  exact ⟨_, locate_eq_ok_iff.mpr ⟨askable, _, hpieces ▸ way⟩, rfl⟩

end Disk

namespace SelectRequest

variable {name : String}

/-- The request for the file. -/
def naming (name : String) : SelectRequest :=
  { root := ⟨"/srv"⟩, query := some name }

/-- It is made without a configuration. -/
theorem base_naming (name : String) :
    (naming name).base (.holding name) ⟨"/etc/fsroot.toml"⟩ = .ok {} := by
  rw [base, show (naming name).config = none from rfl]
  dsimp only
  rw [Config.loadOrDefault, Disk.read_config_holding]
  rfl

/-- The walk for the file finds it. -/
theorem endsWith_naming (h : KeyName name) (noNul : '\x00' ∉ name.toList)
    (short : name.utf8ByteSize ≤ Disk.maxName) :
    (Walker.start ⟨.literal name, []⟩ ((naming name).optionsOver {})).EndsWith
      (Records.store ⟨.holding name, ⟨"/srv"⟩⟩)
      [.found ⟨⟨name⟩, ⟨false, true, 0, some 0⟩, none⟩, .finished] := by
  let r : Records := ⟨.holding name, ⟨"/srv"⟩⟩
  have hroot : "/srv" ≠ "" := by decide
  have hpath : Path.ofNames ([] ++ [name]) = ⟨name⟩ := by
    rw [List.nil_append, Path.ofNames, String.intercalate_singleton]
  have hnames : ∀ n ∈ [] ++ [name], KeyName n := List.forall_mem_singleton.mpr h
  obtain ⟨there, hlocate, hfile⟩ := Disk.locate_holding h noNul short
  have hresolve : Records.resolve r.root ⟨name⟩ = .ok (r.root.join ⟨name⟩) := by
    rw [← hpath]
    exact Records.resolve_ofNames r.root hnames
  have hstat : r.store (.stat ⟨name⟩) = .ok ⟨false, true, 0, some 0⟩ :=
    Records.stat_file_of_locate hresolve hlocate hfile
  have hfree : ∀ l, r.disk.refusal? .read l = none := Disk.refusal?_of_free rfl .read
  have hread : r.store (.read (.ofNames ([] ++ [name]))) = .ok [] := by
    rw [hpath]
    exact Records.read_of_locate hresolve hlocate (hfree _) hfile
  obtain ⟨listed, hlist⟩ := Records.listsWay_of_free hroot hfree hnames hread [] List.nil_prefix
  have honce : listed.count name = 1 :=
    Records.count_listed_above (Disk.proper_holding h.toPlainName) hnames (hpath ▸ hlocate) hlist
  exact Walker.endsWith_of_look .here (List.forall_mem_nil _) h.toPlainName (List.forall_mem_nil _)
    h.visible hlist honce hpath hstat rfl rfl

/-- So it is printed. -/
theorem output_naming (h : KeyName name) (noNul : '\x00' ∉ name.toList)
    (short : name.utf8ByteSize ≤ Disk.maxName) :
    ((naming name).run (.holding name) ⟨"/etc/fsroot.toml"⟩).output = name ++ "\t0\n" := by
  have hparse : Pattern.parse ((naming name).queryOver {}) = .ok ⟨.literal name, []⟩ :=
    Pattern.parse_of_noStar h.toPlainName h.noStar
  obtain ⟨files, last, hends, houtput⟩ := exists_output (Disk.proper_holding h.toPlainName)
    ⟨"/etc/fsroot.toml"⟩ rfl (base_naming name) hparse
  obtain rfl : files = [⟨⟨name⟩, ⟨false, true, 0, some 0⟩, none⟩] :=
    hends.files_unique (endsWith_naming h noNul short)
  rw [houtput, List.map_singleton, unlines, List.map_singleton, String.join_cons, String.join_nil,
    String.append_empty, Match.line_eq_columns, String.append_assoc, String.append_assoc]
  have hbehind : "\t" ++ (toString 0 ++ "\n") = "\t0\n" := by decide
  exact congrArg (name ++ ·) hbehind

end SelectRequest

/-- A name with a tab in it does no harm. -/
theorem lines_are_matches_iff_tab :
    let words := ["select", "--root", "/srv", "c\td"]
    let d : Disk := .holding "c\td"
    let r : SelectRequest := .naming "c\td"
    d.Proper ∧ Request.ofWords words = .ok (.select r) ∧ r.json = false ∧
      r.base d ⟨"/etc/fsroot.toml"⟩ = .ok {} ∧
      ∃ outcome, runCommand d ⟨"/etc/fsroot.toml"⟩ words = .ok outcome ∧
        (Text.lines outcome.output).map Text.cutAtLastTab = [some ("c\td", "0")] := by
  intro words d r
  have hname : KeyName "c\td" := by decide
  have proper : d.Proper := Disk.proper_holding hname.toPlainName
  have valid : Request.ofWords words = .ok (.select r) := by decide +kernel
  have loads : r.base d ⟨"/etc/fsroot.toml"⟩ = .ok {} := SelectRequest.base_naming "c\td"
  refine ⟨proper, valid, rfl, loads, ?_⟩
  obtain ⟨outcome, hrun, _, hprints⟩ :=
    lines_are_matches_iff proper ⟨"/etc/fsroot.toml"⟩ valid rfl loads
  obtain ⟨files, last, hends, _, _, hcut⟩ :=
    hprints ⟨.literal "c\td", []⟩ (Pattern.parse_of_noStar hname.toPlainName hname.noStar)
  obtain rfl : files = [⟨⟨"c\td"⟩, ⟨false, true, 0, some 0⟩, none⟩] :=
    hends.files_unique (SelectRequest.endsWith_naming hname (by decide) (by decide))
  refine ⟨outcome, hrun, (hcut.mpr ?_).trans rfl⟩
  exact List.forall_mem_singleton.mpr (by decide)

/-- **A name with a line break in it takes two lines**, although there is one match, and the
first of them cannot be cut. -/
theorem name_with_break_takes_two_lines :
    let words := ["select", "--root", "/srv", "a\nb"]
    let d : Disk := .holding "a\nb"
    let r : SelectRequest := .naming "a\nb"
    d.Proper ∧ Request.ofWords words = .ok (.select r) ∧ r.json = false ∧
      r.base d ⟨"/etc/fsroot.toml"⟩ = .ok {} ∧
      (∃ p, Pattern.parse (r.queryOver {}) = .ok p ∧
        (Walker.start p (r.optionsOver {})).EndsWith (Records.store ⟨d, r.root⟩)
          [.found ⟨⟨"a\nb"⟩, ⟨false, true, 0, some 0⟩, none⟩, .finished]) ∧
      ∃ outcome, runCommand d ⟨"/etc/fsroot.toml"⟩ words = .ok outcome ∧
        outcome.output = "a\nb\t0\n" ∧
        Text.lines outcome.output = ["a", "b\t0"] ∧ Text.cutAtLastTab "a" = none := by
  intro words d r
  have hname : KeyName "a\nb" := by decide
  have valid : Request.ofWords words = .ok (.select r) := by decide +kernel
  have houtput : (r.run d ⟨"/etc/fsroot.toml"⟩).output = "a\nb\t0\n" :=
    SelectRequest.output_naming hname (by decide) (by decide)
  have hrun : runCommand d ⟨"/etc/fsroot.toml"⟩ words = .ok (r.run d ⟨"/etc/fsroot.toml"⟩) := by
    rw [runCommand, valid]
    rfl
  refine ⟨Disk.proper_holding hname.toPlainName, valid, rfl, SelectRequest.base_naming "a\nb",
    ⟨_, Pattern.parse_of_noStar hname.toPlainName hname.noStar,
      SelectRequest.endsWith_naming hname (by decide) (by decide)⟩, _, hrun, houtput, ?_, by decide⟩
  rw [houtput]
  decide

end TreeQuery
