import TreeQuery.Proofs.Paths
import TreeQuery.Proofs.Soundness

/-!
# Walking below a directory

A query that begins with names asks for what the rest of it asks for below a directory.
A walk for it goes down to that directory first, one listing and one stat for each name,
and is then the walk for the rest (`Walker.walks_alike_below`).

What is below a directory is a store again (`Store.below`): paths are put behind the
directory before anything is asked about them. So two walks are compared, step by step:
the one in that store, and the one that has come down to the directory in the whole store.
Their frames differ by the directory in front (`Frame.below`), and by the frames that the
second walk still has on its stack from the way down. These are spent, and so they matter at
the end only, where they are dropped. The invariant is that the frames of
the first walk are at paths that spell plain names (`Walker.Sound`): only of such paths is
it true that an entry below the directory is the entry of the directory below it.
-/

namespace TreeQuery

/-! ## The store below a directory -/

/-- The path `p` below the directory `dir`. The empty path is the directory itself. -/
def Path.below (dir p : Path) : Path :=
  if p = .root then dir else dir.join p

/-- **Below a directory paths go on with their names.** -/
theorem Path.below_ofNames {ds names : List String} (hds : ∀ d ∈ ds, PlainName d)
    (hnames : ∀ n ∈ names, PlainName n) :
    (ofNames ds).below (ofNames names) = ofNames (ds ++ names) := by
  by_cases hn : names = []
  · rw [hn, ofNames_nil, below, if_pos rfl, List.append_nil]
  · rw [below, if_neg (ofNames_ne_root hn hnames)]
    rcases List.eq_nil_or_concat ds with rfl | ⟨init, last, rfl⟩
    · rw [ofNames_nil, root_join, List.nil_append]
    · rw [List.concat_eq_append] at hds ⊢
      have hlast : PlainName last := hds last (by simp)
      rw [join_of_relative (isAbsolute_ofNames hnames), needsSlash_ofNames hlast, if_pos rfl,
        ofNames, ofNames, ofNames, String.intercalate_append_of_ne_nil (by simp) hn]

/-- An entry of a directory lies below `dir` as an entry of that directory below `dir`. -/
theorem Path.below_entry {ds names : List String} {name : String} (hds : ∀ d ∈ ds, PlainName d)
    (hnames : ∀ n ∈ names, PlainName n) (h : PlainName name) :
    (ofNames ds).below ((ofNames names).entry name) = (ofNames (ds ++ names)).entry name := by
  rw [entry_ofNames hnames h, entry_ofNames (List.forall_mem_append.mpr ⟨hds, hnames⟩) h,
    below_ofNames hds (List.forall_mem_append.mpr ⟨hnames, List.forall_mem_singleton.mpr h⟩),
    List.append_assoc]

/-- The call that is made below a directory. -/
def Call.below (dir : Path) : Call → Call
  | list p => list (dir.below p)
  | stat p => stat (dir.below p)
  | read p => read (dir.below p)

/-- **The store below a directory**: what is answered about a path is the answer about
that path below the directory. -/
def Store.below (s : Store) (dir : Path) : Store
  | .list p => s (.list (dir.below p))
  | .stat p => s (.stat (dir.below p))
  | .read p => s (.read (dir.below p))

/-- The match below a directory. -/
def Match.below (dir : Path) (m : Match) : Match :=
  { m with path := dir.below m.path }

/-- The failure below a directory. -/
def WalkError.below (dir : Path) : WalkError → WalkError
  | list p e => list (dir.below p) e
  | stat p e => stat (dir.below p) e
  | read p e => read (dir.below p) e
  | parse p e => parse (dir.below p) e

/-- The setback below a directory. It comes as late. -/
def Setback.below (dir : Path) (b : Setback) : Setback :=
  { b with error := b.error.below dir }

theorem Setback.below_against {α : Type} (dir : Path) (b : Setback) (result : Except Setback α) :
    (b.against result).below dir = (b.below dir).against (result.mapError (Setback.below dir)) := by
  cases result with
  | ok a => rfl
  | error later => exact apply_ite (Setback.below dir) _ _ _

/-- The event below a directory. -/
def WalkEvent.below (dir : Path) : WalkEvent → WalkEvent
  | found m => found (m.below dir)
  | finished => finished
  | failed e => failed (e.below dir)

theorem Store.ListsPlain.below {s : Store} (h : s.ListsPlain) (dir : Path) :
    (s.below dir).ListsPlain :=
  fun p names hlist => h (dir.below p) names hlist

/-! ## Frames below a directory -/

variable {s : Store} {o : WalkOptions} {ds names : List String}

/-- **Names are statted below a directory** as they are in the store below it. -/
theorem run_statEach_below (hds : ∀ d ∈ ds, PlainName d) (hnames : ∀ n ∈ names, PlainName n)
    {listed : List String} (hlisted : ∀ n ∈ listed, PlainName n) :
    (statEach (.ofNames (ds ++ names)) listed).run s
      = (((statEach (.ofNames names) listed).run (s.below (.ofNames ds))).1.mapError
            (.below (.ofNames ds)),
        ((statEach (.ofNames names) listed).run (s.below (.ofNames ds))).2.map
          (.below (.ofNames ds))) := by
  induction listed with
  | nil => rfl
  | cons n listed ih =>
    obtain ⟨hn, hrest⟩ := List.forall_mem_cons.mp hlisted
    have hpath := Path.below_entry hds hnames hn
    have hstat : s.below (.ofNames ds) (.stat ((Path.ofNames names).entry n))
        = s (.stat ((Path.ofNames (ds ++ names)).entry n)) := hpath ▸ rfl
    have hcall : (Call.stat ((Path.ofNames names).entry n)).below (.ofNames ds)
        = .stat ((Path.ofNames (ds ++ names)).entry n) := congrArg Call.stat hpath
    have herror : ∀ e, (WalkError.stat ((Path.ofNames names).entry n) e).below (.ofNames ds)
        = .stat ((Path.ofNames (ds ++ names)).entry n) e := fun e => by
      rw [WalkError.below, hpath]
    cases hs : s (.stat ((Path.ofNames (ds ++ names)).entry n)) with
    | ok m =>
      rw [run_statEach_of_ok hs, run_statEach_of_ok (hstat.trans hs), ih hrest, List.map_cons,
        hcall]
      cases ((statEach (.ofNames names) listed).run (s.below (.ofNames ds))).1 <;> rfl
    | error r =>
      by_cases hlate : r.late = 0
      · rw [run_statEach_of_atOnce hs hlate, run_statEach_of_atOnce (hstat.trans hs) hlate,
          List.map_singleton, hcall, ← herror]
        rfl
      · rw [run_statEach_of_late hs hlate, run_statEach_of_late (hstat.trans hs) hlate, ih hrest,
          List.map_cons, hcall, ← herror]
        refine Prod.ext ?_ rfl
        exact congrArg Except.error (Setback.below_against (.ofNames ds)
          ⟨.stat ((Path.ofNames names).entry n) r.cause, r.late⟩ _).symm

theorem run_statAll_below (hds : ∀ d ∈ ds, PlainName d) (hnames : ∀ n ∈ names, PlainName n)
    {listed : List String} (hlisted : ∀ n ∈ listed, PlainName n)
    {result : Except WalkError (List Entry)} {calls : List Call}
    (h : (statAll (.ofNames names) listed).run (s.below (.ofNames ds)) = (result, calls)) :
    (statAll (.ofNames (ds ++ names)) listed).run s
      = (result.mapError (.below (.ofNames ds)), calls.map (.below (.ofNames ds))) := by
  rw [run_statAll] at h
  cases h
  rw [run_statAll, run_statEach_below hds hnames hlisted]
  cases ((statEach (.ofNames names) listed).run (s.below (.ofNames ds))).1 <;> rfl

/-- **A match is looked at below a directory** as it is in the store below it. -/
theorem run_matchOf_below {dir path : Path} {e : Entry}
    {result : Except WalkError (Option Match)} {calls : List Call}
    (h : (matchOf o path e).run (s.below dir) = (result, calls)) :
    (matchOf o (dir.below path) e).run s
      = ((result.mapError (.below dir)).map (Option.map (.below dir)), calls.map (.below dir)) := by
  unfold matchOf at h ⊢
  cases hmode : o.mode with
  | stats =>
    simp only [hmode] at h ⊢
    cases h
    rfl
  | content =>
    simp only [hmode] at h ⊢
    by_cases hname : isJsonName e.name = true
    · have hread : s.below dir (.read path) = s (.read (dir.below path)) := rfl
      rw [if_pos hname] at h ⊢
      simp only [Access.read, Access.bind_ask, Access.bind_done, Access.run_ask, hread] at h ⊢
      cases hs : s (.read (dir.below path)) with
      | error cause =>
        simp only [hs] at h ⊢
        cases h
        rfl
      | ok bytes =>
        cases hp : Json.parse bytes with
        | error cause | ok value =>
          simp only [hs, hp] at h ⊢
          cases h
          rfl
    · rw [if_neg hname] at h ⊢
      cases h
      rfl

/-- **A frame that is spent**: it has no entry ahead. -/
def Frame.Spent (f : Frame) : Prop :=
  ∃ taken, f.cursor = some ⟨taken, []⟩

/-- The frame of a directory that lies below `dir`. -/
def Frame.below (dir : Path) (f : Frame) : Frame :=
  { f with directory := dir.below f.directory }

/-- What is done about an entry, below a directory. -/
def Action.below (dir : Path) : Action → Action
  | skip => skip
  | descend f => descend (f.below dir)
  | emit => emit

namespace Frame

theorem below_enter (dir path : Path) (r : Bool) (t : Segment) (rest : List Segment) :
    (enter path r t rest).below dir = enter (dir.below path) r t rest := by
  unfold enter
  split <;> rfl

/-- **A frame decides alike below a directory.** -/
theorem action_below {dir : Path} {f : Frame} {e : Entry}
    (hpath : (f.below dir).pathOf e = dir.below (f.pathOf e)) :
    (f.below dir).action e = (f.action e).below dir := by
  obtain ⟨directory, segment, later, recursive, cursor⟩ := f
  unfold action
  rw [hpath]
  by_cases hd : e.metadata.isDir = true
  · rw [if_pos hd, if_pos hd]
    match recursive, later with
    | false, [] => rfl
    | false, t :: rest => exact congrArg Action.descend (below_enter _ _ _ _ _).symm
    | true, [] => rfl
    | true, t :: rest =>
      by_cases ha : segment.accepts e.name = true
      · simp only [Frame.below, ha, if_true]
        exact congrArg Action.descend (below_enter _ _ _ _ _).symm
      · simp only [Frame.below, ha, Bool.false_eq_true, if_false]
        rfl
  · rw [if_neg hd, if_neg hd, apply_ite (Action.below dir)]
    rfl

variable {f : Frame} {p : Pattern}

/-- Entries go on below the directory. -/
theorem pathOf_below (hds : ∀ d ∈ ds, PlainName d) (hf : f.directory = .ofNames names)
    (hnames : ∀ n ∈ names, PlainName n) {e : Entry} (he : PlainName e.name) :
    (f.below (.ofNames ds)).pathOf e = (Path.ofNames ds).below (f.pathOf e) := by
  rw [pathOf, pathOf, below, hf, Path.below_entry hds hnames he, Path.below_ofNames hds hnames]

/-- **What is due lies below the directory too**, and is decided about alike. -/
theorem due_below {q : Pattern} (hds : ∀ d ∈ ds, PlainName d) (hf : f.Sound q o names)
    {taken ahead : List Entry} {e : Entry} (due : f.cursor = some ⟨taken, e :: ahead⟩) :
    (f.below (.ofNames ds)).pathOf e = (Path.ofNames ds).below (f.pathOf e) ∧
      (f.below (.ofNames ds)).action e = (f.action e).below (.ofNames ds) := by
  have hplain := (hf.ahead _ due e List.mem_cons_self).1
  have hpath := pathOf_below hds hf.directory hf.plain hplain
  exact ⟨hpath, action_below hpath⟩

/-- **A frame is loaded below a directory** as it is in the store below it. -/
theorem run_load_below (hds : ∀ d ∈ ds, PlainName d) (plain : s.ListsPlain)
    (hf : f.directory = .ofNames names) (hnames : ∀ n ∈ names, PlainName n)
    {result : Except WalkError (List Entry)} {calls : List Call}
    (h : (f.load o).run (s.below (.ofNames ds)) = (result, calls)) :
    ((f.below (.ofNames ds)).load o).run s
      = (result.mapError (.below (.ofNames ds)), calls.map (.below (.ofNames ds))) := by
  have hdir : (f.below (.ofNames ds)).directory = .ofNames (ds ++ names) := by
    rw [below, hf, Path.below_ofNames hds hnames]
  have hlist : s.below (.ofNames ds) (.list f.directory)
      = s (.list (f.below (.ofNames ds)).directory) := rfl
  cases hl : s (.list (f.below (.ofNames ds)).directory) with
  | error e =>
    rw [run_load_of_refused (hlist.trans hl)] at h
    rw [run_load_of_refused hl]
    cases h
    rfl
  | ok listed =>
    rw [run_load_of_listed (hlist.trans hl)] at h
    rw [run_load_of_listed hl]
    have hkept : ∀ n ∈ listed.filter (f.keeps o), PlainName n :=
      fun n hn => plain _ _ hl n (List.mem_filter.mp hn).1
    cases hr : (statAll (.ofNames names) (listed.filter (f.keeps o))).run
        (s.below (.ofNames ds)) with
    | mk known made =>
      have hkeeps : (f.below (.ofNames ds)).keeps o = f.keeps o := rfl
      rw [hf, hr] at h
      rw [hdir, hkeeps, run_statAll_below hds hnames hkept hr, ← Path.below_ofNames hds hnames]
      cases h
      cases known <;> rfl

end Frame

/-! ## Walks below a directory -/

namespace Walker

variable {P q : Pattern} {under : List Frame} {w v : Walker}

/-- **The walk below a directory**, as a part of a walk for the pattern `P` that has the
frames `under` left on its stack. -/
def below (dir : Path) (P : Pattern) (under : List Frame) (w : Walker) : Walker :=
  ⟨P, w.options, if w.halted then [] else w.stack.map (.below dir) ++ under, w.halted⟩

/-- Spent frames are dropped, one after the other. -/
theorem Reaches.dropped (hunder : ∀ f ∈ under, f.Spent) :
    Reaches s ⟨P, o, under, false⟩ [] [] ⟨P, o, [], false⟩ := by
  induction under with
  | nil => exact .refl s _
  | cons f under ih =>
    obtain ⟨⟨taken, spent⟩, hunder⟩ := List.forall_mem_cons.mp hunder
    exact (ih hunder).head (.pop spent)

/-- **A step below a directory** is a step of the walk that has come down to it. Only the
step that ends the walk is more than one: the frames on the way down are dropped first. -/
theorem Step.below (hds : ∀ d ∈ ds, PlainName d) (plain : s.ListsPlain)
    (hunder : ∀ f ∈ under, f.Spent) (hw : Sound q o w)
    {e : Option WalkEvent} {calls : List Call} (h : Step (s.below (.ofNames ds)) w e calls v) :
    Reaches s (w.below (.ofNames ds) P under) (e.map (.below (.ofNames ds))).toList
      (calls.map (.below (.ofNames ds))) (v.below (.ofNames ds) P under) := by
  obtain ⟨rfl, hstack⟩ := hw
  cases h with
  | rest ended => exact .refl s _
  | finish => exact (Reaches.dropped hunder).trans (.of_step .finish)
  | load fresh loaded =>
    obtain ⟨⟨names, hf⟩, _⟩ := List.forall_mem_cons.mp hstack
    exact .of_step (.load fresh (Frame.run_load_below hds plain hf.directory hf.plain loaded))
  | loadFailed fresh refused =>
    obtain ⟨⟨names, hf⟩, _⟩ := List.forall_mem_cons.mp hstack
    exact .of_step
      (.loadFailed fresh (Frame.run_load_below hds plain hf.directory hf.plain refused))
  | pop spent => exact .of_step (.pop spent)
  | skip due action =>
    obtain ⟨⟨names, hf⟩, _⟩ := List.forall_mem_cons.mp hstack
    exact .of_step (.skip due ((Frame.due_below hds hf due).2.trans (congrArg _ action)))
  | descend due action =>
    obtain ⟨⟨names, hf⟩, _⟩ := List.forall_mem_cons.mp hstack
    exact .of_step (.descend due ((Frame.due_below hds hf due).2.trans (congrArg _ action)))
  | @emit _ _ _ _ _ _ _ found _ due action read =>
    obtain ⟨⟨names, hf⟩, _⟩ := List.forall_mem_cons.mp hstack
    obtain ⟨hpath, hact⟩ := Frame.due_below hds hf due
    have hlook := run_matchOf_below read
    have hevent : (found.map WalkEvent.found).map (WalkEvent.below (.ofNames ds))
        = (found.map (Match.below (.ofNames ds))).map WalkEvent.found := by
      cases found <;> rfl
    rw [← hpath] at hlook
    rw [hevent]
    exact .of_step (.emit due (hact.trans (congrArg _ action)) hlook)
  | emitFailed due action refused =>
    obtain ⟨⟨names, hf⟩, _⟩ := List.forall_mem_cons.mp hstack
    obtain ⟨hpath, hact⟩ := Frame.due_below hds hf due
    have hlook := run_matchOf_below refused
    rw [← hpath] at hlook
    exact .of_step (.emitFailed due (hact.trans (congrArg _ action)) hlook)

/-- **A run below a directory** is a run of the walk that has come down to it. -/
theorem Reaches.below (hds : ∀ d ∈ ds, PlainName d) (plain : s.ListsPlain)
    (hunder : ∀ f ∈ under, f.Spent) (hw : Sound q o w)
    {es : List WalkEvent} {log : List Call} (h : Reaches (s.below (.ofNames ds)) w es log v) :
    Reaches s (w.below (.ofNames ds) P under) (es.map (.below (.ofNames ds)))
      (log.map (.below (.ofNames ds))) (v.below (.ofNames ds) P under) := by
  induction h using head_induction_on with
  | refl => exact .refl s _
  | @head u u' e calls es log first _ ih =>
    have hstep := first.below (P := P) hds plain hunder hw
    have hevents : (e.map (WalkEvent.below (.ofNames ds))).toList ++ es.map (.below (.ofNames ds))
        = (e.toList ++ es).map (.below (.ofNames ds)) := by
      cases e <;> rfl
    rw [← hevents, List.map_append]
    exact hstep.trans (ih (sound_step (plain.below _) hw first).1)

end Walker

/-! ## The way down -/

namespace Pattern

/-- The tokens of a query are the names of its text as a path. -/
theorem tokens_eq_names (query : String) : tokens query = (Path.mk query).names := by
  rw [tokens, Path.names, Path.pieces, List.filter_map]
  refine congrArg _ (List.filter_congr fun t _ => ?_)
  cases t <;> simp

/-- A plain token is the one token of its text. -/
theorem tokens_of_plain {token : String} (h : PlainName token) : tokens token = [token] := by
  have hnames := Path.names_ofNames (List.forall_mem_singleton.mpr h)
  rwa [Path.ofNames, String.intercalate_singleton, ← tokens_eq_names] at hnames

/-- A plain token in front of a query. -/
theorem tokens_cons {token : String} (h : PlainName token) (query : String) :
    tokens (token ++ "/" ++ query) = token :: tokens query := by
  have hfirst : (Path.mk token).names = [token] := tokens_eq_names token ▸ tokens_of_plain h
  rw [tokens_eq_names, tokens_eq_names, Path.names, Path.pieces_append_slash, List.filter_append]
  exact congrArg (· ++ _) hfirst

/-- A token without a star stands for itself. -/
theorem compile_of_noStar {token : String} (h : '*' ∉ token.toList) :
    Segment.compile token = .ok (.literal token) := by
  have hne : ∀ stars, '*' ∈ stars.toList → token ≠ stars := fun stars hmem heq => h (heq ▸ hmem)
  rw [Segment.compile, Segment.compileWith, if_neg (hne "**" (by decide)),
    if_neg (hne "*" (by decide)), if_pos h]

/-- What a query is compiled to. -/
theorem parse_eq_ok_iff {query : String} {q : Pattern} :
    parse query = .ok q ↔
      ∃ compiled, (tokens query).mapM Segment.compile = .ok compiled ∧
        close (collapse compiled) = q.segments := by
  unfold parse
  cases hc : (tokens query).mapM Segment.compile with
  | error e => simp [bind, Except.bind]
  | ok compiled =>
    simp only [bind, Except.bind, Except.ok.injEq, exists_eq_left']
    obtain ⟨first, rest⟩ := q
    cases hs : close (collapse compiled) with
    | nil => simp
    | cons s later => simp

/-- A query that is a token without a star. -/
theorem parse_of_noStar {token : String} (h : PlainName token) (star : '*' ∉ token.toList) :
    parse token = .ok ⟨.literal token, []⟩ := by
  refine parse_eq_ok_iff.mpr ⟨[.literal token], ?_, rfl⟩
  rw [tokens_of_plain h, List.mapM_cons, compile_of_noStar star]
  rfl

/-- **A token without a star** in front of a query is one more segment in front. -/
theorem parse_cons {token query : String} {q : Pattern} (h : PlainName token)
    (star : '*' ∉ token.toList) (hq : parse query = .ok q) :
    parse (token ++ "/" ++ query) = .ok ⟨.literal token, q.segments⟩ := by
  obtain ⟨compiled, hcompiled, hsegments⟩ := parse_eq_ok_iff.mp hq
  refine parse_eq_ok_iff.mpr ⟨.literal token :: compiled, ?_, ?_⟩
  · rw [tokens_cons h, List.mapM_cons, compile_of_noStar star, hcompiled]
    rfl
  · rw [segments_mk, ← hsegments]
    rfl

/-- The pattern behind so many literal names. -/
def behind (q : Pattern) : List String → Pattern
  | [] => q
  | d :: ds => ⟨.literal d, (q.behind ds).segments⟩

/-- Names behind names. -/
theorem behind_append (q : Pattern) (before after : List String) :
    q.behind (before ++ after) = (q.behind after).behind before := by
  induction before with
  | nil => rfl
  | cons d before ih => rw [List.cons_append, behind, behind, ih]

/-- **The query of a way down** and what it comes to at the end of it. -/
theorem parse_behind {query : String} {q : Pattern} {ds : List String}
    (hds : ∀ d ∈ ds, PlainName d) (star : ∀ d ∈ ds, '*' ∉ d.toList) (hq : parse query = .ok q) :
    parse (String.intercalate "/" (ds ++ [query])) = .ok (q.behind ds) := by
  induction ds with
  | nil => rwa [List.nil_append, String.intercalate_singleton]
  | cons d ds ih =>
    obtain ⟨hd, hds⟩ := List.forall_mem_cons.mp hds
    obtain ⟨hstar, star⟩ := List.forall_mem_cons.mp star
    rw [List.cons_append, String.intercalate_cons_of_ne_nil (by simp)]
    exact parse_cons hd hstar (ih hds star)

end Pattern

/-- **A way down** from the directory of the names `above`: each directory on it lists the
next name exactly once, and that name is a directory. -/
inductive Store.WayDown (s : Store) : (above ds : List String) → Prop
  | here {above : List String} : WayDown s above []
  | deeper {above ds listed : List String} {d : String} {m : Metadata}
      (lists : s (.list (.ofNames above)) = .ok listed) (once : listed.count d = 1)
      (stats : s (.stat (.ofNames (above ++ [d]))) = .ok m) (isDir : m.isDir = true)
      (rest : WayDown s (above ++ [d]) ds) : WayDown s above (d :: ds)

/-- The calls on a way down: a listing and a stat for each level. -/
def Call.down (above : List String) : List String → List Call
  | [] => []
  | d :: ds => list (.ofNames above) :: stat (.ofNames (above ++ [d])) :: down (above ++ [d]) ds

/-- **A literal segment loads one entry**: the one of its name, if that is listed exactly
once. -/
theorem Frame.run_load_literal {above listed : List String} {d : String} {m : Metadata}
    (rest : List Segment) (habove : ∀ n ∈ above, PlainName n) (hd : PlainName d)
    (kept : o.ignore d = false) (lists : s (.list (.ofNames above)) = .ok listed)
    (once : listed.count d = 1) (stats : s (.stat (.ofNames (above ++ [d]))) = .ok m) :
    ((⟨.ofNames above, .literal d, rest, false, none⟩ : Frame).load o).run s
      = (.ok [⟨d, m⟩], [.list (.ofNames above), .stat (.ofNames (above ++ [d]))]) := by
  have hkeeps : listed.filter (keeps ⟨.ofNames above, .literal d, rest, false, none⟩ o) = [d] := by
    have hsame : keeps ⟨.ofNames above, .literal d, rest, false, none⟩ o = (· == d) := by
      funext n
      by_cases hn : n = d
      · simp [keeps, hn, kept]
      · simp [keeps, hn, Ne.symm hn]
    rw [hsame, List.filter_beq, once, List.replicate_one]
  have hentry := Path.entry_ofNames habove hd
  have hstat : s (.stat ((Path.ofNames above).entry d)) = .ok m := hentry ▸ stats
  rw [run_load_of_listed lists, hkeeps, run_statAll, run_statEach_of_ok hstat]
  have harrange : o.arrange [⟨d, m⟩] = [⟨d, m⟩] := by simp [WalkOptions.arrange]
  rw [hentry]
  exact Prod.ext (congrArg Except.ok harrange) rfl

/-- One level of a way down. The frame that is left behind is spent. -/
theorem Walker.reaches_deeper {above listed : List String} {d : String} {m : Metadata}
    (habove : ∀ n ∈ above, PlainName n) (hd : PlainName d) (kept : o.ignore d = false)
    (lists : s (.list (.ofNames above)) = .ok listed) (once : listed.count d = 1)
    (stats : s (.stat (.ofNames (above ++ [d]))) = .ok m) (isDir : m.isDir = true) (P : Pattern)
    (t : Segment) (rest : List Segment) (stack : List Frame) :
    ∃ g : Frame, g.Spent ∧
      Reaches s ⟨P, o, ⟨.ofNames above, .literal d, t :: rest, false, none⟩ :: stack, false⟩
        [] [.list (.ofNames above), .stat (.ofNames (above ++ [d]))]
        ⟨P, o, .enter (.ofNames (above ++ [d])) false t rest :: g :: stack, false⟩ := by
  have hload := Frame.run_load_literal (t :: rest) habove hd kept lists once stats
  have haction : Frame.action
      ⟨.ofNames above, .literal d, t :: rest, false, some ⟨[], [⟨d, m⟩]⟩⟩ ⟨d, m⟩
        = .descend (.enter (.ofNames (above ++ [d])) false t rest) := by
    rw [← Path.entry_ofNames habove hd]
    exact if_pos isDir
  exact ⟨_, ⟨_, rfl⟩, (Reaches.of_step (.descend rfl haction)).head (.load rfl hload)⟩

/-- **Literal segments lead the walk down**: it makes the calls on the way and nothing
else, and leaves behind frames that are spent. -/
theorem Walker.reaches_down {above : List String} (way : s.WayDown above ds)
    (habove : ∀ n ∈ above, PlainName n) (hds : ∀ d ∈ ds, PlainName d)
    (kept : ∀ d ∈ ds, o.ignore d = false) (P q : Pattern) (stack : List Frame) :
    ∃ under, (∀ f ∈ under, f.Spent) ∧
      Reaches s
        ⟨P, o, .enter (.ofNames above) false (q.behind ds).first (q.behind ds).rest :: stack, false⟩
        [] (Call.down above ds)
        ⟨P, o, .enter (.ofNames (above ++ ds)) false q.first q.rest :: (under ++ stack),
          false⟩ := by
  induction way generalizing stack with
  | here =>
    rw [List.append_nil]
    exact ⟨[], by simp, .refl s _⟩
  | @deeper above ds listed d m lists once stats isDir _ ih =>
    obtain ⟨hd, hds⟩ := List.forall_mem_cons.mp hds
    obtain ⟨hkept, kept⟩ := List.forall_mem_cons.mp kept
    have hdeeper := List.forall_mem_append.mpr ⟨habove, List.forall_mem_singleton.mpr hd⟩
    obtain ⟨g, hspent, hlevel⟩ := reaches_deeper habove hd hkept lists once stats isDir P
      (q.behind ds).first (q.behind ds).rest stack
    obtain ⟨under, hunder, hrest⟩ := ih hdeeper hds kept (g :: stack)
    refine ⟨under ++ [g],
      List.forall_mem_append.mpr ⟨hunder, List.forall_mem_singleton.mpr hspent⟩, ?_⟩
    rw [List.append_cons above, List.append_assoc under]
    exact hlevel.trans hrest

namespace Walker

/-- **Walking below a directory is walking on from it.** Let listings be plain, and let
names without stars that are not ignored lead down to a directory, each of them listed
exactly once. If a query compiles, then so does the query that has these names in front.
Whatever the walk for the first one comes to in the store below the directory – after any
number of steps, at its end or on the way, with failures or without –, the walk for the
other one comes to in the whole store: the same events, with the directory in front of
the path of every match and failure. Its calls are a listing and a stat for each level on
the way down, and then the calls of the first walk, below the directory. -/
theorem walks_alike_below (plain : s.ListsPlain) {query : String} {q : Pattern}
    (hquery : Pattern.parse query = .ok q) (o : WalkOptions)
    (literal : ∀ d ∈ ds, PlainName d ∧ '*' ∉ d.toList ∧ o.ignore d = false)
    (way : s.WayDown [] ds) :
    ∃ p, Pattern.parse (String.intercalate "/" (ds ++ [query])) = .ok p ∧
      ∀ {es log w}, Reaches (s.below (.ofNames ds)) (start q o) es log w →
        ∃ v, v.halted = w.halted ∧
          Reaches s (start p o) (es.map (.below (.ofNames ds)))
            (Call.down [] ds ++ log.map (.below (.ofNames ds))) v ∧
          (w.halted = true → ∃ enough, ∀ bound count, enough ≤ bound → enough ≤ count →
            ((start q o).events bound count).run (s.below (.ofNames ds)) = ((w, es), log) ∧
            ((start p o).events bound count).run s
              = ((v, es.map (.below (.ofNames ds))),
                  Call.down [] ds ++ log.map (.below (.ofNames ds)))) := by
  have hplain : ∀ d ∈ ds, PlainName d := fun d hd => (literal d hd).1
  obtain ⟨under, hunder, hdown⟩ :=
    reaches_down way (by simp) hplain (fun d hd => (literal d hd).2.2) (q.behind ds) q []
  refine ⟨q.behind ds, Pattern.parse_behind hplain (fun d hd => (literal d hd).2.1) hquery,
    fun {es log w} h => ?_⟩
  have hbelow := h.below (P := q.behind ds) hplain plain hunder (sound_start q o)
  have hstart : (start q o).below (.ofNames ds) (q.behind ds) under
      = ⟨q.behind ds, o, .enter (.ofNames ds) false q.first q.rest :: under, false⟩ := by
    show Walker.mk _ _ (Frame.below _ (.enter .root false q.first q.rest) :: under) _ = _
    rw [Frame.below_enter, Path.below, if_pos rfl]
    rfl
  rw [hstart] at hbelow
  rw [List.append_nil, List.nil_append, Path.ofNames_nil] at hdown
  have hwhole : Reaches s (start (q.behind ds) o) _ _ _ := hdown.trans hbelow
  refine ⟨w.below (.ofNames ds) (q.behind ds) under, rfl, hwhole, fun ended => ?_⟩
  obtain ⟨m, hm⟩ := h.exists_run_events ended
  obtain ⟨m', hm'⟩ := hwhole.exists_run_events ended
  exact ⟨max m m', fun bound count hb hc =>
    ⟨hm bound count (by omega) (by omega), hm' bound count (by omega) (by omega)⟩⟩

/-- Below a directory in which a listing is refused, after a match. -/
theorem walks_alike_below_refusing :
    let s := Memory.refusing.store
    s.ListsPlain ∧ s.WayDown [] ["a"] ∧
      ∃ q p, Pattern.parse "**/*.json" = .ok q ∧ Pattern.parse "a/**/*.json" = .ok p ∧
      ∃ es log w v, Reaches (s.below ⟨"a"⟩) (start q {}) es log w ∧ w.halted = true ∧
        es = [.found ⟨⟨"x.json"⟩, ⟨false, true, 0, none⟩, none⟩,
          .failed (.list ⟨"b"⟩ (.permissionDenied "a/b"))] ∧
        ∃ enough, ∀ bound count, enough ≤ bound → enough ≤ count →
          ((start p {}).events bound count).run s
            = ((v, [.found ⟨⟨"a/x.json"⟩, ⟨false, true, 0, none⟩, none⟩,
                  .failed (.list ⟨"a/b"⟩ (.permissionDenied "a/b"))]),
                .list .root :: .stat ⟨"a"⟩ :: log.map (.below ⟨"a"⟩)) := by
  intro s
  have hplain : s.ListsPlain := Memory.listsPlain_store (by decide)
  have hquery : Pattern.parse "**/*.json" = .ok ⟨.globstar, [.wildcard "*.json"]⟩ := by decide
  have hway : s.WayDown [] ["a"] :=
    .deeper rfl rfl rfl rfl .here
  obtain ⟨p, hp, halike⟩ := walks_alike_below hplain hquery {} (by decide) hway
  have hreached : Reaches (s.below ⟨"a"⟩) (start ⟨.globstar, [.wildcard "*.json"]⟩ {})
      [.found ⟨⟨"x.json"⟩, ⟨false, true, 0, none⟩, none⟩,
        .failed (.list ⟨"b"⟩ (.permissionDenied "a/b"))] _ _ := ⟨5, rfl⟩
  obtain ⟨v, _, _, hend⟩ := halike hreached
  obtain ⟨enough, hevents⟩ := hend rfl
  exact ⟨hplain, hway, _, p, hquery, hp, _, _, _, v, hreached, rfl, rfl, enough,
    fun bound count hb hc => (hevents bound count hb hc).2⟩

end Walker

end TreeQuery
