import TreeQuery.Walk.Traversal
import TreeQuery.Proofs.Frames

/-!
# Visits said with frames

The plain recursion of `TreeQuery.Walk.Traversal` knows no frames: it surveys a
directory and goes on with what it found. Here each part of it is shown to be
what a frame does – statting is `together`, loading is `survey`, making a match
is `lookAt` – and so a visit is said again with frames (`visit_eq_load`): load
the frame of the directory, then do for each entry what the frame's action says.

Both sides are computations, and they are equal as computations: the same calls
in the same order, whatever the answers and whenever they come. Statting one by one
is another computation. It comes to the same where refusals come at once, and so
does then the visit that stats in this way (`run_visit_oneByOne`).
-/

namespace TreeQuery

/-- An entry from a name and what is known about it. -/
def Entry.ofPair (a : String × Metadata) : Entry :=
  ⟨a.1, a.2⟩

/-- The findings that come of making a match. -/
def Findings.ofMatch : Except WalkError (Option Match) → Findings
  | .error e => .stopped e
  | .ok none => {}
  | .ok (some m) => .one m

namespace Traversal

/-! ## The parts of a visit -/

/-- The answers to a batch as what it comes to, in terms of a frame. -/
def settled (dir : Path) (known : List (String × Except Refusal Metadata)) :
    Except Setback (List Entry) :=
  match (refusals known).argmin fun a => a.2.late with
  | some (name, r) => .error ⟨.stat (dir.entry name) r.cause, r.late⟩
  | none => .ok ((granted known).map Entry.ofPair)

theorem mapError_settled (dir : Path) (known : List (String × Except Refusal Metadata)) :
    (settled dir known).mapError Setback.error
      = (outcome dir known).map (List.map Entry.ofPair) := by
  unfold settled outcome
  cases (refusals known).argmin fun a => a.2.late with
  | none => rfl
  | some a => rfl

/-- A granted name is an entry in front of the others. -/
theorem settled_cons_ok (dir : Path) (n : String) (m : Metadata)
    (known : List (String × Except Refusal Metadata)) :
    settled dir ((n, .ok m) :: known) = (settled dir known).map (⟨n, m⟩ :: ·) := by
  unfold settled
  rw [show refusals ((n, .ok m) :: known) = refusals known from rfl]
  cases (refusals known).argmin fun a => a.2.late with
  | none => rfl
  | some a => rfl

/-- A refused name is weighed against the others. -/
theorem settled_cons_error (dir : Path) (n : String) (r : Refusal)
    (known : List (String × Except Refusal Metadata)) :
    settled dir ((n, .error r) :: known)
      = .error (Setback.against ⟨.stat (dir.entry n) r.cause, r.late⟩ (settled dir known)) := by
  unfold settled
  rw [show refusals ((n, .error r) :: known) = (n, r) :: refusals known from rfl, List.argmin_cons]
  cases (refusals known).argmin fun a => a.2.late with
  | none => rfl
  | some a =>
    by_cases hless : a.2.late < r.late
    · simp [hless, Setback.against]
    · simp [hless, Setback.against]

@[simp] theorem endsBatch_error {r : Refusal} : endsBatch (.error r) = true ↔ r.late = 0 :=
  decide_eq_true_iff

/-- **A batch is its answers, settled.** -/
theorem statEach_eq_answers (dir : Path) (names : List String) :
    statEach dir names = settled dir <$> answers dir names := by
  induction names with
  | nil => rfl
  | cons n names ih =>
    rw [statEach, answers, ih]
    refine congrArg (Access.ask (.stat (dir.entry n))) (funext fun answer => ?_)
    cases answer with
    | ok m =>
      show (_ <$> answers dir names) >>= _ = _ <$> (answers dir names >>= _)
      rw [map_eq_pure_bind, map_eq_pure_bind, bind_assoc, bind_assoc]
      refine congrArg (Bind.bind _) (funext fun known => ?_)
      exact congrArg Access.done (settled_cons_ok dir n m known).symm
    | error r =>
      show (if r.late = 0 then _ else _) = _ <$> (if endsBatch (.error r) = true then _ else _)
      by_cases hlate : r.late = 0
      · rw [if_pos hlate, if_pos (endsBatch_error.mpr hlate)]
        exact congrArg Access.done (settled_cons_error dir n r []).symm
      · rw [if_neg hlate, if_neg (mt endsBatch_error.mp hlate)]
        rw [map_eq_pure_bind, map_eq_pure_bind, bind_assoc, bind_assoc]
        refine congrArg (Bind.bind _) (funext fun known => ?_)
        exact congrArg Access.done (settled_cons_error dir n r known).symm

/-- **Statting in a batch is statting together.** -/
theorem statAll_eq_together (dir : Path) (names : List String) :
    statAll dir names = Except.map (List.map Entry.ofPair) <$> (together dir names).run := by
  show statEach dir names >>= _ = _ <$> (answers dir names >>= _)
  rw [statEach_eq_answers, map_eq_pure_bind, map_eq_pure_bind, bind_assoc, bind_assoc]
  refine congrArg (Bind.bind _) (funext fun known => ?_)
  exact congrArg Access.done (mapError_settled dir known)

/-- Sorting pairs sorts the entries that they make. -/
theorem map_mergeSort_ofPair (known : List (String × Metadata)) :
    (known.mergeSort fun a b =>
        a.2.isDir < b.2.isDir ∨ (a.2.isDir = b.2.isDir ∧ a.1 ≤ b.1)).map Entry.ofPair
      = (known.map Entry.ofPair).mergeSort Entry.precedes := by
  refine List.map_mergeSort (fun a _ b _ => ?_)
  have hlt : (false < true) ∧ ¬ (true < false) := by decide
  unfold Entry.precedes Entry.ofPair
  cases a.2.isDir <;> cases b.2.isDir <;> simp [hlt]

/-- **Loading a frame is surveying its directory.** -/
theorem load_eq_survey (f : Frame) (o : WalkOptions) :
    f.load o = Except.map (List.map Entry.ofPair) <$>
      (survey together o f.directory fun n => f.recursive || f.segment.accepts n).run := by
  unfold Frame.load survey
  refine congrArg (Access.ask (.list f.directory)) (funext fun answer => ?_)
  cases answer with
  | error e => rfl
  | ok names =>
    have hkeeps : f.keeps o = fun n => !o.ignore n && (f.recursive || f.segment.accepts n) := rfl
    show (statAll f.directory (names.filter (f.keeps o)) >>= _)
      = _ <$> (ExceptT.run (together _ _) >>= _)
    rw [statAll_eq_together, hkeeps, map_eq_pure_bind, map_eq_pure_bind, bind_assoc, bind_assoc]
    refine congrArg (Bind.bind _) (funext fun known => ?_)
    cases known with
    | error e => rfl
    | ok known =>
      refine congrArg (fun l => Access.done (Except.ok l))
        (show o.arrange (known.map Entry.ofPair) = List.map Entry.ofPair (ite _ _ _) from ?_)
      rw [apply_ite (List.map Entry.ofPair), map_mergeSort_ofPair]
      rfl

/-- **Looking at a file** finds the match that is made of it. -/
theorem lookAt_eq_matchOf (o : WalkOptions) (path : Path) (name : String) (m : Metadata) :
    lookAt o path name m = Findings.ofMatch <$> matchOf o path ⟨name, m⟩ := by
  unfold lookAt matchOf
  cases o.mode with
  | stats => rfl
  | content =>
    simp only [reduceCtorEq, if_false]
    split
    · refine congrArg (Access.ask (.read path)) (funext fun answer => ?_)
      cases answer with
      | error e => rfl
      | ok bytes =>
        simp only [Access.bind]
        cases Json.parse bytes with
        | error e => rfl
        | ok value => rfl
    · rfl

/-- Doing something for each item that is made of another one. -/
theorem inTurn_map {α β : Type} (g : α → β) (visit : β → Access Findings) (items : List α) :
    inTurn (fun a => visit (g a)) items = inTurn visit (items.map g) := by
  induction items with
  | nil => rfl
  | cons a items ih => rw [List.map_cons, inTurn, inTurn, ih]

/-! ## Stances and frames -/

/-- A frame that has passed its `**` has nothing more to pass. -/
theorem past_stance {f : Frame} (hf : f.Passed) : past f.stance = f.stance := by
  unfold past Frame.stance
  split
  · next h => exact absurd (List.cons.inj (Prod.mk.inj h).1).1 hf.single
  · rfl

/-- Entering a directory takes the stance past the `**`. -/
theorem stance_enter {t : Segment} {rest : List Segment} (h : Normal (t :: rest)) (dir : Path)
    (r : Bool) : (Frame.enter dir r t rest).stance = past (t :: rest, r) := by
  by_cases ht : t = .globstar
  · subst ht
    obtain ⟨u, later, rfl, _⟩ := h.behind_globstar
    rfl
  · rw [Frame.enter_of_ne_globstar ht]
    unfold past Frame.stance
    split
    · next hs => exact absurd (List.cons.inj (Prod.mk.inj hs).1).1 ht
    · rfl

/-- A visit begins by going past the `**`. -/
theorem visit_past (o : WalkOptions) (levels : Nat) (dir : Path) {stance : Stance}
    (h : past (past stance) = past stance) :
    visit together o levels dir (past stance) = visit together o levels dir stance := by
  cases levels with
  | zero => rfl
  | succ levels => unfold visit; rw [h]

/-- **Visiting an entered directory** is visiting it for the segments that were
due. -/
theorem visit_enter {t : Segment} {rest : List Segment} (h : Normal (t :: rest))
    (o : WalkOptions) (levels : Nat) (dir : Path) (r : Bool) :
    visit together o levels dir (Frame.enter dir r t rest).stance
      = visit together o levels dir (t :: rest, r) := by
  have hpast := past_stance (Frame.passed_enter h dir r)
  rw [stance_enter h] at hpast ⊢
  exact visit_past o levels dir hpast

/-! ## Visits with frames -/

/-- What a visit does about an entry, as the frame's action says. -/
def visitEntry (o : WalkOptions) (levels : Nat) (f : Frame) (e : Entry) : Access Findings :=
  match f.action e with
  | .skip => pure {}
  | .descend g => visit together o levels g.directory g.stance
  | .emit => Findings.ofMatch <$> matchOf o (f.pathOf e) e

/-- What a visit does about a directory. -/
theorem visitEntry_of_isDir {f : Frame} (hf : f.Passed) (o : WalkOptions) (levels : Nat)
    {e : Entry} (hd : e.metadata.isDir = true) :
    visitEntry o levels f e =
      if f.later ≠ [] ∧ (!f.recursive || f.segment.accepts e.name) = true then
        visit together o levels (f.pathOf e) (f.later, false)
      else if f.recursive then visit together o levels (f.pathOf e) (f.segment :: f.later, true)
      else pure {} := by
  have hnormal := hf.normal.tail
  unfold visitEntry Frame.action
  rw [if_pos hd]
  cases hl : f.later with
  | nil =>
    cases hr : f.recursive with
    | false => simp
    | true => simp [Frame.deeper, Frame.stance, hr, hl]
  | cons t rest =>
    rw [hl] at hnormal
    cases hr : f.recursive with
    | false => simp [visit_enter hnormal]
    | true =>
      cases ha : f.segment.accepts e.name with
      | false => simp [Frame.deeper, Frame.stance, hr, hl]
      | true => simp [visit_enter hnormal]

/-- What a visit does about a file. -/
theorem visitEntry_of_file (f : Frame) (o : WalkOptions) (levels : Nat) {e : Entry}
    (hd : e.metadata.isDir = false) :
    visitEntry o levels f e =
      if f.later = [] ∧ f.segment.accepts e.name = true then
        lookAt o (f.pathOf e) e.name e.metadata
      else pure {} := by
  unfold visitEntry Frame.action Frame.isLast
  rw [if_neg (by simp [hd])]
  by_cases ha : f.later = [] ∧ f.segment.accepts e.name = true
  · rw [if_pos ha, if_pos (by simp [ha.1, ha.2]), lookAt_eq_matchOf]
  · rw [if_neg ha, if_neg (by simpa using ha)]

/-- **A visit loads a frame and goes through its entries.** -/
theorem visit_eq_load {f : Frame} (hf : f.Passed) (o : WalkOptions) (levels : Nat) :
    visit together o (levels + 1) f.directory f.stance = (do
      match ← f.load o with
      | .error e => pure (.stopped e)
      | .ok entries => inTurn (visitEntry o levels f) entries) := by
  unfold visit
  rw [past_stance hf, load_eq_survey, map_eq_pure_bind, bind_assoc]
  refine congrArg (Bind.bind _) (funext fun surveyed => ?_)
  cases surveyed with
  | error e => rfl
  | ok known =>
    refine Eq.trans ?_ (inTurn_map Entry.ofPair (visitEntry o levels f) known)
    refine congrArg (inTurn · known) (funext fun a => ?_)
    obtain ⟨name, m⟩ := a
    cases hd : m.isDir with
    | true =>
      have hentry : (Entry.ofPair (name, m)).metadata.isDir = true := hd
      exact (if_pos hd).trans (visitEntry_of_isDir hf o levels hentry).symm
    | false =>
      have hentry : (Entry.ofPair (name, m)).metadata.isDir = false := hd
      exact (if_neg (Bool.eq_false_iff.mp hd)).trans (visitEntry_of_file f o levels hentry).symm

/-! ## One name after the other -/

theorem oneByOne_cons (dir : Path) (n : String) (names : List String) :
    (oneByOne dir (n :: names)).run = Access.ask (.stat (dir.entry n)) fun
      | .ok m => Except.map ((n, m) :: ·) <$> (oneByOne dir names).run
      | .error r => pure (.error (.stat (dir.entry n) r.cause)) := by
  unfold oneByOne
  rw [List.mapM_cons]
  refine congrArg (Access.ask (.stat (dir.entry n))) (funext fun answer => ?_)
  cases answer with
  | error r => rfl
  | ok m =>
    show (ExceptT.run (oneByOne dir names) >>= _ : Access _) = _ <$> ExceptT.run (oneByOne dir names)
    rw [map_eq_pure_bind]
    refine congrArg (Bind.bind _) (funext fun known => ?_)
    cases known with
    | error e => rfl
    | ok known => rfl

theorem together_cons (dir : Path) (n : String) (names : List String) :
    (together dir (n :: names)).run = Access.ask (.stat (dir.entry n)) fun answer =>
      if endsBatch answer then pure (outcome dir [(n, answer)])
      else (fun known => outcome dir ((n, answer) :: known)) <$> answers dir names := by
  refine congrArg (Access.ask (.stat (dir.entry n))) (funext fun answer => ?_)
  show (ite (endsBatch answer = true) _ _ >>= _ : Access _) = _
  by_cases h : endsBatch answer = true
  · rw [if_pos h, if_pos h]
    rfl
  · rw [if_neg h, if_neg h, map_eq_pure_bind]
    exact bind_assoc _ _ _

theorem outcome_cons_ok (dir : Path) (n : String) (m : Metadata)
    (known : List (String × Except Refusal Metadata)) :
    outcome dir ((n, .ok m) :: known) = (outcome dir known).map ((n, m) :: ·) := by
  unfold outcome
  rw [show refusals ((n, .ok m) :: known) = refusals known from rfl]
  cases (refusals known).argmin fun a => a.2.late with
  | none => rfl
  | some a => rfl

variable {s : Store}

/-- **Where refusals come at once**, a batch is stopped by the first one, as it is when names
are statted one by one. -/
theorem run_oneByOne (hs : s.RefusesAtOnce) (dir : Path) (names : List String) :
    (oneByOne dir names).run.run s = (together dir names).run.run s := by
  induction names with
  | nil => rfl
  | cons n names ih =>
    rw [oneByOne_cons, together_cons, Access.run_ask, Access.run_ask]
    cases hn : s (.stat (dir.entry n)) with
    | error r =>
      rw [if_pos (endsBatch_error.mpr (hs _ r hn))]
      rfl
    | ok m =>
      have hgoesOn : (together dir names).run = outcome dir <$> answers dir names := rfl
      rw [if_neg (by simp [endsBatch]), Access.run_map, Access.run_map, ih, hgoesOn,
        Access.run_map, outcome_cons_ok]

theorem run_inTurn_congr {α : Type} {visit visit' : α → Access Findings}
    (h : ∀ a, (visit a).run s = (visit' a).run s) (items : List α) :
    (inTurn visit items).run s = (inTurn visit' items).run s := by
  induction items with
  | nil => rfl
  | cons a items ih =>
    rw [inTurn, inTurn, Access.run_bind, Access.run_bind, h a]
    split
    · rfl
    · rw [Access.run_bind, Access.run_bind, ih]

theorem run_survey_congr {stats stats' : Statting}
    (h : ∀ dir names, (stats dir names).run.run s = (stats' dir names).run.run s)
    (o : WalkOptions) (dir : Path) (matters : String → Bool) :
    (survey stats o dir matters).run.run s = (survey stats' o dir matters).run.run s := by
  show (Access.ask (.list dir) _).run s = (Access.ask (.list dir) _).run s
  rw [Access.run_ask, Access.run_ask]
  cases s (.list dir) with
  | error r => rfl
  | ok names =>
    have hrest : ∀ f : _ → Access (Except WalkError (List (String × Metadata))),
        ((stats dir (names.filter fun n => !o.ignore n && matters n)).run >>= f).run s
          = ((stats' dir (names.filter fun n => !o.ignore n && matters n)).run >>= f).run s :=
      fun f => by rw [Access.run_bind, Access.run_bind, h]
    exact congrArg (fun r => (r.1, .list dir :: r.2)) (hrest _)

/-- **Recursions that stat in different ways come to the same** on a store where their ways of
statting do. -/
theorem run_visit_congr {stats stats' : Statting}
    (h : ∀ dir names, (stats dir names).run.run s = (stats' dir names).run.run s)
    (o : WalkOptions) (levels : Nat) (dir : Path) (stance : Stance) :
    (visit stats o levels dir stance).run s = (visit stats' o levels dir stance).run s := by
  induction levels generalizing dir stance with
  | zero => rfl
  | succ levels ih =>
    unfold visit
    split
    · rfl
    · rw [Access.run_bind, Access.run_bind, run_survey_congr h]
      split
      · rfl
      · rw [run_inTurn_congr fun a => ?_]
        dsimp only
        split
        · split
          · exact ih _ _
          · split
            · exact ih _ _
            · rfl
        · rfl

end Traversal

end TreeQuery
