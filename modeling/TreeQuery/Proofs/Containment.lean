import Mathlib.Data.List.Basic
import TreeQuery.Records
import TreeQuery.Proofs.Paths

/-!
# No path leads out of a root by its text

A root is joined with the path that is asked for, and joining has a way out: an absolute
path takes the place of the root. So a path is taken from the top first, which makes it
relative whatever slashes and dots it begins with, and what is resolved begins with the
root, part by part (`Path.parts_join`). The other way out is to go up; paths that do are
refused, and no others.

Loading a record takes its key from the top twice, once itself and once when the path is
resolved. The second time changes nothing, and so the path that a failure shows is the
one that the disk was asked about.
-/

namespace TreeQuery

/-- One part of a path, as it is gone along. -/
inductive PathPart
  /-- The slash at the front: begin at the top. -/
  | top
  /-- A `.` at the front: begin here. -/
  | here
  /-- Go up. -/
  | up
  | name (text : String)
  deriving DecidableEq, Repr

/-- The part that a piece which moves stands for. -/
def PathPart.ofPiece (piece : String) : PathPart :=
  if piece = ".." then up else name piece

namespace Path

/-- **The parts of a path**: where it begins, if it says so, and the pieces that move. -/
def parts (p : Path) : List PathPart :=
  (if p.isAbsolute then [.top] else if p.pieces.head? = some "." then [.here] else []) ++
    p.components.map .ofPiece

/-- Pieces of a path that does not go up are names. -/
theorem map_ofPiece_components {p : Path} (stays : ".." ∉ p.pieces) :
    p.components.map PathPart.ofPiece = p.components.map .name := by
  refine List.map_congr_left fun piece hpiece => if_neg ?_
  rintro rfl
  exact stays ((mem_components (by decide)).mp hpiece)

/-- The first piece stays, if there is anything in the path. -/
theorem head?_stem {p : Path} (hne : p.text ≠ "") : p.stem.head? = p.pieces.head? := by
  cases hneeds : p.needsSlash with
  | true => rw [stem, hneeds, if_pos rfl]
  | false =>
    rcases eq_of_needsSlash_eq_false hneeds with rfl | ⟨before, rfl⟩
    · exact absurd rfl hne
    · have hsplit := pieces_append_slash before ""
      rw [String.append_empty] at hsplit
      rw [stem_append_slash, hsplit, List.head?_append_of_ne_nil _ (pieces_ne_nil _)]

/-- **Joining keeps the parts** of a path that is not empty, and adds the pieces that
move. -/
theorem parts_join {p child : Path} (hne : p.text ≠ "") (relative : child.isAbsolute = false) :
    (p.join child).parts = p.parts ++ child.components.map .ofPiece := by
  have habs : (p.join child).isAbsolute = p.isAbsolute := by
    rw [join_of_relative relative, String.append_assoc, isAbsolute_append hne]
  have hhead : (p.join child).pieces.head? = p.pieces.head? := by
    have hstem : p.stem ≠ [] := fun h => by
      have hnone := head?_stem hne
      rw [h, List.head?_nil, eq_comm, List.head?_eq_none_iff] at hnone
      exact pieces_ne_nil p hnone
    rw [pieces_join relative, List.head?_append_of_ne_nil _ hstem, head?_stem hne]
  rw [parts, habs, hhead, components_join relative, List.map_append, ← List.append_assoc, parts]

end Path

namespace Records

/-- A path that goes up is refused, and no other one. -/
theorem resolve_of_goesUp {root p : Path} (h : ".." ∈ p.pieces) :
    resolve root p = .error (.permissionDenied s!"path escapes root: {p.fromTop}") := by
  have hup : p.fromTop.goesUp = true := by
    rwa [Path.goesUp_iff, Path.components_fromTop, Path.mem_components (by decide)]
  rw [resolve, if_pos hup]

theorem resolve_of_stays {root p : Path} (h : ".." ∉ p.pieces) :
    resolve root p = .ok (root.join p.fromTop) := by
  have hup : ¬ p.fromTop.goesUp = true := by
    rwa [Path.goesUp_iff, Path.components_fromTop, Path.mem_components (by decide)]
  rw [resolve, if_neg hup]

/-- A path that is resolved stays, and it is resolved to what it is from the top, joined to
the root. -/
theorem stays_of_resolve {root p full : Path} (h : resolve root p = .ok full) :
    ".." ∉ p.pieces ∧ full = root.join p.fromTop := by
  have hstays : ".." ∉ p.pieces := fun hup => by
    rw [resolve_of_goesUp hup] at h
    cases h
  rw [resolve_of_stays hstays] at h
  exact ⟨hstays, (Except.ok.inj h).symm⟩

/-- **What is resolved once is resolved twice**: the full path of a path from the top is
that path joined to the root, as it stands. -/
theorem eq_join_of_resolve {root p full : Path} (h : resolve root p.fromTop = .ok full) :
    full = root.join p.fromTop := by
  rw [(stays_of_resolve h).2, Path.fromTop_fromTop]

/-- What is asked about a path is asked about its full path. -/
theorem reach_of_resolve {α : Type} {r : Records} {p full : Path}
    (h : resolve r.root p = .ok full) (ask : Path → Except SystemError α) :
    r.reach p ask = (ask full).mapError (.ofSystem (r.disk.late full) full) := by
  rw [reach, h]

/-- **Loading a record** asks the disk about one path, and says so: a failure shows the
very path that was read. -/
theorem get_of_resolve {r : Records} {key : String} {full : Path}
    (h : resolve r.root (Path.mk key).fromTop = .ok full) :
    r.get key = match r.disk.read full with
      | .error e => .error (.read full (.ofSystem full e))
      | .ok bytes => (Json.parse bytes).mapError (.parse full) := by
  have hread : r.store (.read (Path.mk key).fromTop)
      = (r.disk.read full).mapError (.ofSystem (r.disk.late full) full) := reach_of_resolve h _
  unfold Records.get
  simp only [hread, ← eq_join_of_resolve h]
  cases r.disk.read full with
  | error e => rfl
  | ok bytes => rfl

/-- **No path leads out of a root by its text.** Let a root be given by a path that is not
empty. A path is refused, as one that may not be touched, exactly if one of its pieces is
`..`. Any other one is resolved, to a path that has the parts of the root and then the
pieces of the path that are neither empty nor `.`. And whatever the key of a record is, if
its path is resolved, then the failure to load it shows the full path that was read. -/
theorem resolve_keeps_root {root : Path} (hroot : root.text ≠ "") :
    (∀ p, (∃ subject, resolve root p = .error (.permissionDenied subject)) ↔ ".." ∈ p.pieces) ∧
      (∀ p, ".." ∉ p.pieces →
        ∃ full, resolve root p = .ok full ∧ full.parts = root.parts ++ p.components.map .name) ∧
      ∀ disk key full, resolve root (Path.mk key).fromTop = .ok full →
        get ⟨disk, root⟩ key = match disk.read full with
          | .error e => .error (.read full (.ofSystem full e))
          | .ok bytes => (Json.parse bytes).mapError (.parse full) := by
  refine ⟨fun p => ⟨fun ⟨subject, h⟩ => ?_, fun h => ⟨_, resolve_of_goesUp h⟩⟩, fun p h => ?_,
    fun disk key full h => get_of_resolve (r := ⟨disk, root⟩) h⟩
  · by_contra hstays
    rw [resolve_of_stays hstays] at h
    cases h
  · refine ⟨_, resolve_of_stays h, ?_⟩
    rw [Path.parts_join hroot p.isAbsolute_fromTop, Path.components_fromTop,
      Path.map_ofPiece_components h]

/-- Slashes and dots at the front of a path and in it, below a root that begins at the top;
and the same path as a key. -/
theorem resolve_keeps_root_slashes :
    (⟨"/srv/records"⟩ : Path).text ≠ "" ∧
      (∃ full, resolve ⟨"/srv/records"⟩ ⟨"///./users/.//amy.json"⟩ = .ok full ∧
        full.parts = [.top, .name "srv", .name "records", .name "users", .name "amy.json"]) ∧
      ∀ disk : Disk, get ⟨disk, ⟨"/srv/records"⟩⟩ "///./users/.//amy.json" =
        match disk.read ⟨"/srv/records/users/.//amy.json"⟩ with
          | .error e => .error (.read ⟨"/srv/records/users/.//amy.json"⟩
              (.ofSystem ⟨"/srv/records/users/.//amy.json"⟩ e))
          | .ok bytes =>
              (Json.parse bytes).mapError (.parse ⟨"/srv/records/users/.//amy.json"⟩) := by
  have hroot : (⟨"/srv/records"⟩ : Path).text ≠ "" := by decide
  obtain ⟨_, hresolved, hget⟩ := resolve_keeps_root hroot
  obtain ⟨full, hfull, hparts⟩ := hresolved ⟨"///./users/.//amy.json"⟩ (by decide)
  exact ⟨hroot, ⟨full, hfull, hparts.trans (by decide)⟩, fun disk => hget disk _ _ (by decide)⟩

end Records

end TreeQuery
