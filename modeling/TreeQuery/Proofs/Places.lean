import TreeQuery.Proofs.Disks
import TreeQuery.Proofs.Ending

/-!
# How far a path can lead

A link may point to any place, the directory that holds it included, and a path may go
through it again and again. What a walk sees is then a tree far deeper than the disk is
high, and no place tells how long the path to it was.

The links that are followed tell. On a way that never goes up, a name that is no link leads
one level down, and the levels of a disk are few (`Disk.height`). A link may lead anywhere
and through other links, but at most from the depth where it stands to the top, and it uses
one of the links that are left. So the names of a path are paid for by the links that it
uses up, one height and one name for each, and by the depth that it ends at
(`Disk.Leads.length_moves_le`). As the links are counted, so are the names: there is a bound
on them that looks at nothing but the height (`Disk.farthest`).
-/

namespace TreeQuery

/-! ## Heights -/

mutual

/-- The most names that lead down from a node. -/
def DiskNode.height : DiskNode → Nat
  | .directory es => heightIn es
  | .file .. => 0
  | .link _ => 0

/-- The most names that lead down by one of these entries. -/
def heightIn : DiskEntries → Nat
  | [] => 0
  | (_, n) :: rest => max (n.height + 1) (heightIn rest)

end

/-- An entry is less high than its directory. -/
theorem height_lt_heightIn {es : DiskEntries} {e : DiskName × DiskNode} (h : e ∈ es) :
    e.2.height < heightIn es := by
  induction es with
  | nil => cases h
  | cons first rest ih =>
    rw [heightIn]
    rcases List.mem_cons.mp h with rfl | h
    · exact Nat.le_max_left _ _
    · exact Nat.lt_of_lt_of_le (ih h) (Nat.le_max_right _ _)

/-- An entry is not wider than the widest. -/
theorem width_le_widthIn {es : DiskEntries} {e : DiskName × DiskNode} (h : e ∈ es) :
    e.2.width ≤ widthIn es := by
  induction es with
  | nil => cases h
  | cons first rest ih =>
    rw [widthIn]
    rcases List.mem_cons.mp h with rfl | h
    · exact Nat.le_max_left _ _
    · exact Nat.le_trans (ih h) (Nat.le_max_right _ _)

namespace Disk

/-- The most names that lead down from the top. -/
def height (d : Disk) : Nat :=
  d.top.node.height

/-! ## The places of a disk -/

/-- **The places of a disk**: its top, and the entries of its directories. -/
inductive Has (d : Disk) : Place → Prop
  | top : Has d d.top
  | entry {p : Place} {es : DiskEntries} {name : DiskName} {n : DiskNode} (above : Has d p)
      (dir : p.node = .directory es) (mem : (name, n) ∈ es) : Has d (p.down name n)

variable {d : Disk} {links mid left : Nat} {here between there : Place}

namespace Has

theorem up (h : d.Has here) : d.Has here.up := by
  cases h with
  | top => exact .top
  | entry above _ _ => exact above

/-- The depth of a place and the height that is left there are within that of the disk. -/
theorem depth_add_height_le (h : d.Has here) :
    here.way.length + here.node.height ≤ d.height := by
  induction h with
  | top => exact Nat.le_of_eq (Nat.zero_add _)
  | @entry p es name n above dir mem ih =>
    have hlower := height_lt_heightIn mem
    rw [dir, DiskNode.height] at ih
    calc (p.down name n).way.length + n.height
        = p.way.length + (n.height + 1) := by rw [Place.down, List.length_cons]; omega
      _ ≤ p.way.length + heightIn es := Nat.add_le_add_left hlower _
      _ ≤ d.height := ih

theorem width_le (h : d.Has here) : here.node.width ≤ d.width := by
  induction h with
  | top => exact Nat.le_refl _
  | entry above dir mem ih =>
    rw [dir, DiskNode.width] at ih
    exact Nat.le_trans (width_le_widthIn mem) ((Nat.max_le.mp ih).2)

end Has

/-- A piece leads from place to place on the disk. -/
theorem Onward.has {piece : String} {ahead : List String} (hhere : d.Has here)
    (h : d.Onward links here piece left there ahead) : d.Has there := by
  cases h with
  | stay => exact hhere
  | up => exact hhere.up
  | down dir _ _ _ _ entry =>
    obtain ⟨before, after, rfl, _⟩ := List.lookup_eq_some_iff.mp entry
    exact hhere.entry dir (List.mem_append_right before List.mem_cons_self)
  | through =>
    split
    · exact .top
    · exact hhere

/-- **Ways stay on the disk.** -/
theorem Leads.has {pieces : List String} (hhere : d.Has here)
    (h : d.Leads links here pieces left there) : d.Has there := by
  induction h with
  | arrived => exact hhere
  | onward first _ ih => exact ih (first.has hhere)

/-- What a path leads to is on the disk. -/
theorem has_of_locate {p : Path} (h : d.locate p = .ok there) : d.Has there := by
  obtain ⟨_, _, hleads⟩ := locate_eq_ok_iff.mp h
  exact hleads.has .top

/-- No directory lists more than the widest. -/
theorem length_le_of_list {p : Path} {names : List DiskName} (h : d.list p = .ok names) :
    names.length ≤ d.width := by
  obtain ⟨there, es, hlocate, dir, _, rfl⟩ := list_eq_ok_iff.mp h
  have hwidth := (has_of_locate hlocate).width_le
  rw [dir, DiskNode.width] at hwidth
  rw [List.length_map]
  exact (Nat.max_le.mp hwidth).1

/-! ## Names are paid for -/

/-- Links are only used up. -/
theorem Leads.left_le {pieces : List String} (h : d.Leads links here pieces left there) :
    left ≤ links := by
  induction h with
  | arrived => exact Nat.le_refl _
  | onward first _ ih =>
    cases first with
    | stay | up | down => exact ih
    | through => exact Nat.le_succ_of_le ih

/-- **What the names of a way cost**, if it never goes up: with the depth where it begins,
they are not more than a height and one for each link that it uses, and the depth where it
ends. -/
theorem Leads.length_moves_le {pieces : List String} (hhere : d.Has here)
    (stays : ".." ∉ pieces) (h : d.Leads links here pieces left there) :
    (pieces.filter fun piece => !Path.isIdle piece).length + here.way.length
      ≤ (links - left) * (d.height + 1) + there.way.length := by
  induction pieces generalizing links here with
  | nil =>
    cases h
    exact Nat.add_le_add_right (Nat.zero_le _) _
  | cons piece rest ih =>
    obtain ⟨hpiece, hrest⟩ := not_or.mp (mt List.mem_cons.mpr stays)
    obtain _ | @⟨_, spare, _, _, next, _, _, ahead, _, first, way⟩ := h
    have hnext := first.has hhere
    cases first with
    | stay _ _ idle =>
      rw [List.filter_cons_of_neg (by simp [idle])]
      exact ih hhere hrest way
    | up => exact absurd rfl hpiece
    | down _ _ moves _ _ _ _ =>
      have hcost := ih hnext hrest way
      rw [Place.down, List.length_cons] at hcost
      rw [List.filter_cons_of_pos (by simp [moves]), List.length_cons]
      omega
    | through _ _ moves _ _ _ =>
      -- where the target leads does not count: no place is deeper than the height of the disk
      obtain ⟨mid, between, htarget, hleads⟩ := way.split
      have hcost := ih (htarget.has hnext) hrest hleads
      have hdepth := hhere.depth_add_height_le
      have hspent : (mid - left + 1) * (d.height + 1) ≤ (spare + 1 - left) * (d.height + 1) := by
        have hspare := htarget.left_le
        have hleft := hleads.left_le
        exact Nat.mul_le_mul_right _ (by omega)
      rw [Nat.succ_mul] at hspent
      rw [List.filter_cons_of_pos (by simp [moves]), List.length_cons]
      omega

/-- **The most names that a path leads to anything by.** -/
def farthest (d : Disk) : Nat :=
  maxLinks * (d.height + 1) + d.height

/-- The pieces behind others that move are names, and not more than the farthest. -/
theorem length_moves_le_farthest {before after : List String} (stays : ".." ∉ after)
    (h : d.Leads maxLinks d.top (before ++ after) left there) :
    (after.filter fun piece => !Path.isIdle piece).length ≤ d.farthest := by
  obtain ⟨mid, between, hbefore, hafter⟩ := h.split
  have hcost := hafter.length_moves_le (hbefore.has .top) stays
  have hdepth := (h.has .top).depth_add_height_le
  have hspent : (mid - left) * (d.height + 1) ≤ maxLinks * (d.height + 1) :=
    Nat.mul_le_mul_right _ (Nat.le_trans (Nat.sub_le _ _) hbefore.left_le)
  unfold farthest
  omega

end Disk

/-! ## Below a root -/

namespace Records

variable {r : Records} {q : Path}

/-- What can be statted has a place, and the path to it stays below the root. -/
theorem exists_locate_of_stat {m : Metadata} (h : r.store (.stat q) = .ok m) :
    ".." ∉ q.pieces ∧ ∃ there, r.disk.locate (r.root.join q.fromTop) = .ok there := by
  simp only [store, reach] at h
  cases hresolved : resolve r.root q with
  | error e => rw [hresolved] at h; cases h
  | ok full =>
    obtain ⟨hstays, rfl⟩ := stays_of_resolve hresolved
    cases hlocate : r.disk.locate (r.root.join q.fromTop) with
    | error e =>
      simp only [hresolved, Disk.stat, hlocate] at h
      cases h
    | ok there => exact ⟨hstays, there, rfl⟩

/-- **No path below a root leads to anything by more names** than the farthest one. -/
theorem length_components_le_of_stat {m : Metadata} (h : r.store (.stat q) = .ok m) :
    q.components.length ≤ r.disk.farthest := by
  obtain ⟨hstays, there, hlocate⟩ := exists_locate_of_stat h
  obtain ⟨_, left, hleads⟩ := Disk.locate_eq_ok_iff.mp hlocate
  rw [Path.pieces_join q.isAbsolute_fromTop] at hleads
  rw [← q.components_fromTop]
  refine Disk.length_moves_le_farthest ?_ hleads
  rwa [← Path.mem_components (by decide), Path.components_fromTop, Path.mem_components (by decide)]

/-- Listings below a root are no longer than the widest directory. -/
theorem length_le_of_list {names : List String} (h : r.store (.list q) = .ok names) :
    names.length ≤ r.disk.width := by
  obtain ⟨full, raw, hraw, rfl⟩ := exists_list_of_store h
  calc (listing raw).length
      = (raw.filterMap DiskName.text?).length := List.length_mergeSort _
    _ ≤ raw.length := List.length_filterMap_le _ _
    _ ≤ r.disk.width := Disk.length_le_of_list hraw

end Records

end TreeQuery
