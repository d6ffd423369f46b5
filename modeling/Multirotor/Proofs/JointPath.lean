import Multirotor.Load
import Multirotor.Proofs.Tree

/-!
# Joint paths

Every revolute segment of an accepted tree has one coordinate, and the joint
path of a segment is that along its lineage (`rooted_below`). A segment is
moved by the coordinates of its parent and by its own (`moves_child`), and no
coordinate moves the parent of its segment.
-/

namespace Multirotor

namespace Tree

variable {α : Type}

/-- How the segments hang from the root, and how the coordinates are numbered. -/
structure Rooted (t : Tree α) : Prop where
  parent_root : (t.segment t.root).parent = none
  depth : ∀ i, ∃ k, Ancestry.Depth (fun i => (t.segment i).parent) t.root k i
  joints : t.joints = t.order.filter fun i => (t.segment i).joint.kind.isRevolute
  jointPath : ∀ i, (t.segment i).jointPath =
    (Ancestry.lineage (fun i => (t.segment i).parent) i).filterMap (t.joints.idxOf? ·)

section
variable {records : List (SegmentRecord α)}

theorem rooted_below {parent : Fin records.length → Option (Fin records.length)}
    {root : Fin records.length} (hroot : parent root = none)
    (hlen : (below records parent root).order.length = records.length) :
    (below records parent root).Rooted := by
  have hparent : (fun i => ((below records parent root).segment i).parent) = parent :=
    funext fun i => parent_below i
  have hdepth : ∀ i, ∃ k, Ancestry.Depth
      (fun i => ((below records parent root).segment i).parent) root k i := fun i => by
    rw [hparent]
    exact Ancestry.exists_depth (complete_below hroot hlen i)
  refine ⟨(parent_below root).trans hroot, hdepth, (numbered_below hroot).joints, fun i => ?_⟩
  obtain ⟨k, hk⟩ := hdepth i
  exact (numbered_below hroot).jointPath_lineage (complete_below hroot hlen)
    ((parent_below root).trans hroot) hk

theorem rooted_of_ofRecords {t : Tree α} (h : ofRecords records = .ok t) : t.Rooted := by
  obtain ⟨parent, root, -, hroot, -, hlen, rfl⟩ := below_of_ofRecords h
  exact rooted_below hroot hlen

end

theorem Rooted.parent_eq_none_iff {t : Tree α} (hr : t.Rooted) {i : Fin t.size} :
    (t.segment i).parent = none ↔ i = t.root := by
  constructor
  · intro h
    obtain ⟨k, hk⟩ := hr.depth i
    cases hk with
    | root => rfl
    | child hp _ =>
      have hp : (t.segment i).parent = some _ := hp
      rw [h] at hp
      cases hp
  · rintro rfl
    exact hr.parent_root

section
variable {t : Tree α} (hw : t.WellFormed) (hr : t.Rooted) {c d : Nat} {i p : Fin t.size}

theorem moves_iff : t.moves c i = true ↔ c ∈ (t.segment i).jointPath := List.contains_iff_mem

include hw hr

theorem nodup_joints : t.joints.Nodup := hr.joints ▸ hw.nodup.filter _

theorem mem_joints : i ∈ t.joints ↔ (t.segment i).joint.kind.isRevolute = true := by
  rw [hr.joints, List.mem_filter]
  exact and_iff_right (hw.complete i)

theorem idxOf?_joints : t.joints.idxOf? i = some c ↔ t.joints[c]? = some i := by
  rw [List.idxOf?_eq_some_iff]
  constructor
  · rintro ⟨hc, he, -⟩
    exact List.getElem?_eq_some_iff.mpr ⟨hc, he⟩
  · intro h
    obtain ⟨hc, he⟩ := List.getElem?_eq_some_iff.mp h
    refine ⟨hc, he, fun j hj hje => ?_⟩
    have := (nodup_joints hw hr).getElem_inj_iff.mp (hje.trans he.symm)
    omega

theorem exists_coordinate (h : (t.segment i).joint.kind.isRevolute = true) :
    ∃ c : Nat, t.joints[c]? = some i := List.mem_iff_getElem?.mp ((mem_joints hw hr).mpr h)

theorem exists_axis (hi : i ∈ t.joints) : ∃ axis, (t.segment i).joint.kind = .revolute axis := by
  have hrev := (mem_joints hw hr).mp hi
  cases hk : (t.segment i).joint.kind with
  | revolute axis => exact ⟨axis, rfl⟩
  | fixed | floating | rotor =>
    rw [hk] at hrev
    cases hrev

theorem idxOf?_joints_of_still (hi : (t.segment i).joint.kind.isRevolute = false) :
    t.joints.idxOf? i = none := by
  refine List.idxOf?_eq_none_iff.mpr fun hm => ?_
  rw [(mem_joints hw hr).mp hm] at hi
  cases hi

omit hw in
theorem jointPath_root :
    (t.segment t.root).jointPath = (t.joints.idxOf? t.root).toList := by
  rw [hr.jointPath, Ancestry.lineage_root hr.parent_root, List.filterMap_cons, List.filterMap_nil]
  cases t.joints.idxOf? t.root <;> rfl

omit hw in
theorem jointPath_child (hp : (t.segment i).parent = some p) :
    (t.segment i).jointPath = (t.segment p).jointPath ++ (t.joints.idxOf? i).toList := by
  obtain ⟨k, hk⟩ := hr.depth p
  rw [hr.jointPath, hr.jointPath, hk.lineage_child hr.parent_root hp, List.filterMap_append,
    List.filterMap_cons, List.filterMap_nil]
  cases t.joints.idxOf? i <;> rfl

/-- Besides its own coordinate, the coordinates of its parent move a segment. -/
theorem moves_child (hp : (t.segment i).parent = some p) :
    t.moves c i = true ↔ t.moves c p = true ∨ t.joints[c]? = some i := by
  rw [moves_iff, moves_iff, jointPath_child hr hp, List.mem_append, Option.mem_toList,
    idxOf?_joints hw hr]

theorem moves_root_iff : t.moves c t.root = true ↔ t.joints[c]? = some t.root := by
  rw [moves_iff, jointPath_root hr, Option.mem_toList, idxOf?_joints hw hr]

theorem ne_root_of_joint (h : (t.segment t.root).joint.kind.isRevolute = false)
    (hi : t.joints[c]? = some i) : i ≠ t.root := by
  rintro rfl
  rw [(mem_joints hw hr).mp (List.mem_of_getElem? hi)] at h
  cases h

theorem moves_of_root (h : t.joints[c]? = some t.root) (i : Fin t.size) :
    t.moves c i = true := by
  obtain ⟨k, hk⟩ := hr.depth i
  induction hk with
  | root => exact (moves_root_iff hw hr).mpr h
  | child hp _ ih => exact (moves_child hw hr hp).mpr (.inl ih)

theorem moves_self (h : t.joints[c]? = some i) : t.moves c i = true := by
  obtain ⟨k, hk⟩ := hr.depth i
  rw [moves_iff]
  cases hk with
  | root => rw [jointPath_root hr, (idxOf?_joints hw hr).mpr h]; simp
  | child hp _ => rw [jointPath_child hr hp, (idxOf?_joints hw hr).mpr h]; simp

theorem coordinate?_eq_some (h : t.joints[c]? = some i) :
    (t.segment i).coordinate? = some c := by
  have hrev := (mem_joints hw hr).mp (List.mem_of_getElem? h)
  have hidx := (idxOf?_joints hw hr).mpr h
  obtain ⟨k, hk⟩ := hr.depth i
  rw [Segment.coordinate?, if_pos hrev]
  cases hk with
  | root => rw [jointPath_root hr, hidx]; rfl
  | child hp _ => rw [jointPath_child hr hp, hidx]; simp

/-- A coordinate moves no segment above its own. -/
theorem depth_of_moves {j : Fin t.size} {k l : Nat}
    (hj : t.joints[c]? = some j) (hk : Ancestry.Depth (fun i => (t.segment i).parent) t.root k i)
    (hl : Ancestry.Depth (fun i => (t.segment i).parent) t.root l j) (hm : t.moves c i = true) :
    l ≤ k := by
  induction hk with
  | root =>
    rw [moves_iff, jointPath_root hr, Option.mem_toList, idxOf?_joints hw hr, hj,
      Option.some.injEq] at hm
    rw [hm] at hl
    exact (hl.unique hr.parent_root .root).le
  | @child k p i hp hk ih =>
    rcases (moves_child hw hr hp).mp hm with hm | hm
    · exact (ih hm).trans (Nat.le_succ k)
    · rw [hj, Option.some.injEq] at hm
      rw [hm] at hl
      exact (hl.unique hr.parent_root (.child hp hk)).le

theorem not_moves_parent (hi : t.joints[c]? = some i) (hp : (t.segment i).parent = some p) :
    t.moves c p = false := by
  obtain ⟨k, hk⟩ := hr.depth p
  by_contra hm
  rw [Bool.not_eq_false] at hm
  have := depth_of_moves hw hr hi hk (.child hp hk) hm
  omega

end

end Tree

end Multirotor
