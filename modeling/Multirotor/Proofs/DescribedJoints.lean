import Multirotor.Description
import Multirotor.Proofs.Acceptance
import Multirotor.Proofs.JointPath

/-!
# The joints of a description

A tree knows of the joints that carry a link and of no others: without the
rest, the description makes the same tree or the same error
(`tree_pruned`). So all joints are in the tree exactly if no two have one child
and every child is a link (`keepsJoints_iff`); a joint that fails this is
dropped without an error.
-/

namespace Multirotor

namespace Description

variable {α : Type}

/-- The joints that carry a link, in the order of the links. -/
def carriers (d : Description α) : List (JointRecord α) :=
  d.links.filterMap fun l => d.carrier? l.name

def pruned (d : Description α) : Description α := { d with joints := d.carriers }

variable {d : Description α} {j : JointRecord α} {l : LinkRecord α} {name : String}

theorem nodup_children_iff : (d.joints.map (·.child)).Nodup ↔
    Function.Injective fun k => (d.joints.get k).child := by
  rw [← List.nodup_ofFn]
  conv_lhs => rw [← List.ofFn_get d.joints, List.map_ofFn]
  rfl

theorem child_of_carrier? (h : d.carrier? name = some j) : j.child = name := by
  unfold carrier? at h
  simpa using List.find?_some h

theorem mem_of_carrier? (h : d.carrier? name = some j) : j ∈ d.joints := List.mem_of_find?_eq_some h

theorem exists_carrier? (hj : j ∈ d.joints) : ∃ j', d.carrier? j.child = some j' := by
  cases h : d.carrier? j.child with
  | some j' => exact ⟨j', rfl⟩
  | none => exact absurd (beq_self_eq_true j.child) (List.find?_eq_none.mp h j hj)

/-- With one joint for each child, no joint comes before another. -/
theorem carrier?_of_nodup (hnd : (d.joints.map (·.child)).Nodup) (hj : j ∈ d.joints) :
    d.carrier? j.child = some j := by
  obtain ⟨j', h⟩ := exists_carrier? hj
  have he : j' = j := List.inj_on_of_nodup_map hnd (mem_of_carrier? h) hj (child_of_carrier? h)
  rw [h, he]

theorem mem_carriers (hl : l ∈ d.links) (h : d.carrier? l.name = some j) : j ∈ d.carriers :=
  List.mem_filterMap.mpr ⟨l, hl, h⟩

theorem exists_link_of_mem_carriers (hj : j ∈ d.carriers) :
    ∃ l ∈ d.links, l.name = j.child ∧ d.carrier? j.child = some j := by
  obtain ⟨l, hl, h⟩ := List.mem_filterMap.mp hj
  have hchild := child_of_carrier? h
  rw [← hchild] at h
  exact ⟨l, hl, hchild.symm, h⟩

theorem nodup_carriers (hlinks : (d.links.map (·.name)).Nodup) :
    (d.carriers.map (·.child)).Nodup := by
  have hsub : (d.carriers.map (·.child)).Sublist (d.links.map (·.name)) := by
    unfold carriers
    induction d.links with
    | nil => exact .slnil
    | cons l links ih =>
      rw [List.filterMap_cons]
      cases h : d.carrier? l.name with
      | none => exact ih.cons _
      | some j =>
        rw [List.map_cons, List.map_cons, child_of_carrier? h]
        exact ih.cons_cons _
  exact hsub.nodup hlinks

theorem carrier?_pruned (hl : l ∈ d.links) : d.pruned.carrier? l.name = d.carrier? l.name := by
  cases h : d.pruned.carrier? l.name with
  | some j =>
    have hmem : j ∈ d.carriers := mem_of_carrier? h
    obtain ⟨-, -, -, hj⟩ := exists_link_of_mem_carriers hmem
    rw [← child_of_carrier? h]
    exact hj.symm
  | none =>
    cases hj : d.carrier? l.name with
    | none => rfl
    | some j =>
      have hmem : j ∈ d.pruned.joints := mem_carriers hl hj
      obtain ⟨j', hj'⟩ := exists_carrier? hmem
      rw [child_of_carrier? hj, h] at hj'
      cases hj'

/-! ## The tree of a description -/

section
variable [Scalar α] {r : SegmentRecord α}

theorem tree_pruned (d : Description α) : d.pruned.tree = d.tree := by
  have hsegments : d.pruned.segments = d.segments := by
    refine mapM_congr fun l (hl : l ∈ d.links) => ?_
    unfold segment
    rw [carrier?_pruned hl]
  unfold tree
  rw [hsegments]

/-- The segment hangs by the joint: it is the joint's child, below the joint's parent. -/
structure Attaches (t : Tree α) (j : JointRecord α) (i : Fin t.size) : Prop where
  child : (t.segment i).name = j.child
  parent : ∃ p, (t.segment i).parent = some p ∧ (t.segment p).name = j.parent
  offset : (t.segment i).offset = j.origin
  name : (t.segment i).joint.name = j.name
  kind : j.kind = .ok (t.segment i).joint.kind

/-- Joints and segments below the root correspond one to one. -/
def KeepsJoints (d : Description α) (t : Tree α) : Prop :=
  ∃ e : Fin d.joints.length ≃ {i : Fin t.size // i ≠ t.root},
    ∀ k, Attaches t (d.joints.get k) (e k)

theorem segment_of_carrier (hc : d.carrier? l.name = some j) : d.segment l = .ok r ↔
    ∃ kind, j.kind = .ok kind ∧
      r = ⟨l.name, some j.parent, j.origin, ⟨j.name, kind⟩, l.inertia⟩ := by
  unfold segment
  rw [hc]
  constructor
  · intro h
    obtain ⟨kind, hkind, h⟩ := bind_eq_ok.mp h
    cases h
    exact ⟨kind, hkind, rfl⟩
  · rintro ⟨kind, hkind, rfl⟩
    exact bind_eq_ok.mpr ⟨kind, hkind, rfl⟩

theorem segment_of_no_carrier (hc : d.carrier? l.name = none) : d.segment l = .ok r ↔
    r = ⟨l.name, none, .identity, ⟨l.name ++ "_root", .floating⟩, l.inertia⟩ := by
  unfold segment
  rw [hc]
  constructor
  · intro h
    cases h
    rfl
  · rintro rfl
    rfl

theorem name_of_segment (h : d.segment l = .ok r) : r.name = l.name := by
  cases hc : d.carrier? l.name with
  | none => rw [(segment_of_no_carrier hc).mp h]
  | some j =>
    obtain ⟨kind, -, rfl⟩ := (segment_of_carrier hc).mp h
    rfl

variable {j' : JointRecord α} {t : Tree α} {i i' : Fin t.size}

/-- The root of the tree floats, so no coordinate belongs to it. -/
theorem floating_root (h : d.tree = .ok t) : (t.segment t.root).joint.kind = .floating := by
  obtain ⟨records, hd, h⟩ := bind_eq_ok.mp h
  obtain ⟨r, hr, hparent, hjoint⟩ := Tree.exists_root_record h
  obtain ⟨l, -, hl⟩ := exists_of_mapM_eq_ok hd hr
  rw [hjoint]
  cases hc : d.carrier? l.name with
  | none => rw [(segment_of_no_carrier hc).mp hl]
  | some j =>
    obtain ⟨kind, -, rfl⟩ := (segment_of_carrier hc).mp hl
    cases hparent

theorem attaches_of_segment (h : d.segment l = .ok (t.record i)) (hc : d.carrier? l.name = some j) :
    Attaches t j i := by
  obtain ⟨kind, hkind, hrecord⟩ := (segment_of_carrier hc).mp h
  have hjoint : (t.segment i).joint = ⟨j.name, kind⟩ := congrArg SegmentRecord.joint hrecord
  have hparent := congrArg SegmentRecord.parent hrecord
  refine ⟨?_, Option.map_eq_some_iff.mp hparent, ?_, ?_, ?_⟩
  · rw [child_of_carrier? hc]
    exact congrArg SegmentRecord.name hrecord
  · exact congrArg SegmentRecord.offset hrecord
  · rw [hjoint]
  · rw [hkind, hjoint]

theorem root_of_segment (ht : t.Rooted) (h : d.segment l = .ok (t.record i))
    (hc : d.carrier? l.name = none) : i = t.root := by
  have hparent := congrArg SegmentRecord.parent ((segment_of_no_carrier hc).mp h)
  exact ht.parent_eq_none_iff.mp (Option.map_eq_none_iff.mp hparent)

theorem Attaches.ne_root (h : Attaches t j i) (ht : t.Rooted) : i ≠ t.root := by
  obtain ⟨p, hp, -⟩ := h.parent
  intro he
  rw [ht.parent_eq_none_iff.mpr he] at hp
  cases hp

theorem Attaches.unique (h : Attaches t j i) (h' : Attaches t j' i') (hw : t.WellFormed)
    (hchild : j.child = j'.child) : i = i' :=
  hw.name_injective (h.child.trans (hchild.trans h'.child.symm))

/-- The tree of a description: its segments are made from the links. -/
structure MadeFrom (d : Description α) (t : Tree α) : Prop where
  wellFormed : t.WellFormed
  rooted : t.Rooted
  links : (d.links.map (·.name)).Nodup
  segment : ∀ l ∈ d.links, ∃ i, d.segment l = .ok (t.record i)
  link : ∀ i, ∃ l ∈ d.links, d.segment l = .ok (t.record i)

theorem madeFrom_of_tree (h : d.tree = .ok t) : MadeFrom d t := by
  obtain ⟨records, hd, ht⟩ := bind_eq_ok.mp h
  have harr := Tree.arranges_of_ofRecords ht
  have hnames : d.links.map (·.name) = records.map (·.name) := by
    have hall := (forall₂_of_mapM_eq_ok hd).imp fun _ _ h => (name_of_segment h).symm
    rw [← List.forall₂_eq_eq_eq, List.forall₂_map_left_iff, List.forall₂_map_right_iff]
    exact hall
  refine ⟨Tree.wellFormed_of_ofRecords ht, Tree.rooted_of_ofRecords ht, ?_, ?_, ?_⟩
  · rw [hnames]
    exact (Tree.acceptable_of_ofRecords ht).names
  · intro l hl
    obtain ⟨r, hr, hseg⟩ := exists_result_of_mapM_eq_ok hd hl
    obtain ⟨i, rfl⟩ := harr.mem_iff.mp hr
    exact ⟨i, hseg⟩
  · intro i
    exact exists_of_mapM_eq_ok hd (harr.mem_iff.mpr ⟨i, rfl⟩)

section
variable (hm : MadeFrom d t)
include hm

theorem MadeFrom.attached (hl : l ∈ d.links) (hc : d.carrier? l.name = some j) :
    ∃ i, Attaches t j i := by
  obtain ⟨i, h⟩ := hm.segment l hl
  exact ⟨i, attaches_of_segment h hc⟩

theorem MadeFrom.exists_joint (hi : i ≠ t.root) : ∃ j ∈ d.joints, Attaches t j i := by
  obtain ⟨l, -, h⟩ := hm.link i
  cases hc : d.carrier? l.name with
  | none => exact absurd (root_of_segment hm.rooted h hc) hi
  | some j => exact ⟨j, mem_of_carrier? hc, attaches_of_segment h hc⟩

theorem MadeFrom.keepsJoints_iff : d.KeepsJoints t ↔
    (d.joints.map (·.child)).Nodup ∧ ∀ j ∈ d.joints, ∃ l ∈ d.links, l.name = j.child := by
  constructor
  · rintro ⟨e, he⟩
    constructor
    · refine nodup_children_iff.mpr fun k k' h => e.injective (Subtype.ext ?_)
      exact (he k).unique (he k') hm.wellFormed h
    · intro j hj
      obtain ⟨k, rfl⟩ := List.get_of_mem hj
      obtain ⟨l, hl, hseg⟩ := hm.link (e k).val
      exact ⟨l, hl, (name_of_segment hseg).symm.trans (he k).child⟩
  · rintro ⟨hnd, hlinks⟩
    have hdown : ∀ k : Fin d.joints.length, ∃ i, Attaches t (d.joints.get k) i := by
      intro k
      have hk := List.get_mem d.joints k
      obtain ⟨l, hl, hname⟩ := hlinks _ hk
      refine hm.attached hl ?_
      rw [hname]
      exact carrier?_of_nodup hnd hk
    choose seg hseg using hdown
    refine ⟨Equiv.ofBijective (fun k => ⟨seg k, (hseg k).ne_root hm.rooted⟩) ⟨?_, ?_⟩, hseg⟩
    · intro k k' h
      have hseg' := hseg k'
      rw [← Subtype.mk.inj h] at hseg'
      exact nodup_children_iff.mp hnd ((hseg k).child.symm.trans hseg'.child)
    · rintro ⟨i, hi⟩
      obtain ⟨j, hj, hat⟩ := hm.exists_joint hi
      obtain ⟨k, rfl⟩ := List.get_of_mem hj
      exact ⟨k, Subtype.ext ((hseg k).unique hat hm.wellFormed rfl)⟩

end

theorem keepsJoints_pruned (d : Description α) : d.pruned.tree = d.tree ∧
    ∀ t, d.tree = .ok t → d.pruned.KeepsJoints t ∧ (d.KeepsJoints t ↔
      (d.joints.map (·.child)).Nodup ∧ ∀ j ∈ d.joints, ∃ l ∈ d.links, l.name = j.child) := by
  refine ⟨tree_pruned d, fun t h => ?_⟩
  have hm := madeFrom_of_tree h
  have hpruned := madeFrom_of_tree ((tree_pruned d).trans h)
  refine ⟨hpruned.keepsJoints_iff.mpr ⟨nodup_carriers hm.links, fun j hj => ?_⟩, hm.keepsJoints_iff⟩
  obtain ⟨l, hl, hname, -⟩ := exists_link_of_mem_carriers hj
  exact ⟨l, hl, hname⟩

end

/-! ## An arm with one joint, and with a second one -/

noncomputable def armWith (joints : List (JointRecord ℝ)) : Description ℝ where
  links := [⟨"base", .pointMass 1 0⟩, ⟨"arm", .pointMass 1 0⟩]
  joints := joints

noncomputable def strut (child : String) : JointRecord ℝ :=
  ⟨"strut", .fixed, "base", child, .identity, 0⟩

noncomputable def hinge : JointRecord ℝ := ⟨"hinge", .revolute, "base", "arm", .identity, .unitZ⟩

theorem keepsJoints_pruned_arm : ∃ t, (armWith [strut "arm"]).tree = .ok t ∧
    (armWith [strut "arm"]).KeepsJoints t := by
  obtain ⟨t, h⟩ : ∃ t, (armWith [strut "arm"]).tree = .ok t := ⟨_, rfl⟩
  obtain ⟨-, hkeeps⟩ := keepsJoints_pruned (armWith [strut "arm"])
  obtain ⟨-, hiff⟩ := hkeeps t h
  exact ⟨t, h, hiff.mpr ⟨by simp [armWith], by simp [armWith, strut]⟩⟩

/-- The hinge is lost to the strut before it, and a strut to nowhere holds nothing. -/
theorem not_keepsJoints_of_shared_child :
    (∃ t, (armWith [strut "arm", hinge]).tree = .ok t ∧ t.jointCount = 0 ∧
      ¬(armWith [strut "arm", hinge]).KeepsJoints t) ∧
    ∃ t, (armWith [strut "arm", strut "tail"]).tree = .ok t ∧
      ¬(armWith [strut "arm", strut "tail"]).KeepsJoints t := by
  constructor
  · refine ⟨_, rfl, rfl, fun h => ?_⟩
    obtain ⟨hnd, -⟩ := (madeFrom_of_tree rfl).keepsJoints_iff.mp h
    simp [armWith, strut, hinge] at hnd
  · refine ⟨_, rfl, fun h => ?_⟩
    obtain ⟨-, hlinks⟩ := (madeFrom_of_tree rfl).keepsJoints_iff.mp h
    simp [armWith, strut] at hlinks

end Description

end Multirotor
