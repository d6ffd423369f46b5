import Multirotor.Proofs.Placement
import Multirotor.Proofs.Ways

/-!
# Numbers of the joints

The coordinates of an accepted tree count its revolute segments breadth first.
The joint path of a segment lists those on the way to it from the root down,
so it is increasing, names exactly the joints that the segment hangs from, and
ends with the segment's own. Each coordinate has one axis
(`numbersJoints_of_ofRecords`).
-/

namespace Multirotor

namespace Tree

variable {α : Type} {t : Tree α} {c d : Nat} {i j : Fin t.size} {l : List (Fin t.size)}

/-! ## Paths and ways -/

section
variable (hw : t.WellFormed) (hr : t.Rooted)
include hw hr

theorem coordinate?_segment_iff : (t.segment i).coordinate? = some c ↔ t.joints[c]? = some i := by
  refine ⟨fun h => ?_, coordinate?_eq_some hw hr⟩
  have hrev : (t.segment i).joint.kind.isRevolute = true := by
    by_contra hk
    rw [Segment.coordinate?, if_neg hk] at h
    cases h
  obtain ⟨d, hd⟩ := exists_coordinate hw hr hrev
  rw [coordinate?_eq_some hw hr hd, Option.some.injEq] at h
  exact h ▸ hd

theorem map_getElem?_joints : (t.joints.idxOf? i).toList.map (t.joints[·]?) =
    ([i].filter fun j => (t.segment j).joint.kind.isRevolute).map some := by
  cases hi : (t.segment i).joint.kind.isRevolute with
  | true =>
    obtain ⟨c, hc⟩ := exists_coordinate hw hr hi
    simp [hi, (idxOf?_joints hw hr).mpr hc, hc]
  | false => simp [hi, idxOf?_joints_of_still hw hr hi]

/-- The joint path lists the joints on the way from the root. -/
theorem Way.map_jointPath (h : t.Way t.root l i) : (t.segment i).jointPath.map (t.joints[·]?) =
    ((t.root :: l).filter fun j => (t.segment j).joint.kind.isRevolute).map some := by
  induction h with
  | here => rw [jointPath_root hr, map_getElem?_joints hw hr]
  | child _ hp ih =>
    rw [jointPath_child hr hp, List.map_append, ih, map_getElem?_joints hw hr, ← List.cons_append,
      List.filter_append, List.map_append]

theorem mem_jointPath_of_way (hj : t.joints[c]? = some j) (h : t.Way j l i) :
    c ∈ (t.segment i).jointPath := by
  induction h with
  | here => exact moves_iff.mp (moves_self hw hr hj)
  | child _ hp ih => exact moves_iff.mp ((moves_child hw hr hp).mpr (.inl (moves_iff.mpr ih)))

/-- The joint path names the joints that the segment hangs from, and its own. -/
theorem mem_jointPath_iff :
    c ∈ (t.segment i).jointPath ↔ ∃ j l, t.joints[c]? = some j ∧ t.Way j l i := by
  refine ⟨fun hc => ?_, fun ⟨j, l, hj, hl⟩ => mem_jointPath_of_way hw hr hj hl⟩
  obtain ⟨k, hk⟩ := hr.depth i
  induction hk with
  | root => exact ⟨t.root, [], (moves_root_iff hw hr).mp (moves_iff.mpr hc), .here⟩
  | @child k p i hp _ ih =>
    rcases (moves_child hw hr hp).mp (moves_iff.mpr hc) with hm | hi
    · obtain ⟨j, l, hj, hl⟩ := ih (moves_iff.mp hm)
      exact ⟨j, l ++ [i], hj, hl.child hp⟩
    · exact ⟨i, [], hi, .here⟩

omit hw in
/-- Of two joints, the one that the other hangs from has the smaller coordinate. -/
theorem lt_of_way (hbefore : t.joints.Pairwise t.Before) (hi : t.joints[c]? = some i)
    (hj : t.joints[d]? = some j) (hne : i ≠ j) (h : t.Way i l j) : c < d := by
  obtain ⟨hc, rfl⟩ := List.getElem?_eq_some_iff.mp hi
  obtain ⟨hd, rfl⟩ := List.getElem?_eq_some_iff.mp hj
  by_contra hle
  rcases (not_lt.mp hle).lt_or_eq with hlt | rfl
  · exact hr.not_before h (List.pairwise_iff_getElem.mp hbefore d c hd hc hlt)
  · exact hne rfl

theorem increasing_jointPath (hbefore : t.joints.Pairwise t.Before) (i : Fin t.size) :
    (t.segment i).jointPath.Pairwise (· < ·) := by
  have hone : ∀ i, (t.joints.idxOf? i).toList.Pairwise (· < ·) := fun i => by
    cases t.joints.idxOf? i <;> simp
  obtain ⟨k, hk⟩ := hr.depth i
  induction hk with
  | root =>
    rw [jointPath_root hr]
    exact hone t.root
  | @child k p i hp _ ih =>
    rw [jointPath_child hr hp]
    refine List.pairwise_append.mpr ⟨ih, hone i, fun c hc d hd => ?_⟩
    obtain ⟨j, l, hj, hl⟩ := (mem_jointPath_iff hw hr).mp hc
    have hi := (idxOf?_joints hw hr).mp (Option.mem_toList.mp hd)
    -- The joint of `c` is above the parent, so it is not the segment's own.
    have hne : j ≠ i := fun e => hr.not_way_parent hp (e ▸ hl)
    exact lt_of_way hr hbefore hj hi hne (hl.child hp)

end

/-! ## Axes -/

theorem forall₂_filterMap {β γ : Type} {f : β → Option γ} {P : β → γ → Prop} {l : List β}
    (h : ∀ x ∈ l, ∃ y, f x = some y ∧ P x y) : List.Forall₂ P l (l.filterMap f) := by
  induction l with
  | nil => exact .nil
  | cons x l ih =>
    obtain ⟨⟨y, hy, hp⟩, hl⟩ := List.forall_mem_cons.mp h
    rw [List.filterMap_cons_some hy]
    exact .cons hp (ih hl)

/-- The axis of joint `c`, that of segment `i`, seen in the level frame. -/
def AxisOf [Scalar α] (t : Tree α) (frames : Placement α t.size) (level : Quat α) (i : Fin t.size)
    (c : Nat) (joint : JointAxis α t.size) : Prop :=
  ∃ axis, (t.segment i).joint.kind = .revolute axis ∧ joint =
    ⟨c, i, level.rotate ((frames.get i).rotation.rotate axis), level.rotate (frames.get i).origin⟩

section
variable (hw : t.WellFormed) (hr : t.Rooted)
include hw hr

/-- There is one axis per coordinate, and the axes come in the order of the coordinates. -/
theorem forall₂_jointAxes [Scalar α] (frames : Placement α t.size) (level : Quat α) :
    List.Forall₂ (fun x joint => t.AxisOf frames level x.1 x.2 joint) t.joints.zipIdx
      (t.jointAxes frames level) := by
  refine forall₂_filterMap fun x hx => ?_
  obtain ⟨axis, hk⟩ := exists_axis hw hr (List.fst_mem_of_mem_zipIdx hx)
  simp only [hk]
  exact ⟨_, rfl, axis, hk, rfl⟩

end

/-! ## The numbering -/

/-- The coordinates count the revolute segments breadth first; paths and axes refer to them. -/
structure NumbersJoints [Scalar α] (t : Tree α) : Prop where
  revolute : ∀ i, i ∈ t.joints ↔ (t.segment i).joint.kind.isRevolute = true
  once : t.joints.Nodup
  breadth_first : t.joints.Pairwise t.Before
  increasing : ∀ i, (t.segment i).jointPath.Pairwise (· < ·)
  /-- From the root down, the joint path lists the joints on the way. -/
  path : ∀ i, ∃ l, t.Way t.root l i ∧ (t.segment i).jointPath.map (t.joints[·]?) =
    ((t.root :: l).filter fun j => (t.segment j).joint.kind.isRevolute).map some
  mem_path : ∀ i c, c ∈ (t.segment i).jointPath ↔ ∃ j l, t.joints[c]? = some j ∧ t.Way j l i
  own : ∀ i c, (t.segment i).coordinate? = some c ↔ t.joints[c]? = some i
  axes : ∀ frames level, List.Forall₂ (fun x joint => t.AxisOf frames level x.1 x.2 joint)
    t.joints.zipIdx (t.jointAxes frames level)

theorem numbersJoints_of_ofRecords [Scalar α] {records : List (SegmentRecord α)}
    (h : ofRecords records = .ok t) : t.NumbersJoints := by
  have hw := wellFormed_of_ofRecords h
  have hr := rooted_of_ofRecords h
  have hbefore : t.joints.Pairwise t.Before :=
    hr.joints ▸ ((arranges_of_ofRecords h).pairwise_before hr).filter _
  refine ⟨fun i => mem_joints hw hr, nodup_joints hw hr, hbefore,
    increasing_jointPath hw hr hbefore, fun i => ?_, fun i c => mem_jointPath_iff hw hr,
    fun i c => coordinate?_segment_iff hw hr, forall₂_jointAxes hw hr⟩
  obtain ⟨l, hl⟩ := hr.exists_way i
  exact ⟨l, hl, hl.map_jointPath hw hr⟩

/-! ## A finger that hangs from two joints -/

noncomputable def finger : List (SegmentRecord ℝ) :=
  [⟨"tip", some "joint", .identity, ⟨"bend", .revolute .unitZ⟩, .pointMass 1 0⟩,
    ⟨"palm", none, .identity, ⟨"palm_joint", .floating⟩, .pointMass 1 0⟩,
    ⟨"joint", some "palm", .identity, ⟨"spread", .revolute .unitX⟩, .pointMass 1 0⟩,
    ⟨"ring", some "palm", .identity, ⟨"ring_joint", .fixed⟩, .pointMass 1 0⟩]

/-- The tip is declared first and has the second coordinate. -/
theorem numbersJoints_finger : ∃ t, ofRecords finger = .ok t ∧ t.jointNames = ["spread", "bend"] ∧
    t.NumbersJoints := by
  obtain ⟨t, h, hnames⟩ : ∃ t, ofRecords finger = .ok t ∧ t.jointNames = ["spread", "bend"] :=
    ⟨_, rfl, rfl⟩
  exact ⟨t, h, hnames, numbersJoints_of_ofRecords h⟩

end Tree

end Multirotor
