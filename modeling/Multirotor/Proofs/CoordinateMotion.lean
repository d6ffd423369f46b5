import Multirotor.Proofs.Bend

/-!
# What a coordinate moves

The joint path of a segment lists the coordinates that are to move it, and
`jointAxes` the axes about which they turn. The frames follow them for every
coordinate but one (`followsPaths_iff`): the joint of a root is numbered like
any other, while the root stays at the identity.
-/

namespace Multirotor

namespace Tree

variable {t : Tree ℝ} {c : Nat} {j : Fin t.size}

/-- A step at the coordinate turns the segments that list it about the axis reported for it, and
leaves the others where they are. -/
def FollowsPaths (t : Tree ℝ) (c : Nat) : Prop :=
  ∀ q : Coordinates ℝ, q.values.length = t.jointCount → ∀ step : ℝ,
    ∃ frames frames' axis, t.place q = .ok frames ∧ t.place (q.shifted c step) = .ok frames' ∧
      (t.jointAxes frames .identity)[c]? = some axis ∧ axis.coordinate = c ∧
      ∀ i, frames'.get i =
        if c ∈ (t.segment i).jointPath then .turn axis.axis axis.origin step * frames.get i
        else frames.get i

section
variable (hw : t.WellFormed) (hr : t.Rooted)
include hw hr

theorem followsPaths_of_ne_root (ht : t.Rigid) (hj : t.joints[c]? = some j) (hne : j ≠ t.root) :
    t.FollowsPaths c := by
  intro q hq step
  obtain ⟨frames, hplace⟩ := place_isOk hq
  obtain ⟨frames', hplace'⟩ := place_shifted_isOk hplace c step
  have haxis : (t.jointAxes frames .identity)[c]? = some (t.jointAxis frames .identity c j) := by
    rw [getElem?_jointAxes hw hr, hj]
    rfl
  refine ⟨frames, frames', _, hplace, hplace', haxis, rfl, fun i => ?_⟩
  rw [get_shifted_of_ne_root hw hr ht hplace hplace' hj hne i]
  simp only [moves_iff, jointAxis, Quat.identity_rotate]

/-- No frame depends on the coordinate of the root. -/
theorem place_shifted_root (hj : t.joints[c]? = some t.root) (q : Coordinates ℝ) (step : ℝ) :
    t.place (q.shifted c step) = t.place q := by
  have hone : t.placeOne (q.shifted c step) = t.placeOne q := by
    funext frames i
    unfold placeOne
    cases hp : (t.segment i).parent with
    | none => rfl
    | some p =>
      have hi : t.joints[c]? ≠ some i := by
        intro hi
        obtain rfl : t.root = i := Option.some.inj (hj.symm.trans hi)
        rw [hr.parent_root] at hp
        cases hp
      rw [jointMotion_shifted_of_ne hw hr hi]
  unfold place
  rw [hone, Coordinates.length_shifted]

theorem not_followsPaths_of_root (hj : t.joints[c]? = some t.root) : ¬t.FollowsPaths c := by
  intro h
  obtain ⟨frames, frames', axis, hplace, hplace', -, -, hget⟩ :=
    h (.zeros t) List.length_replicate Real.pi
  obtain rfl : frames = frames' :=
    Except.ok.inj (hplace.symm.trans ((place_shifted_root hw hr hj _ _).symm.trans hplace'))
  have hroot := hget t.root
  rw [if_pos (moves_iff.mp (moves_self hw hr hj)), get_root hplace hr.parent_root] at hroot
  -- Half a turn takes no frame to itself.
  have hw := congrArg (fun f : Frame ℝ => f.rotation.w) hroot
  simp [Frame.turn, Frame.mul_eq, Frame.identity, Quat.mul_eq, Quat.identity_eq,
    Quat.ofAxisAngle_eq] at hw

end

theorem followsPaths_iff {records : List (SegmentRecord ℝ)} (h : ofRecords records = .ok t)
    (ht : t.Rigid) (hc : c < t.jointCount) :
    (t.FollowsPaths c ↔ t.joints[c]? ≠ some t.root) ∧
      (t.joints[c]? = some t.root → (∀ i, c ∈ (t.segment i).jointPath) ∧
        ∀ q step, t.place (q.shifted c step) = t.place q) := by
  have hw := wellFormed_of_ofRecords h
  have hr := rooted_of_ofRecords h
  have hj : t.joints[c]? = some t.joints[c] := List.getElem?_eq_getElem hc
  refine ⟨⟨fun hf hroot => not_followsPaths_of_root hw hr hroot hf, fun hroot => ?_⟩,
    fun hroot => ⟨fun i => moves_iff.mp (moves_of_root hw hr hroot i),
      place_shifted_root hw hr hroot⟩⟩
  exact followsPaths_of_ne_root hw hr ht hj fun e => hroot (hj.trans (congrArg some e))

/-! ## A tip on a base -/

noncomputable def tipped (base tip : JointKind ℝ) : List (SegmentRecord ℝ) :=
  [⟨"base", none, .identity, ⟨"base_joint", base⟩, .pointMass 1 0⟩,
    ⟨"tip", some "base", ⟨Vec3.unitX, .identity⟩, ⟨"tip_joint", tip⟩, .pointMass 1 0⟩]

theorem rigid_tipped {base tip : JointKind ℝ} (h : ofRecords (tipped base tip) = .ok t)
    (hbase : ∀ axis, base = .revolute axis → axis.normSq = 1)
    (htip : ∀ axis, tip = .revolute axis → axis.normSq = 1) : t.Rigid := by
  refine rigid_of_ofRecords h fun r hr => ?_
  simp only [tipped, List.mem_cons, List.not_mem_nil, or_false] at hr
  rcases hr with rfl | rfl
  · exact ⟨Frame.rigid_identity, hbase⟩
  · exact ⟨Quat.unit_identity, htip⟩

theorem normSq_of_revolute_unitZ (axis : Vec3 ℝ)
    (h : JointKind.revolute Vec3.unitZ = .revolute axis) : axis.normSq = 1 := by
  cases h
  norm_num [Vec3.unitZ, Vec3.normSq_eq, Vec3.dot_eq]

theorem followsPaths_iff_hinged_tip : ∃ t, ofRecords (tipped .floating (.revolute .unitZ)) = .ok t ∧
    t.Rigid ∧ t.jointCount = 1 ∧ t.FollowsPaths 0 := by
  obtain ⟨t, hok, hcount, hne⟩ : ∃ t, ofRecords (tipped .floating (.revolute .unitZ)) = .ok t ∧
      t.jointCount = 1 ∧ t.joints[0]? ≠ some t.root := ⟨_, rfl, rfl, by decide⟩
  have ht := rigid_tipped hok (fun _ h => by cases h) normSq_of_revolute_unitZ
  exact ⟨t, hok, ht, hcount, (followsPaths_iff hok ht (by omega)).1.mpr hne⟩

/-- Both segments list the coordinate of the base, and neither moves in half a turn of it. -/
theorem not_followsPaths_of_hinged_base : ∃ t,
    ofRecords (tipped (.revolute .unitZ) .fixed) = .ok t ∧ t.Rigid ∧ t.jointCount = 1 ∧
    (∀ i, 0 ∈ (t.segment i).jointPath) ∧
    t.place ((⟨[0]⟩ : Coordinates ℝ).shifted 0 Real.pi) = t.place ⟨[0]⟩ ∧ ¬t.FollowsPaths 0 := by
  obtain ⟨t, hok, hcount, hroot⟩ : ∃ t, ofRecords (tipped (.revolute .unitZ) .fixed) = .ok t ∧
      t.jointCount = 1 ∧ t.joints[0]? = some t.root := ⟨_, rfl, rfl, rfl⟩
  have hw := wellFormed_of_ofRecords hok
  have hr := rooted_of_ofRecords hok
  have ht := rigid_tipped hok normSq_of_revolute_unitZ (fun _ h => by cases h)
  exact ⟨t, hok, ht, hcount, fun i => moves_iff.mp (moves_of_root hw hr hroot i),
    place_shifted_root hw hr hroot _ _, not_followsPaths_of_root hw hr hroot⟩

end Tree

end Multirotor
