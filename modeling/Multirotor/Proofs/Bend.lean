import Multirotor.Proofs.Exact.Turn
import Multirotor.Proofs.JointPath
import Multirotor.Proofs.Placement

/-!
# Bending a joint

More angle at one joint turns the segments beyond it, as one rigid body, about
the axis of the joint, and leaves all other segments where they are
(`get_shifted`). The joint of the root is the one exception: it turns nothing.
-/

namespace Multirotor

/-- The axis about which a joint turns; one that does not turn has none. -/
noncomputable def JointKind.hinge : JointKind ℝ → Vec3 ℝ
  | .revolute axis => axis
  | _ => 0

namespace Coordinates

variable {q : Coordinates ℝ} {c d : Nat} {step : ℝ}

theorem length_shifted : (q.shifted c step).values.length = q.values.length := List.length_set

theorem get_shifted_self (hc : c < q.values.length) : (q.shifted c step).get c = q.get c + step := by
  simp [get, shifted, hc]

theorem get_shifted_of_ne (h : d ≠ c) : (q.shifted c step).get d = q.get d := by
  simp [get, shifted, h.symm]

end Coordinates

namespace Frame

theorem ofRotation_mul (p q : Quat ℝ) : ofRotation p * ofRotation q = ofRotation (p * q) := by
  have ho : (0 : Vec3 ℝ) + p.rotate 0 = 0 := by
    rw [Quat.rotate_zero, add_zero]
  exact congrArg₂ Frame.mk ho rfl

end Frame

namespace Tree

variable {t : Tree ℝ} {q : Coordinates ℝ} {frames frames' : Placement ℝ t.size}
  {c : Nat} {step : ℝ} {i j : Fin t.size}

theorem place_shifted_isOk (h : t.place q = .ok frames) (c : Nat) (step : ℝ) :
    ∃ frames', t.place (q.shifted c step) = .ok frames' :=
  place_isOk (Coordinates.length_shifted.trans (length_of_place h))

/-! ## Axes -/

noncomputable def jointAxis (t : Tree ℝ) (frames : Placement ℝ t.size) (level : Quat ℝ) (c : Nat)
    (j : Fin t.size) : JointAxis ℝ t.size where
  coordinate := c
  segment := j
  axis := level.rotate ((frames.get j).rotation.rotate (t.segment j).joint.kind.hinge)
  origin := level.rotate (frames.get j).origin

section
variable (hw : t.WellFormed) (hr : t.Rooted)
include hw hr

/-- There is one axis per coordinate. -/
theorem jointAxes_eq (level : Quat ℝ) : t.jointAxes frames level =
    t.joints.zipIdx.map fun x => t.jointAxis frames level x.2 x.1 := by
  refine List.filterMap_eq_map_iff_forall_eq_some.mpr fun x hx => ?_
  obtain ⟨axis, hk⟩ := exists_axis hw hr (List.fst_mem_of_mem_zipIdx hx)
  simp only [jointAxis, hk, JointKind.hinge]

theorem getElem?_jointAxes (level : Quat ℝ) : (t.jointAxes frames level)[c]? =
    t.joints[c]?.map fun j => t.jointAxis frames level c j := by
  rw [jointAxes_eq hw hr, List.getElem?_map, List.getElem?_zipIdx, Option.map_map]
  simp only [Nat.zero_add]
  rfl

/-! ## Joint motions -/

theorem jointMotion_joint (hj : t.joints[c]? = some j) (q : Coordinates ℝ) :
    t.jointMotion q j = .ofRotation (.ofAxisAngle (t.segment j).joint.kind.hinge (q.get c)) := by
  obtain ⟨axis, hk⟩ := exists_axis hw hr (List.mem_of_getElem? hj)
  simp only [jointMotion, hk, coordinate?_eq_some hw hr hj, JointKind.hinge, Option.elim_some]

theorem normSq_hinge (ht : t.Rigid) (hj : t.joints[c]? = some j) :
    (t.segment j).joint.kind.hinge.normSq = 1 := by
  obtain ⟨axis, hk⟩ := exists_axis hw hr (List.mem_of_getElem? hj)
  rw [hk]
  exact ht.axis hk

theorem jointMotion_shifted_self (ht : t.Rigid) (hj : t.joints[c]? = some j)
    (hc : c < q.values.length) : t.jointMotion (q.shifted c step) j =
      t.jointMotion q j * .ofRotation (.ofAxisAngle (t.segment j).joint.kind.hinge step) := by
  rw [jointMotion_joint hw hr hj, jointMotion_joint hw hr hj, Coordinates.get_shifted_self hc,
    Quat.ofAxisAngle_add (normSq_hinge hw hr ht hj), Frame.ofRotation_mul]

theorem jointMotion_shifted_of_ne (hi : t.joints[c]? ≠ some i) :
    t.jointMotion (q.shifted c step) i = t.jointMotion q i := by
  cases hk : (t.segment i).joint.kind.isRevolute with
  | true =>
    obtain ⟨d, hd⟩ := exists_coordinate hw hr hk
    have hne : d ≠ c := fun e => hi (e ▸ hd)
    rw [jointMotion_joint hw hr hd, jointMotion_joint hw hr hd, Coordinates.get_shifted_of_ne hne]
  | false => rw [jointMotion_of_still hk, jointMotion_of_still hk]

/-! ## Frames -/

section
variable (ht : t.Rigid) (hq : t.place q = .ok frames)
  (hq' : t.place (q.shifted c step) = .ok frames')
include ht hq hq'

/-- A joint turns with the segments beyond it, about the axis that it has before the turn. The joint
of the root turns nothing. -/
theorem get_shifted_of_ne_root (hj : t.joints[c]? = some j) (hne : j ≠ t.root) (i : Fin t.size) :
    frames'.get i =
      if t.moves c i then
        .turn ((frames.get j).rotation.rotate (t.segment j).joint.kind.hinge) (frames.get j).origin
          step * frames.get i
      else frames.get i := by
  have hrigid := ht.place hq
  have hturn : (Frame.turn ((frames.get j).rotation.rotate (t.segment j).joint.kind.hinge)
      (frames.get j).origin step).Rigid :=
    Frame.rigid_turn ((hrigid j).normSq_rotate _ |>.trans (normSq_hinge hw hr ht hj))
  have hc : c < q.values.length := by
    rw [length_of_place hq]
    exact (List.getElem?_eq_some_iff.mp hj).1
  obtain ⟨k, hk⟩ := hr.depth i
  -- Down from the root: above the joint nothing moves, below it a segment follows its parent.
  induction hk with
  | root =>
    have hmoves : t.moves c t.root = false := by
      rw [← Bool.not_eq_true, moves_root_iff hw hr, hj, Option.some.injEq]
      exact hne
    simp [get_root hq hr.parent_root, get_root hq' hr.parent_root, hmoves]
  | @child k p i hp hk ih =>
    rw [hw.get_of_parent hq' hp, ih, hw.get_of_parent hq hp]
    by_cases hi : t.joints[c]? = some i
    · -- At the joint the turn comes last, about the axis in the segment; seen from outside it is a
      -- turn about the axis where it stands.
      obtain rfl : j = i := Option.some.inj (hj.symm.trans hi)
      have hself := ((hrigid p).mul (ht.offset j)).mul (ht.jointMotion q j)
      have hbefore := hw.get_of_parent hq hp
      rw [if_neg (by simp [not_moves_parent hw hr hj hp]), if_pos (moves_self hw hr hj),
        jointMotion_shifted_self hw hr ht hj hc,
        ← ((hrigid p).mul (ht.offset j)).mul_assoc (ht.jointMotion q j), hbefore,
        hself.mul_ofRotation]
    · have hmoves : t.moves c i = t.moves c p := by
        rw [Bool.eq_iff_iff, moves_child hw hr hp]
        exact or_iff_left hi
      rw [jointMotion_shifted_of_ne hw hr hi, hmoves]
      split
      · rw [hturn.mul_assoc (hrigid p), hturn.mul_assoc ((hrigid p).mul (ht.offset i))]
      · rfl

end

theorem get_shifted (ht : t.Rigid) (hroot : (t.segment t.root).joint.kind.isRevolute = false)
    (hq : t.place q = .ok frames) (hq' : t.place (q.shifted c step) = .ok frames')
    (hj : t.joints[c]? = some j) (i : Fin t.size) : frames'.get i =
    if t.moves c i then
      .turn ((frames.get j).rotation.rotate (t.segment j).joint.kind.hinge) (frames.get j).origin
        step * frames.get i
    else frames.get i :=
  get_shifted_of_ne_root hw hr ht hq hq' hj (ne_root_of_joint hw hr hroot hj) i

end

end Tree

end Multirotor
