import Multirotor.Proofs.Sensitivity.FaceDistance
import Multirotor.Proofs.Sensitivity.JointTorque

/-!
# Rigid motions

The root takes all segments along as one rigid body (`MovesRigidly`). The
wrenches of the rotors only turn with it (`wrenchRateAt_eq`), and what does
not depend on the axes in which it is seen stays: a face keeps its distance
but for the required vector, which does not turn (`faceRate_turned`), and a
joint feels only the loads that do not turn along (`jointTorqueRate_eq`).
-/

namespace Multirotor

namespace VelocityField

/-- All segments move as one body that passes the origin at `v` and turns at `w`. -/
structure MovesRigidly (f : VelocityField ℝ) (m : Motion) (v w : Vec3 ℝ) : Prop where
  point : ∀ i x, f.point m i x = v + w.cross x
  angular : ∀ i, f.angular m i = w

variable {f : VelocityField ℝ}

theorem rigid_shift (k : Fin 3) : f.MovesRigidly (.shift k) (f.level.col k) 0 :=
  ⟨fun _ x => by rw [Vec3.zero_cross, add_zero]; rfl, fun _ => rfl⟩

theorem rigid_turn (k : Fin 3) : f.MovesRigidly (.turn k) 0 (f.level.col k) :=
  ⟨fun _ _ => (zero_add _).symm, fun _ => rfl⟩

theorem MovesRigidly.direction {m : Motion} {v w : Vec3 ℝ} (h : f.MovesRigidly m v w)
    (i : Fin f.tree.size) (x : Vec3 ℝ) : f.direction m i x = w.cross x := by
  rw [direction_eq, h.angular]

end VelocityField

/-! ## Faces -/

section
variable {n : Nat} (g : Fin n → Vec3 ℝ) (w : Vec3 ℝ) (pair : Nat × Nat)

theorem normalRate_turned : normalRate (List.ofFn g) (List.ofFn fun k => w.cross (g k)) pair =
    w.cross (faceNormal (List.ofFn g) pair).normalize := by
  have hgenerator : ∀ i, generator (List.ofFn fun k => w.cross (g k)) i =
      w.cross (generator (List.ofFn g) i) := fun i => by
    simp only [generator_ofFn]
    split
    · rfl
    · exact (Vec3.cross_zero w).symm
  have hnormal : faceNormal (List.ofFn g) pair =
      (generator (List.ofFn g) pair.1).cross (generator (List.ofFn g) pair.2) := rfl
  -- A normal of length zero has no direction, and both sides are zero.
  rw [normalRate, hgenerator, hgenerator, Vec3.jacobi, ← hnormal, Vec3.across_apply,
    Vec3.normalize_eq, Vec3.mul_dot, Vec3.dot_cross_right, zero_mul, Vec3.mul_zero, sub_zero,
    Vec3.div_eq_mul, Vec3.cross_mul]

theorem ThrustRange.faceRate_turned (r : ThrustRange ℝ) (required : Vec3 ℝ) :
    r.faceRate (List.ofFn g) (List.ofFn fun k => w.cross (g k)) required pair =
      -(w.cross (faceNormal (List.ofFn g) pair).normalize).dot required := by
  have hreach : ∀ (a b : Vec3 ℝ) (slope : ℝ),
      ((w.cross a).dot b + a.dot (w.cross b)) * slope = 0 := fun a b slope => by
    rw [Vec3.dot_cross_swap a b w, add_neg_cancel, zero_mul]
  rw [faceRate_ofFn, normalRate_turned]
  simp only [hreach, List.map_const', List.sum_replicate, smul_zero, zero_sub]

end

/-! ## Joints -/

/-- What of a load's rate is more than the load turning along. -/
noncomputable def Load.excess {n : Nat} (w : Vec3 ℝ) (x : Load ℝ n × LoadRate ℝ) : Load ℝ n where
  segment := x.1.segment
  point := x.1.point
  force := x.2.force - w.cross x.1.force
  moment := x.2.moment - w.cross x.1.moment

theorem Load.momentAbout_excess {n : Nat} (w o : Vec3 ℝ) (x : Load ℝ n × LoadRate ℝ) :
    (w.cross (x.1.point - o)).cross x.1.force + (x.1.point - o).cross x.2.force + x.2.moment =
      (excess w x).momentAbout o + w.cross (x.1.momentAbout o) := by
  simp only [momentAbout, excess]
  rw [Vec3.cross_add, ← Vec3.jacobi, Vec3.cross_sub x.2.force]
  abel

/-- The rate of a wrench that turns along. -/
noncomputable def Wrench.turning (x : Wrench ℝ) (w : Vec3 ℝ) : Wrench ℝ :=
  ⟨w.cross x.force, w.cross x.torque⟩

namespace Robot

variable {r : Robot ℝ} {s : HoverState ℝ r.tree.size} {m : Motion} {v w : Vec3 ℝ}

theorem jointTorqueRate_eq (h : (r.velocities s).MovesRigidly m v w)
    {loads : List (Load ℝ r.tree.size × LoadRate ℝ)}
    (hpoint : ∀ x ∈ loads, x.2.point = v + w.cross x.1.point) (joint : JointAxis ℝ r.tree.size) :
    r.jointTorqueRate s m loads joint = r.tree.jointTorque (loads.map (Load.excess w)) joint := by
  set held := loads.filter fun x => r.tree.moves joint.coordinate x.1.segment with hheld
  have hsum : (held.map fun x => (x.2.point - (v + w.cross joint.origin)).cross x.1.force +
      (x.1.point - joint.origin).cross x.2.force + x.2.moment).sum =
        (held.map fun x => (Load.excess w x).momentAbout joint.origin).sum +
          w.cross (held.map fun x => x.1.momentAbout joint.origin).sum := by
    rw [Vec3.cross_list_sum, List.map_map, ← List.sum_map_add]
    refine congrArg List.sum (List.map_congr_left fun x hx => ?_)
    rw [hpoint x (List.mem_filter.mp hx).1, add_sub_add_left_eq_sub, ← Vec3.cross_sub,
      Load.momentAbout_excess]
    rfl
  have hexcess : r.tree.momentBeyond joint (loads.map (Load.excess w)) =
      (held.map fun x => (Load.excess w x).momentAbout joint.origin).sum := by
    rw [Tree.momentBeyond, Vec3.sum_real, List.filter_map, List.map_map]
    rfl
  have hdirection : (r.velocities s).direction m joint.segment joint.axis = w.cross joint.axis :=
    h.direction _ _
  have horigin : (r.velocities s).point m joint.segment joint.origin = v + w.cross joint.origin :=
    h.point _ _
  rw [jointTorqueRate, hdirection, horigin, Tree.jointTorque, hexcess, Vec3.sum_real, Vec3.sum_real]
  simp only [Mat3.neg_skew_apply, Mat3.skew_apply]
  rw [← hheld, hsum, Vec3.dot_add, Vec3.dot_cross_swap joint.axis, Vec3.dot_comm _ (w.cross _)]
  ring

/-! ## Centre of gravity and wrenches -/

theorem cogRate_eq (hp : s.posture.Sound r.groups) (h : (r.velocities s).MovesRigidly m v w) :
    r.cogRate s m = v + w.cross s.cog.levelPosition := by
  have hmass : s.cog.mass ≠ 0 := hp.mass_pos.ne'
  have hmasses : ((r.loadedGroups s).map fun x => x.2.mass).sum = s.cog.mass := hp.mass.symm
  have hcentre : ((r.loadedGroups s).map fun x =>
      (s.posture.point x.1.base x.2.cog * x.2.mass : Vec3 ℝ)).sum =
        s.cog.levelPosition * s.cog.mass := hp.centre.symm
  have hpart : ∀ x ∈ r.loadedGroups s,
      ((r.groupRate s m x.1 x.2).2 * (x.2.mass / s.cog.mass) : Vec3 ℝ) =
        (v * x.2.mass + w.cross (s.posture.point x.1.base x.2.cog * x.2.mass : Vec3 ℝ)) *
          s.cog.mass⁻¹ := fun x _ => by
    have hpoint : (r.groupRate s m x.1 x.2).2 = v + w.cross (s.posture.point x.1.base x.2.cog) :=
      h.point _ _
    rw [hpoint, Vec3.mul_div_scale, Vec3.add_mul_scale, Vec3.cross_mul]
  calc r.cogRate s m
      = ((r.loadedGroups s).map fun x => (v * x.2.mass +
          w.cross (s.posture.point x.1.base x.2.cog * x.2.mass : Vec3 ℝ) : Vec3 ℝ)).sum *
            s.cog.mass⁻¹ := by
        rw [cogRate, Vec3.sum_real, ← Vec3.sum_mul]
        exact congrArg List.sum (List.map_congr_left hpart)
    _ = (v * s.cog.mass + w.cross (s.cog.levelPosition * s.cog.mass : Vec3 ℝ)) *
          s.cog.mass⁻¹ := by
        rw [List.sum_map_add, Vec3.mul_sum, hmasses, ← hcentre, Vec3.cross_list_sum, List.map_map]
        rfl
    _ = v + w.cross s.cog.levelPosition := by
        rw [Vec3.cross_mul, ← Vec3.add_mul_scale]
        ext <;> simp [hmass]

/-- The wrench of a rotor turns with the robot: its lever is that from the centre of gravity. -/
theorem wrenchRateAt_eq (hp : s.posture.Sound r.groups)
    (h : (r.velocities s).MovesRigidly m v w) (j : Fin r.mounts.length) :
    r.wrenchRateAt s m j = (r.wrenchAt s.posture j).turning w := by
  set rotor := r.rotorAt s.posture j
  have haxis : (r.velocities s).direction m rotor.segment rotor.axis = w.cross rotor.axis :=
    h.direction _ _
  have hlever : (r.velocities s).point m rotor.segment
      (s.cog.level.rotate (s.frames.get rotor.segment).origin) - r.cogRate s m =
        w.cross rotor.origin := by
    have horigin : rotor.origin = s.cog.level.rotate (s.frames.get rotor.segment).origin -
        s.cog.levelPosition := congrArg (· - _) (s.posture.point_zero _)
    have hpoint := h.point rotor.segment (s.cog.level.rotate (s.frames.get rotor.segment).origin)
    refine (congrArg₂ (· - ·) hpoint (cogRate_eq hp h)).trans ?_
    rw [add_sub_add_left_eq_sub, ← Vec3.cross_sub, horigin]
  have htorque : (r.wrenchAt s.posture j).torque =
      rotor.origin.cross rotor.axis + rotor.axis * rotor.drag := rfl
  rw [wrenchRateAt, wrenchRate, haxis, hlever, Mat3.neg_skew_apply, Mat3.skew_apply, Vec3.jacobi,
    Wrench.turning, htorque, Vec3.cross_add, Vec3.cross_mul]
  rfl

end Robot

end Multirotor
