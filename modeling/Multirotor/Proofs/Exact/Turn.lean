import Multirotor.Proofs.Exact.Rotation

/-!
# Turns

Rotations by an angle about one axis. Angles about the same axis add, and a
rigid frame that turns about an axis of its own is the frame turned, as seen
from outside, about where it has that axis (`Rigid.mul_ofRotation`).
-/

namespace Multirotor

namespace Quat

theorem ofAxisAngle_eq (a : Vec3 ℝ) (angle : ℝ) : ofAxisAngle a angle =
    ⟨Real.cos (angle / 2), a.x * Real.sin (angle / 2), a.y * Real.sin (angle / 2),
      a.z * Real.sin (angle / 2)⟩ := by
  simp only [ofAxisAngle, Scalar.two_real]
  rfl

theorem ofAxisAngle_zero (a : Vec3 ℝ) : ofAxisAngle a 0 = identity := by
  rw [ofAxisAngle_eq, identity_eq]
  simp

theorem ofAxisAngle_add {a : Vec3 ℝ} (h : a.normSq = 1) (s t : ℝ) :
    ofAxisAngle a (s + t) = ofAxisAngle a s * ofAxisAngle a t := by
  rw [Vec3.normSq_eq, Vec3.dot_eq] at h
  simp only [ofAxisAngle_eq, mul_eq, add_div, Real.cos_add, Real.sin_add]
  generalize Real.cos (s / 2) = c, Real.sin (s / 2) = d, Real.cos (t / 2) = c',
    Real.sin (t / 2) = d'
  ext <;> dsimp only
  · linear_combination (d * d') * h
  all_goals ring

/-- A turn about an axis and then a rotation is the rotation and then a turn about the axis it takes
that one to. -/
theorem Unit.mul_ofAxisAngle {q : Quat ℝ} (h : q.Unit) (a : Vec3 ℝ) (t : ℝ) :
    q * ofAxisAngle a t = ofAxisAngle (q.rotate a) t * q := by
  rw [h.rotate_eq]
  rw [Unit, normSq_eq] at h
  simp only [ofAxisAngle_eq, mul_eq, toMatrix_eq, Mat3.apply_eq, Vec3.dot_eq]
  generalize Real.cos (t / 2) = c, Real.sin (t / 2) = s
  ext <;> dsimp only
  · linear_combination (s * (a.x * q.x + a.y * q.y + a.z * q.z)) * h
  · linear_combination (-s * (a.x * q.w + q.y * a.z - q.z * a.y)) * h
  · linear_combination (-s * (a.y * q.w + q.z * a.x - q.x * a.z)) * h
  · linear_combination (-s * (a.z * q.w + q.x * a.y - q.y * a.x)) * h

theorem Unit.normSq_rotate {q : Quat ℝ} (h : q.Unit) (v : Vec3 ℝ) :
    (q.rotate v).normSq = v.normSq := by
  rw [h.rotate_eq, h.orthogonal.normSq_apply]

end Quat

namespace Frame

/-- Turns all of space about the axis through a point. -/
noncomputable def turn (axis origin : Vec3 ℝ) (angle : ℝ) : Frame ℝ :=
  ⟨origin - (Quat.ofAxisAngle axis angle).rotate origin, Quat.ofAxisAngle axis angle⟩

variable {axis origin : Vec3 ℝ} {angle : ℝ} {f : Frame ℝ}

theorem turn_point (v : Vec3 ℝ) : (turn axis origin angle).point v =
    origin + (Quat.ofAxisAngle axis angle).rotate (v - origin) := by
  rw [point_eq, turn, Quat.rotate_sub]
  dsimp only
  abel

theorem rigid_turn (h : axis.normSq = 1) : (turn axis origin angle).Rigid :=
  Quat.unit_ofAxisAngle h angle

theorem Rigid.mul_ofRotation (hf : f.Rigid) (a : Vec3 ℝ) (t : ℝ) :
    f * ofRotation (Quat.ofAxisAngle a t) = turn (f.rotation.rotate a) f.origin t * f := by
  have ho : f.origin + f.rotation.rotate 0 = f.origin - (Quat.ofAxisAngle (f.rotation.rotate a) t).rotate
      f.origin + (Quat.ofAxisAngle (f.rotation.rotate a) t).rotate f.origin := by
    rw [Quat.rotate_zero, add_zero, sub_add_cancel]
  exact congrArg₂ Frame.mk ho (hf.mul_ofAxisAngle a t)

end Frame

end Multirotor
