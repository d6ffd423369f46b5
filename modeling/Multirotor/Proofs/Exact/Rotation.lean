import Multirotor.Proofs.Exact.Matrix
import Multirotor.Frame

/-!
# Exact rotations

A unit quaternion rotates by an orthogonal matrix, products of unit
quaternions rotate one after the other, and so do rigid frames.
-/

namespace Multirotor

attribute [ext] Quat Frame

theorem Scalar.two_real : @OfScientific.ofScientific ℝ Scalar.toOfScientific 20 true 1 = 2 := by
  norm_num

namespace Quat

section
variable (p q : Quat ℝ) (u v : Vec3 ℝ) (s : ℝ)

theorem mul_eq : p * q =
    ⟨p.w * q.w - p.x * q.x - p.y * q.y - p.z * q.z,
      p.w * q.x + p.x * q.w + p.y * q.z - p.z * q.y,
      p.w * q.y - p.x * q.z + p.y * q.w + p.z * q.x,
      p.w * q.z + p.x * q.y - p.y * q.x + p.z * q.w⟩ := rfl

theorem normSq_eq : q.normSq = q.x * q.x + q.y * q.y + q.z * q.z + q.w * q.w := rfl

theorem inverse_eq : q.inverse = ⟨q.w, -q.x, -q.y, -q.z⟩ := rfl

theorem identity_eq : (identity : Quat ℝ) = ⟨1, 0, 0, 0⟩ := rfl

theorem rotate_eq : q.rotate v =
    (q.vector.cross v * (2 : ℝ) * q.w + q.vector.cross (q.vector.cross v * (2 : ℝ)) + v) := by
  rw [rotate, Scalar.two_real]

theorem toMatrix_eq : q.toMatrix =
    ⟨⟨q.w * q.w + q.x * q.x - q.y * q.y - q.z * q.z, q.x * q.y * 2 - q.w * q.z * 2,
        q.w * q.y * 2 + q.x * q.z * 2⟩,
      ⟨q.w * q.z * 2 + q.x * q.y * 2, q.w * q.w - q.x * q.x + q.y * q.y - q.z * q.z,
        q.y * q.z * 2 - q.w * q.x * 2⟩,
      ⟨q.x * q.z * 2 - q.w * q.y * 2, q.w * q.x * 2 + q.y * q.z * 2,
        q.w * q.w - q.x * q.x - q.y * q.y + q.z * q.z⟩⟩ := by
  simp only [toMatrix, Scalar.two_real]

theorem rotate_add : q.rotate (u + v) = q.rotate u + q.rotate v := by
  ext <;> simp [rotate_eq] <;> ring

theorem rotate_sub : q.rotate (u - v) = q.rotate u - q.rotate v := by
  ext <;> simp [rotate_eq] <;> ring

theorem rotate_neg : q.rotate (-v) = -q.rotate v := by
  ext <;> simp [rotate_eq] <;> ring

theorem rotate_mul : q.rotate (v * s : Vec3 ℝ) = q.rotate v * s := by
  ext <;> simp [rotate_eq] <;> ring

@[simp] theorem rotate_zero : q.rotate 0 = 0 := by
  ext <;> simp [rotate_eq]

protected theorem mul_assoc (r : Quat ℝ) : p * q * r = p * (q * r) := by
  ext <;> simp only [mul_eq] <;> ring

theorem normSq_mul : (p * q).normSq = p.normSq * q.normSq := by
  simp only [normSq_eq, mul_eq]
  ring

theorem normSq_inverse : q.inverse.normSq = q.normSq := by
  simp [normSq_eq, inverse_eq]

theorem toMatrix_mul : (p * q).toMatrix = p.toMatrix * q.toMatrix := by
  simp only [toMatrix_eq, mul_eq, Mat3.mul_eq, Mat3.col₀, Mat3.col₁, Mat3.col₂, Vec3.dot_eq]
  ext <;> ring

theorem toMatrix_identity : (identity : Quat ℝ).toMatrix = Mat3.identity := by
  ext <;> simp [toMatrix_eq, identity_eq, Mat3.identity_eq]

theorem toMatrix_inverse : q.inverse.toMatrix = q.toMatrix.transpose := by
  ext <;> simp [toMatrix_eq, inverse_eq, Mat3.transpose_eq] <;> ring

theorem toMatrix_mul_transpose :
    q.toMatrix * q.toMatrix.transpose = (Mat3.identity : Mat3 ℝ) * (q.normSq * q.normSq) := by
  ext <;> simp [toMatrix_eq, Mat3.mul_eq, Mat3.transpose_eq, Mat3.identity_eq, Mat3.col₀,
    Mat3.col₁, Mat3.col₂, Vec3.dot_eq, normSq_eq] <;> ring

theorem toMatrix_apply : q.toMatrix.apply v = q.rotate v + v * (q.normSq - 1) := by
  ext <;> simp [toMatrix_eq, rotate_eq, Mat3.apply_eq, Vec3.dot_eq, normSq_eq, vector] <;> ring

theorem toMatrix_cross :
    (q.toMatrix.apply u).cross (q.toMatrix.apply v) = q.toMatrix.apply (u.cross v) * q.normSq := by
  ext <;> simp [toMatrix_eq, Mat3.apply_eq, Vec3.dot_eq, normSq_eq] <;> ring

theorem mul_identity : q * identity = q := by
  ext <;> simp [mul_eq, identity_eq]

theorem identity_mul : identity * q = q := by
  ext <;> simp [mul_eq, identity_eq]

theorem identity_rotate : (identity : Quat ℝ).rotate v = v := by
  ext <;> simp [rotate_eq, identity_eq, vector]

theorem inverse_inverse : q.inverse.inverse = q := by
  ext <;> simp [inverse_eq]

theorem inverse_mul : (p * q).inverse = q.inverse * p.inverse := by
  ext <;> simp [mul_eq, inverse_eq] <;> ring

end

/-! ## Unit quaternions -/

def Unit (q : Quat ℝ) : Prop := q.normSq = 1

variable {p q : Quat ℝ}

theorem unit_identity : Unit identity := by
  simp [Unit, normSq_eq, identity_eq]

theorem Unit.mul (hp : p.Unit) (hq : q.Unit) : (p * q).Unit := by
  rw [Unit, normSq_mul, hp, hq, one_mul]

theorem Unit.inverse (hq : q.Unit) : q.inverse.Unit := by
  rw [Unit, normSq_inverse, hq]

theorem unit_normalize (h : 0 < q.normSq) : q.normalize.Unit := by
  have hs : √q.normSq * √q.normSq = q.normSq := Real.mul_self_sqrt h.le
  have hn : √q.normSq ≠ 0 := (Real.sqrt_pos.mpr h).ne'
  have he : q.normalize =
      ⟨q.w / √q.normSq, q.x / √q.normSq, q.y / √q.normSq, q.z / √q.normSq⟩ := rfl
  rw [Unit, he, normSq_eq]
  simp only [div_mul_div_comm, ← add_div, hs]
  rw [← normSq_eq, div_self h.ne']

theorem unit_ofAxisAngle {axis : Vec3 ℝ} (h : axis.normSq = 1) (angle : ℝ) :
    (ofAxisAngle axis angle).Unit := by
  rw [Vec3.normSq_eq, Vec3.dot_eq] at h
  simp only [ofAxisAngle, Scalar.two_real, Unit, normSq_eq]
  generalize angle / 2 = half
  change axis.x * Real.sin half * (axis.x * Real.sin half) +
    axis.y * Real.sin half * (axis.y * Real.sin half) +
    axis.z * Real.sin half * (axis.z * Real.sin half) + Real.cos half * Real.cos half = 1
  linear_combination Real.sin half ^ 2 * h + Real.sin_sq_add_cos_sq half

theorem Unit.mul_transpose (h : q.Unit) :
    q.toMatrix * q.toMatrix.transpose = Mat3.identity := by
  rw [toMatrix_mul_transpose, h, mul_one]
  ext <;> simp

theorem Unit.orthogonal (h : q.Unit) : q.toMatrix.Orthogonal where
  mul_transpose := h.mul_transpose
  transpose_mul := by
    have hi := h.inverse.mul_transpose
    rwa [toMatrix_inverse, Mat3.transpose_transpose] at hi

theorem Unit.rotate_eq (h : q.Unit) (v : Vec3 ℝ) : q.rotate v = q.toMatrix.apply v := by
  rw [toMatrix_apply, h, sub_self, Vec3.mul_zero, add_zero]

theorem Unit.mul_inverse (h : q.Unit) : q * q.inverse = identity := by
  rw [Unit, normSq_eq] at h
  ext <;> simp [mul_eq, inverse_eq, identity_eq] <;> linarith

theorem Unit.rotate_cross (h : q.Unit) (u v : Vec3 ℝ) :
    q.rotate (u.cross v) = (q.rotate u).cross (q.rotate v) := by
  simp only [h.rotate_eq]
  rw [toMatrix_cross, h]
  ext <;> simp

theorem Unit.mul_rotate (hp : p.Unit) (hq : q.Unit) (v : Vec3 ℝ) :
    (p * q).rotate v = p.rotate (q.rotate v) := by
  rw [(hp.mul hq).rotate_eq, hp.rotate_eq, hq.rotate_eq, toMatrix_mul, Mat3.mul_apply]

end Quat

/-! ## Rigid frames -/

namespace Frame

theorem mul_eq (f g : Frame ℝ) :
    f * g = ⟨f.origin + f.rotation.rotate g.origin, f.rotation * g.rotation⟩ := rfl

theorem point_eq (f : Frame ℝ) (v : Vec3 ℝ) : f.point v = f.origin + f.rotation.rotate v := rfl

/-- The frame only turns and moves. -/
def Rigid (f : Frame ℝ) : Prop := f.rotation.Unit

variable {f g : Frame ℝ}

theorem rigid_identity : Rigid identity := Quat.unit_identity

theorem Rigid.mul (hf : f.Rigid) (hg : g.Rigid) : (f * g).Rigid := Quat.Unit.mul hf hg

theorem Rigid.inverse (hf : f.Rigid) : f.inverse.Rigid := Quat.Unit.inverse hf

theorem mul_identity (f : Frame ℝ) : f * identity = f := by
  have ho : f.origin + f.rotation.rotate 0 = f.origin := by
    rw [Quat.rotate_zero, add_zero]
  exact congrArg₂ Frame.mk ho (Quat.mul_identity f.rotation)

theorem identity_point (v : Vec3 ℝ) : (identity : Frame ℝ).point v = v :=
  (zero_add _).trans (Quat.identity_rotate v)

theorem identity_mul (f : Frame ℝ) : identity * f = f :=
  congrArg₂ Frame.mk (identity_point f.origin) (Quat.identity_mul f.rotation)

theorem Rigid.mul_assoc (hf : f.Rigid) (hg : g.Rigid) (k : Frame ℝ) : f * g * k = f * (g * k) := by
  simp only [mul_eq, Quat.rotate_add, hf.mul_rotate hg, add_assoc, Quat.mul_assoc]

theorem Rigid.inverse_mul (hf : f.Rigid) : f.inverse * f = identity := by
  have hrot : f.rotation.inverse * f.rotation = Quat.identity := by
    simpa only [Quat.inverse_inverse] using Quat.Unit.mul_inverse (Quat.Unit.inverse hf)
  have horigin : f.rotation.inverse.rotate (-f.origin) + f.rotation.inverse.rotate f.origin = 0 := by
    rw [Quat.rotate_neg, neg_add_cancel]
  exact congrArg₂ Frame.mk horigin hrot

theorem Rigid.mul_point (hf : f.Rigid) (hg : g.Rigid) (v : Vec3 ℝ) :
    (f * g).point v = f.point (g.point v) := by
  simp only [point_eq, mul_eq, Quat.rotate_add, hf.mul_rotate hg, add_assoc]

end Frame

end Multirotor
