import Multirotor.Proofs.Exact.Space

/-!
# Exact matrices

Matrices of real numbers form a group and multiply as matrices do. One whose
transpose is its inverse keeps products of vectors.
-/

namespace Multirotor

namespace Mat3

section
variable (a b c : Mat3 ℝ) (u v : Vec3 ℝ) (s t : ℝ)

@[simp] theorem zero_row₀ : (0 : Mat3 ℝ).row₀ = 0 := rfl
@[simp] theorem zero_row₁ : (0 : Mat3 ℝ).row₁ = 0 := rfl
@[simp] theorem zero_row₂ : (0 : Mat3 ℝ).row₂ = 0 := rfl
@[simp] theorem add_row₀ : (a + b).row₀ = a.row₀ + b.row₀ := rfl
@[simp] theorem add_row₁ : (a + b).row₁ = a.row₁ + b.row₁ := rfl
@[simp] theorem add_row₂ : (a + b).row₂ = a.row₂ + b.row₂ := rfl
@[simp] theorem sub_row₀ : (a - b).row₀ = a.row₀ - b.row₀ := rfl
@[simp] theorem sub_row₁ : (a - b).row₁ = a.row₁ - b.row₁ := rfl
@[simp] theorem sub_row₂ : (a - b).row₂ = a.row₂ - b.row₂ := rfl
@[simp] theorem neg_row₀ : (-a).row₀ = -a.row₀ := rfl
@[simp] theorem neg_row₁ : (-a).row₁ = -a.row₁ := rfl
@[simp] theorem neg_row₂ : (-a).row₂ = -a.row₂ := rfl
@[simp] theorem mul_row₀ : (a * s : Mat3 ℝ).row₀ = a.row₀ * s := rfl
@[simp] theorem mul_row₁ : (a * s : Mat3 ℝ).row₁ = a.row₁ * s := rfl
@[simp] theorem mul_row₂ : (a * s : Mat3 ℝ).row₂ = a.row₂ * s := rfl

theorem mul_eq : a * b =
    ⟨⟨a.row₀.dot b.col₀, a.row₀.dot b.col₁, a.row₀.dot b.col₂⟩,
      ⟨a.row₁.dot b.col₀, a.row₁.dot b.col₁, a.row₁.dot b.col₂⟩,
      ⟨a.row₂.dot b.col₀, a.row₂.dot b.col₁, a.row₂.dot b.col₂⟩⟩ := rfl

theorem transpose_eq : a.transpose =
    ⟨⟨a.row₀.x, a.row₁.x, a.row₂.x⟩, ⟨a.row₀.y, a.row₁.y, a.row₂.y⟩,
      ⟨a.row₀.z, a.row₁.z, a.row₂.z⟩⟩ := rfl

theorem apply_eq : a.apply v = ⟨a.row₀.dot v, a.row₁.dot v, a.row₂.dot v⟩ := rfl

theorem identity_eq : (identity : Mat3 ℝ) = ⟨⟨1, 0, 0⟩, ⟨0, 1, 0⟩, ⟨0, 0, 1⟩⟩ := rfl

theorem outer_eq : outer u v =
    ⟨⟨u.x * v.x, u.x * v.y, u.x * v.z⟩, ⟨u.y * v.x, u.y * v.y, u.y * v.z⟩,
      ⟨u.z * v.x, u.z * v.y, u.z * v.z⟩⟩ := rfl

noncomputable instance : AddCommGroup (Mat3 ℝ) where
  add_assoc a b c := by ext <;> simp [add_assoc]
  zero_add a := by ext <;> simp
  add_zero a := by ext <;> simp
  add_comm a b := by ext <;> simp [add_comm]
  neg_add_cancel a := by ext <;> simp
  sub_eq_add_neg a b := by ext <;> simp [sub_eq_add_neg]
  nsmul := nsmulRec
  zsmul := zsmulRec

/-! ## Products -/

protected theorem mul_assoc : a * b * c = a * (b * c) := by
  ext <;> simp [mul_eq, col₀, col₁, col₂, Vec3.dot_eq] <;> ring

protected theorem mul_add : a * (b + c) = a * b + a * c := by
  ext <;> simp [mul_eq, col₀, col₁, col₂, Vec3.dot_eq] <;> ring

protected theorem add_mul : (a + b) * c = a * c + b * c := by
  ext <;> simp [mul_eq, col₀, col₁, col₂, Vec3.dot_eq] <;> ring

protected theorem mul_sub : a * (b - c) = a * b - a * c := by
  ext <;> simp [mul_eq, col₀, col₁, col₂, Vec3.dot_eq] <;> ring

protected theorem sub_mul : (a - b) * c = a * c - b * c := by
  ext <;> simp [mul_eq, col₀, col₁, col₂, Vec3.dot_eq] <;> ring

theorem mul_identity : a * identity = a := by
  ext <;> simp [mul_eq, identity_eq, col₀, col₁, col₂, Vec3.dot_eq]

theorem identity_mul : identity * a = a := by
  ext <;> simp [mul_eq, identity_eq, col₀, col₁, col₂, Vec3.dot_eq]

theorem transpose_identity : (identity : Mat3 ℝ).transpose = identity := rfl

theorem scale_mul : (a * s : Mat3 ℝ) * b = a * b * s := by
  ext <;> simp [mul_eq, col₀, col₁, col₂, Vec3.dot_eq] <;> ring

theorem mul_scale : a * (b * s : Mat3 ℝ) = a * b * s := by
  ext <;> simp [mul_eq, col₀, col₁, col₂, Vec3.dot_eq] <;> ring

theorem transpose_mul : (a * b).transpose = b.transpose * a.transpose := by
  ext <;> simp [mul_eq, transpose_eq, col₀, col₁, col₂, Vec3.dot_eq] <;> ring

theorem transpose_transpose : a.transpose.transpose = a := rfl

theorem mul_apply : (a * b).apply v = a.apply (b.apply v) := by
  ext <;> simp [mul_eq, apply_eq, col₀, col₁, col₂, Vec3.dot_eq] <;> ring

theorem add_apply : (a + b).apply v = a.apply v + b.apply v := by
  ext <;> simp [apply_eq, Vec3.add_dot]

theorem list_sum_apply (l : List (Mat3 ℝ)) : l.sum.apply v = (l.map fun a => a.apply v).sum :=
  map_list_sum (AddMonoidHom.mk' (fun a : Mat3 ℝ => a.apply v) fun a b => add_apply a b v) l

theorem mul_list_sum_mul (l : List (Mat3 ℝ)) : a * l.sum * b = (l.map fun c => a * c * b).sum :=
  map_list_sum (AddMonoidHom.mk' (fun c : Mat3 ℝ => a * c * b) fun c d => by
    rw [Mat3.mul_add, Mat3.add_mul]) l

theorem identity_apply : identity.apply v = v := by
  ext <;> simp [apply_eq, identity_eq, Vec3.dot_eq]

theorem apply_dot : (a.apply u).dot v = u.dot (a.transpose.apply v) := by
  simp [apply_eq, transpose_eq, Vec3.dot_eq]
  ring

theorem mul_outer_mul : a * outer u v * b = outer (a.apply u) (b.transpose.apply v) := by
  ext <;> simp [mul_eq, outer_eq, apply_eq, transpose_eq, col₀, col₁, col₂, Vec3.dot_eq] <;> ring

end

/-! ## Orthogonal matrices -/

structure Orthogonal (r : Mat3 ℝ) : Prop where
  mul_transpose : r * r.transpose = identity
  transpose_mul : r.transpose * r = identity

variable {r : Mat3 ℝ}

theorem Orthogonal.apply_dot_apply (h : r.Orthogonal) (u v : Vec3 ℝ) :
    (r.apply u).dot (r.apply v) = u.dot v := by
  rw [apply_dot, ← mul_apply, h.transpose_mul, identity_apply]

theorem Orthogonal.normSq_apply (h : r.Orthogonal) (v : Vec3 ℝ) : (r.apply v).normSq = v.normSq :=
  h.apply_dot_apply v v

theorem Orthogonal.apply_row₂ (h : r.Orthogonal) : r.apply r.row₂ = Vec3.unitZ :=
  congrArg col₂ h.mul_transpose

end Mat3

end Multirotor
