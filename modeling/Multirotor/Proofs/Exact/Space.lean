import Multirotor.Proofs.Exact.Scalar
import Multirotor.Mat3

/-!
# Exact vectors

Vectors and matrices of real numbers form groups, and the products of vectors
obey the laws of Euclidean space.
-/

namespace Multirotor

attribute [ext] Vec3 Mat3

namespace Vec3

@[simp] theorem zero_x : (0 : Vec3 ℝ).x = 0 := rfl
@[simp] theorem zero_y : (0 : Vec3 ℝ).y = 0 := rfl
@[simp] theorem zero_z : (0 : Vec3 ℝ).z = 0 := rfl

section
variable (a b c u v : Vec3 ℝ) (s t : ℝ)

@[simp] theorem add_x : (a + b).x = a.x + b.x := rfl
@[simp] theorem add_y : (a + b).y = a.y + b.y := rfl
@[simp] theorem add_z : (a + b).z = a.z + b.z := rfl
@[simp] theorem sub_x : (a - b).x = a.x - b.x := rfl
@[simp] theorem sub_y : (a - b).y = a.y - b.y := rfl
@[simp] theorem sub_z : (a - b).z = a.z - b.z := rfl
@[simp] theorem neg_x : (-a).x = -a.x := rfl
@[simp] theorem neg_y : (-a).y = -a.y := rfl
@[simp] theorem neg_z : (-a).z = -a.z := rfl
@[simp] theorem mul_x : (a * s : Vec3 ℝ).x = a.x * s := rfl
@[simp] theorem mul_y : (a * s : Vec3 ℝ).y = a.y * s := rfl
@[simp] theorem mul_z : (a * s : Vec3 ℝ).z = a.z * s := rfl
@[simp] theorem div_x : (a / s : Vec3 ℝ).x = a.x / s := rfl
@[simp] theorem div_y : (a / s : Vec3 ℝ).y = a.y / s := rfl
@[simp] theorem div_z : (a / s : Vec3 ℝ).z = a.z / s := rfl
@[simp] theorem cross_x : (a.cross b).x = a.y * b.z - a.z * b.y := rfl
@[simp] theorem cross_y : (a.cross b).y = a.z * b.x - a.x * b.z := rfl
@[simp] theorem cross_z : (a.cross b).z = a.x * b.y - a.y * b.x := rfl

theorem dot_eq : a.dot b = a.x * b.x + a.y * b.y + a.z * b.z := rfl

theorem normSq_eq : a.normSq = a.dot a := rfl

theorem norm_eq : a.norm = √a.normSq := rfl

noncomputable instance : AddCommGroup (Vec3 ℝ) where
  add_assoc a b c := by ext <;> simp [add_assoc]
  zero_add a := by ext <;> simp
  add_zero a := by ext <;> simp
  add_comm a b := by ext <;> simp [add_comm]
  neg_add_cancel a := by ext <;> simp
  sub_eq_add_neg a b := by ext <;> simp [sub_eq_add_neg]
  nsmul := nsmulRec
  zsmul := zsmulRec

theorem sum_real (vs : List (Vec3 ℝ)) : Vec3.sum vs = vs.sum := by
  rw [List.sum_eq_foldl]
  rfl

/-! ## Products -/

theorem dot_comm : a.dot b = b.dot a := by
  simp only [dot_eq]
  ring

theorem dot_add : u.dot (a + b) = u.dot a + u.dot b := by
  simp only [dot_eq, add_x, add_y, add_z]
  ring

theorem dot_sub : u.dot (a - b) = u.dot a - u.dot b := by
  simp only [dot_eq, sub_x, sub_y, sub_z]
  ring

theorem dot_neg : u.dot (-a) = -u.dot a := by
  simp only [dot_eq, neg_x, neg_y, neg_z]
  ring

theorem dot_mul : u.dot (a * s : Vec3 ℝ) = u.dot a * s := by
  simp only [dot_eq, mul_x, mul_y, mul_z]
  ring

@[simp] theorem dot_zero : u.dot 0 = 0 := by
  simp [dot_eq]

theorem add_dot : (a + b).dot u = a.dot u + b.dot u := by
  rw [dot_comm, dot_add, dot_comm u, dot_comm u]

theorem sub_dot : (a - b).dot u = a.dot u - b.dot u := by
  rw [dot_comm, dot_sub, dot_comm u, dot_comm u]

theorem neg_dot : (-a).dot u = -a.dot u := by
  rw [dot_comm, dot_neg, dot_comm]

theorem unitX_dot : unitX.dot a = a.x := by
  change 1 * a.x + 0 * a.y + 0 * a.z = a.x
  ring

theorem unitY_dot : unitY.dot a = a.y := by
  change 0 * a.x + 1 * a.y + 0 * a.z = a.y
  ring

theorem unitZ_dot : unitZ.dot a = a.z := by
  change 0 * a.x + 0 * a.y + 1 * a.z = a.z
  ring

theorem mul_dot : (a * s : Vec3 ℝ).dot u = a.dot u * s := by
  rw [dot_comm, dot_mul, dot_comm]

@[simp] theorem zero_dot : (0 : Vec3 ℝ).dot u = 0 := by
  rw [dot_comm, dot_zero]

theorem dot_sum {ι : Type*} (f : ι → Vec3 ℝ) (l : Finset ι) :
    u.dot (∑ i ∈ l, f i) = ∑ i ∈ l, u.dot (f i) :=
  map_sum (⟨⟨u.dot, dot_zero u⟩, fun a b => dot_add a b u⟩ : Vec3 ℝ →+ ℝ) f l

variable {a b} in
theorem ext_dot (h : ∀ u : Vec3 ℝ, u.dot a = u.dot b) : a = b := by
  ext
  · rw [← unitX_dot, h, unitX_dot]
  · rw [← unitY_dot, h, unitY_dot]
  · rw [← unitZ_dot, h, unitZ_dot]

theorem div_eq_mul : (a / s : Vec3 ℝ) = a * s⁻¹ := by
  ext <;> simp [div_eq_mul_inv]

protected theorem mul_zero : (a * (0 : ℝ) : Vec3 ℝ) = 0 := by
  ext <;> simp

variable {a s} in
theorem eq_zero_of_mul (hs : s ≠ 0) (h : (a * s : Vec3 ℝ) = 0) : a = 0 := by
  ext
  · exact (mul_eq_zero.mp (congrArg Vec3.x h)).resolve_right hs
  · exact (mul_eq_zero.mp (congrArg Vec3.y h)).resolve_right hs
  · exact (mul_eq_zero.mp (congrArg Vec3.z h)).resolve_right hs

variable {s} in
protected theorem div_mul_cancel (h : s ≠ 0) : (a / s * s : Vec3 ℝ) = a := by
  ext <;> simp [h]

theorem mul_add_scale : (a * (s + t) : Vec3 ℝ) = a * s + a * t := by
  ext <;> simp [mul_add]

theorem mul_div_scale : (a * (s / t) : Vec3 ℝ) = a * s * t⁻¹ := by
  ext <;> simp [div_eq_mul_inv, mul_assoc]

theorem add_mul_scale : ((a + b) * s : Vec3 ℝ) = a * s + b * s := by
  ext <;> simp [add_mul]

theorem cross_swap : a.cross b = -b.cross a := by
  ext <;> simp <;> ring

@[simp] theorem cross_self : a.cross a = 0 := by
  ext <;> simp [mul_comm]

@[simp] theorem cross_zero : a.cross 0 = 0 := by
  ext <;> simp

@[simp] theorem zero_cross : (0 : Vec3 ℝ).cross a = 0 := by
  ext <;> simp

theorem cross_add : u.cross (a + b) = u.cross a + u.cross b := by
  ext <;> simp <;> ring

theorem cross_sub : u.cross (a - b) = u.cross a - u.cross b := by
  ext <;> simp <;> ring

theorem add_cross : (a + b).cross u = a.cross u + b.cross u := by
  ext <;> simp <;> ring

theorem cross_sum {ι : Type*} (f : ι → Vec3 ℝ) (l : Finset ι) :
    u.cross (∑ i ∈ l, f i) = ∑ i ∈ l, u.cross (f i) :=
  map_sum (⟨⟨u.cross, cross_zero u⟩, fun a b => cross_add a b u⟩ : Vec3 ℝ →+ Vec3 ℝ) f l

theorem cross_list_sum (l : List (Vec3 ℝ)) : u.cross l.sum = (l.map u.cross).sum :=
  map_list_sum (AddMonoidHom.mk' u.cross fun a b => cross_add a b u) l

theorem sum_cross {ι : Type*} (f : ι → Vec3 ℝ) (l : List ι) :
    (l.map fun i => (f i).cross u).sum = (l.map f).sum.cross u := by
  induction l with
  | nil => exact (zero_cross u).symm
  | cons i l ih => rw [List.map_cons, List.sum_cons, ih, List.map_cons, List.sum_cons, add_cross]

theorem mul_sum {ι : Type*} (f : ι → ℝ) (l : List ι) :
    (l.map fun i => (u * f i : Vec3 ℝ)).sum = u * (l.map f).sum := by
  induction l with
  | nil => exact (Vec3.mul_zero u).symm
  | cons i l ih => rw [List.map_cons, List.sum_cons, ih, List.map_cons, List.sum_cons, mul_add_scale]

theorem sum_mul {ι : Type*} (f : ι → Vec3 ℝ) (l : List ι) :
    (l.map fun i => (f i * s : Vec3 ℝ)).sum = (l.map f).sum * s := by
  induction l with
  | nil => ext <;> simp
  | cons i l ih => rw [List.map_cons, List.sum_cons, ih, List.map_cons, List.sum_cons, add_mul_scale]

theorem cross_swap_mul_neg : (b.cross a * -s : Vec3 ℝ) = a.cross b * s := by
  ext <;> simp <;> ring

theorem cross_mul : u.cross (a * s : Vec3 ℝ) = u.cross a * s := by
  ext <;> simp <;> ring

theorem mul_cross : (a * s : Vec3 ℝ).cross u = a.cross u * s := by
  ext <;> simp <;> ring

theorem cross_mul_mul : (a * s : Vec3 ℝ).cross (b * t) = a.cross b * (s * t) := by
  ext <;> simp <;> ring

theorem dot_cross_left : a.dot (a.cross b) = 0 := by
  simp only [dot_eq, cross_x, cross_y, cross_z]
  ring

theorem dot_cross_right : b.dot (a.cross b) = 0 := by
  simp only [dot_eq, cross_x, cross_y, cross_z]
  ring

theorem cross_dot : (a.cross b).dot c = a.dot (b.cross c) := by
  simp only [dot_eq, cross_x, cross_y, cross_z]
  ring

/-- The volume of three vectors is that of the same vectors taken in turn. -/
theorem cross_dot_turn : (a.cross b).dot c = (b.cross c).dot a := by
  rw [cross_dot, dot_comm]

theorem dot_cross_swap : a.dot (u.cross b) = -(u.cross a).dot b := by
  simp only [dot_eq, cross_x, cross_y, cross_z]
  ring

theorem jacobi : (u.cross a).cross b + a.cross (u.cross b) = u.cross (a.cross b) := by
  ext <;> simp <;> ring

theorem mul_triple : (u * (a.cross b).dot c : Vec3 ℝ) =
    b.cross c * a.dot u + c.cross a * b.dot u + a.cross b * c.dot u := by
  ext <;> simp [dot_eq] <;> ring

theorem lagrange : a.dot b ^ 2 + (a.cross b).normSq = a.normSq * b.normSq := by
  simp only [normSq_eq, dot_eq, cross_x, cross_y, cross_z]
  ring

theorem eq_zero_of_triple {a b c u : Vec3 ℝ} (h : (a.cross b).dot c ≠ 0) (ha : a.dot u = 0)
    (hb : b.dot u = 0) (hc : c.dot u = 0) : u = 0 := by
  have htriple := mul_triple a b c u
  rw [ha, hb, hc, Vec3.mul_zero, Vec3.mul_zero, Vec3.mul_zero, add_zero, add_zero] at htriple
  exact eq_zero_of_mul h htriple

theorem cross_cross_cross : (u.cross a).cross (u.cross b) = u * (u.cross a).dot b := by
  ext <;> simp [dot_eq] <;> ring

/-! ## Lengths -/

theorem normSq_nonneg : 0 ≤ a.normSq := by
  rw [normSq_eq, dot_eq]
  nlinarith [mul_self_nonneg a.x, mul_self_nonneg a.y, mul_self_nonneg a.z]

protected theorem norm_nonneg : 0 ≤ a.norm := Real.sqrt_nonneg _

theorem norm_mul_self : a.norm * a.norm = a.normSq := Real.mul_self_sqrt (normSq_nonneg a)

theorem normSq_mul : (a * s : Vec3 ℝ).normSq = a.normSq * (s * s) := by
  simp only [normSq_eq, dot_mul, mul_dot]
  ring

protected theorem norm_mul : (a * s : Vec3 ℝ).norm = a.norm * |s| := by
  rw [norm_eq, normSq_mul, Real.sqrt_mul (normSq_nonneg a), Real.sqrt_mul_self_eq_abs, norm_eq]

theorem dot_le_norm_mul_norm : a.dot b ≤ a.norm * b.norm := by
  refine abs_le_of_sq_le_sq' ?_ (mul_nonneg (Vec3.norm_nonneg a) (Vec3.norm_nonneg b)) |>.2
  have h : (a.norm * b.norm) ^ 2 = a.normSq * b.normSq := by
    rw [mul_pow, sq, sq, norm_mul_self, norm_mul_self]
  rw [h, ← lagrange]
  linarith [normSq_nonneg (a.cross b)]

theorem norm_add_le : (a + b).norm ≤ a.norm + b.norm := by
  have hdot := dot_le_norm_mul_norm a b
  have hsq : (a + b).normSq ≤ (a.norm + b.norm) ^ 2 := by
    calc (a + b).normSq = a.normSq + b.normSq + 2 * a.dot b := by
          rw [normSq_eq, normSq_eq, normSq_eq, add_dot, dot_add, dot_add, dot_comm b a]
          ring
      _ ≤ a.norm * a.norm + b.norm * b.norm + 2 * (a.norm * b.norm) := by
          rw [norm_mul_self, norm_mul_self]
          linarith
      _ = (a.norm + b.norm) ^ 2 := by ring
  rw [norm_eq]
  exact Real.sqrt_le_iff.mpr ⟨add_nonneg (Vec3.norm_nonneg a) (Vec3.norm_nonneg b), hsq⟩

protected theorem norm_neg : (-a).norm = a.norm := by
  rw [norm_eq, norm_eq, normSq_eq, normSq_eq, dot_neg, neg_dot, neg_neg]

theorem norm_cross_comm : (a.cross b).norm = (b.cross a).norm := by
  rw [cross_swap, Vec3.norm_neg]

theorem norm_cross_le : (a.cross b).norm ≤ a.norm * b.norm := by
  rw [norm_eq, norm_eq, norm_eq, ← Real.sqrt_mul (normSq_nonneg a), ← lagrange]
  exact Real.sqrt_le_sqrt (le_add_of_nonneg_left (sq_nonneg _))

end

variable {a b u : Vec3 ℝ}

theorem normSq_eq_zero : a.normSq = 0 ↔ a = 0 := by
  constructor
  · intro h
    rw [normSq_eq, dot_eq] at h
    have hx := mul_self_nonneg a.x
    have hy := mul_self_nonneg a.y
    have hz := mul_self_nonneg a.z
    ext
    · exact mul_self_eq_zero.mp (by linarith)
    · exact mul_self_eq_zero.mp (by linarith)
    · exact mul_self_eq_zero.mp (by linarith)
  · rintro rfl
    exact dot_zero 0

theorem normSq_pos (h : a ≠ 0) : 0 < a.normSq :=
  lt_of_le_of_ne (normSq_nonneg a) fun e => h (normSq_eq_zero.mp e.symm)

theorem norm_pos (h : a ≠ 0) : 0 < a.norm := Real.sqrt_pos.mpr (normSq_pos h)

protected theorem norm_zero : (0 : Vec3 ℝ).norm = 0 := by
  rw [norm_eq, normSq_eq_zero.mpr rfl, Real.sqrt_zero]

theorem normalize_eq : a.normalize = a * a.norm⁻¹ := div_eq_mul a a.norm

theorem norm_normalize (h : a ≠ 0) : a.normalize.norm = 1 := by
  rw [normalize_eq, Vec3.norm_mul, abs_of_pos (inv_pos.mpr (norm_pos h)), mul_inv_cancel₀ (norm_pos h).ne']

theorem normalize_mul_norm (h : a ≠ 0) : (a.normalize * a.norm : Vec3 ℝ) = a := by
  rw [normalize_eq]
  ext <;> simp [mul_assoc, inv_mul_cancel₀ (norm_pos h).ne']

theorem direction_eq (a : Vec3 ℝ) : a.direction = a * a.norm⁻¹ := by
  rw [direction]
  split
  · rename_i h
    rw [le_antisymm h (Vec3.norm_nonneg a), inv_zero, Vec3.mul_zero]
  · rw [div_eq_mul]

theorem norm_direction (h : a ≠ 0) : a.direction.norm = 1 := by
  rw [direction_eq, ← normalize_eq, norm_normalize h]

theorem norm_eq_zero : a.norm = 0 ↔ a = 0 := by
  rw [norm_eq, Real.sqrt_eq_zero (normSq_nonneg a), normSq_eq_zero]

/-! ## Orthogonality -/

/-- A vector orthogonal to two others lies along their cross product. -/
theorem mul_normSq_cross (ha : u.dot a = 0) (hb : u.dot b = 0) :
    (u * (a.cross b).normSq : Vec3 ℝ) = a.cross b * (a.cross b).dot u := by
  rw [normSq_eq, mul_triple a b, dot_comm a u, dot_comm b u, ha, hb, Vec3.mul_zero, Vec3.mul_zero]
  simp only [zero_add]

theorem cross_ne_zero (ha : a ≠ 0) (hb : b ≠ 0) (h : a.dot b = 0) : a.cross b ≠ 0 := by
  intro hc
  have hl := lagrange a b
  rw [h, normSq_eq_zero.mpr hc] at hl
  have := mul_pos (normSq_pos ha) (normSq_pos hb)
  linarith

theorem exists_orthogonal (u : Vec3 ℝ) : ∃ a : Vec3 ℝ, a ≠ 0 ∧ u.dot a = 0 := by
  by_cases h : u.cross unitX = 0
  · refine ⟨unitY, fun e => one_ne_zero (congrArg Vec3.y e), ?_⟩
    have hz : u.x * 0 - u.y * 1 = 0 := congrArg Vec3.z h
    change u.x * 0 + u.y * 1 + u.z * 0 = 0
    linarith
  · exact ⟨u.cross unitX, h, dot_cross_left u unitX⟩

end Vec3

end Multirotor
