import Multirotor.Proofs.Exact.Rotation
import Multirotor.Inertia

/-!
# Moments of mass

The mass of a body, its first moment and its inertia about the origin. Over
exact numbers the moments of bodies without negative mass add up, also where
the centre of gravity of a body without mass is forgotten, and a rigid frame
acts on them linearly (`moments_add`, `moments_transformed`). With negative
masses an addition can drop the first moment of its parts, and nothing else
(`Addition.seen_add`).
-/

namespace Multirotor

/-- The moments of a body in the axes of a frame and about its origin. -/
@[ext] structure Moments where
  mass : ℝ
  first : Vec3 ℝ
  second : Mat3 ℝ

namespace Moments

noncomputable instance : Zero Moments := ⟨⟨0, 0, 0⟩⟩
noncomputable instance : Add Moments :=
  ⟨fun a b => ⟨a.mass + b.mass, a.first + b.first, a.second + b.second⟩⟩
noncomputable instance : Neg Moments := ⟨fun a => ⟨-a.mass, -a.first, -a.second⟩⟩

@[simp] theorem zero_mass : (0 : Moments).mass = 0 := rfl
@[simp] theorem zero_first : (0 : Moments).first = 0 := rfl
@[simp] theorem zero_second : (0 : Moments).second = 0 := rfl

section
variable (a b : Moments)

@[simp] theorem add_mass : (a + b).mass = a.mass + b.mass := rfl
@[simp] theorem add_first : (a + b).first = a.first + b.first := rfl
@[simp] theorem add_second : (a + b).second = a.second + b.second := rfl
@[simp] theorem neg_mass : (-a).mass = -a.mass := rfl
@[simp] theorem neg_first : (-a).first = -a.first := rfl
@[simp] theorem neg_second : (-a).second = -a.second := rfl

end

noncomputable instance : AddCommGroup Moments where
  add_assoc a b c := Moments.ext (add_assoc _ _ _) (add_assoc _ _ _) (add_assoc _ _ _)
  zero_add a := Moments.ext (zero_add _) (zero_add _) (zero_add _)
  add_zero a := Moments.ext (add_zero _) (add_zero _) (add_zero _)
  add_comm a b := Moments.ext (add_comm _ _) (add_comm _ _) (add_comm _ _)
  neg_add_cancel a := Moments.ext (neg_add_cancel _) (neg_add_cancel _) (neg_add_cancel _)
  nsmul := nsmulRec
  zsmul := zsmulRec

end Moments

/-! ## The parallel-axis term -/

namespace Inertia

/-- The change of the parallel-axis term under a shift, by the first moment. -/
noncomputable def coupling (p μ : Vec3 ℝ) : Mat3 ℝ :=
  (Mat3.identity : Mat3 ℝ) * p.dot μ - Mat3.outer p μ +
    ((Mat3.identity : Mat3 ℝ) * μ.dot p - Mat3.outer μ p)

section
variable (m n : ℝ) (p c μ ν : Vec3 ℝ)

theorem coupling_add : coupling p (μ + ν) = coupling p μ + coupling p ν := by
  ext <;> simp [coupling, Mat3.identity_eq, Mat3.outer_eq, Vec3.dot_eq] <;> ring

theorem coupling_zero : coupling 0 μ = 0 := by
  ext <;> simp [coupling, Mat3.outer_eq]

theorem parallelAxis_add : parallelAxis (m + n) p = parallelAxis m p + parallelAxis n p := by
  ext <;> simp [parallelAxis, Mat3.identity_eq, Mat3.outer_eq] <;> ring

theorem parallelAxis_shift :
    parallelAxis m (p + c) = parallelAxis m c + parallelAxis m p + coupling p (c * m) := by
  ext <;> simp [parallelAxis, coupling, Mat3.identity_eq, Mat3.outer_eq, Vec3.normSq_eq,
    Vec3.dot_eq] <;> ring

theorem parallelAxis_sub :
    parallelAxis m (c - p) = parallelAxis m c - coupling p (c * m) + parallelAxis m p := by
  ext <;> simp [parallelAxis, coupling, Mat3.identity_eq, Mat3.outer_eq, Vec3.normSq_eq,
    Vec3.dot_eq] <;> ring

/-- A mass point on a lever resists a turn by its momentum on that lever. -/
theorem parallelAxis_apply (w : Vec3 ℝ) :
    (parallelAxis m c).apply w = c.cross (w.cross c) * m := by
  ext <;> simp [parallelAxis, Mat3.apply_eq, Mat3.identity_eq, Mat3.outer_eq, Vec3.normSq_eq,
    Vec3.dot_eq] <;> ring

theorem parallelAxis_zero : parallelAxis m (0 : Vec3 ℝ) = 0 := by
  ext <;> simp [parallelAxis, Mat3.outer_eq, Vec3.normSq_eq]

theorem turn_parallelAxis {r : Mat3 ℝ} (hr : r.Orthogonal) :
    r * parallelAxis m c * r.transpose = parallelAxis m (r.apply c) := by
  rw [parallelAxis, Mat3.mul_scale, Mat3.scale_mul, Mat3.mul_sub, Mat3.sub_mul, Mat3.mul_scale,
    Mat3.scale_mul, Mat3.mul_identity, hr.mul_transpose, Mat3.mul_outer_mul,
    Mat3.transpose_transpose, parallelAxis, hr.normSq_apply]

end

end Inertia

/-! ## Moments of a body -/

namespace Moments

open Inertia

/-- Moments given in a frame, seen from where the frame is given. -/
noncomputable def seen (f : Frame ℝ) : Moments →+ Moments :=
  AddMonoidHom.mk' (fun a =>
    { mass := a.mass
      first := f.origin * a.mass + f.rotation.rotate a.first
      second := f.rotation.toMatrix * a.second * f.rotation.toMatrix.transpose +
        parallelAxis a.mass f.origin + coupling f.origin (f.rotation.rotate a.first) })
    fun a b => by
      refine Moments.ext rfl ?_ ?_
      · simp only [add_mass, add_first, Vec3.mul_add_scale, Quat.rotate_add]
        abel
      · simp only [add_mass, add_first, add_second, Quat.rotate_add, coupling_add,
          parallelAxis_add, Mat3.mul_add, Mat3.add_mul]
        abel

theorem seen_first (f : Frame ℝ) (a : Moments) :
    (seen f a).first = f.origin * a.mass + f.rotation.rotate a.first := rfl

theorem seen_second (f : Frame ℝ) (a : Moments) :
    (seen f a).second = f.rotation.toMatrix * a.second * f.rotation.toMatrix.transpose +
      parallelAxis a.mass f.origin + coupling f.origin (f.rotation.rotate a.first) := rfl

theorem seen_identity (a : Moments) : seen .identity a = a := by
  have horigin : (Frame.identity : Frame ℝ).origin = 0 := rfl
  have hrotation : (Frame.identity : Frame ℝ).rotation = .identity := rfl
  refine Moments.ext rfl ?_ ?_
  · ext <;> simp [seen_first, horigin, hrotation, Quat.identity_rotate]
  · rw [seen_second, horigin, hrotation, Quat.toMatrix_identity, Mat3.transpose_identity,
      Mat3.mul_identity, Mat3.identity_mul, parallelAxis_zero, coupling_zero, add_zero, add_zero]

noncomputable def about (p : Vec3 ℝ) : Moments →+ Mat3 ℝ :=
  AddMonoidHom.mk' (fun a => a.second - coupling p a.first + parallelAxis a.mass p) fun a b => by
    simp only [add_mass, add_first, add_second, coupling_add, parallelAxis_add]
    abel

end Moments

attribute [ext] Inertia

namespace Inertia

noncomputable def moments (i : Inertia ℝ) : Moments := ⟨i.mass, i.cog * i.mass, i.aboutOrigin⟩

theorem moments_zero : (0 : Inertia ℝ).moments = 0 :=
  Moments.ext rfl (Vec3.mul_zero _) rfl

theorem add_mass (a b : Inertia ℝ) : (a + b).mass = a.mass + b.mass := rfl

theorem add_cog (a b : Inertia ℝ) : (a + b).cog =
    if 0 < a.mass + b.mass then (a.cog * a.mass + b.cog * b.mass) / (a.mass + b.mass) else 0 := rfl

theorem moments_add_of_pos {a b : Inertia ℝ} (h : 0 < a.mass + b.mass) :
    (a + b).moments = a.moments + b.moments := by
  refine Moments.ext rfl ?_ rfl
  change ((a + b).cog * (a.mass + b.mass) : Vec3 ℝ) = a.cog * a.mass + b.cog * b.mass
  rw [add_cog, if_pos h, Vec3.div_mul_cancel _ h.ne']

theorem moments_add {a b : Inertia ℝ} (ha : 0 ≤ a.mass) (hb : 0 ≤ b.mass) :
    (a + b).moments = a.moments + b.moments := by
  by_cases h : 0 < a.mass + b.mass
  · exact moments_add_of_pos h
  · have ha0 : a.mass = 0 := by linarith
    have hb0 : b.mass = 0 := by linarith
    refine Moments.ext rfl ?_ rfl
    change ((a + b).cog * (a.mass + b.mass) : Vec3 ℝ) = a.cog * a.mass + b.cog * b.mass
    rw [ha0, hb0, add_zero, Vec3.mul_zero, Vec3.mul_zero, Vec3.mul_zero, add_zero]

/-- Where there is mass, the moments say what the inertia is. -/
theorem eq_of_moments {i j : Inertia ℝ} (hmass : i.mass ≠ 0) (h : i.moments = j.moments) :
    i = j := by
  have hm : i.mass = j.mass := congrArg Moments.mass h
  have hfirst : (i.cog * i.mass : Vec3 ℝ) = j.cog * j.mass := congrArg Moments.first h
  rw [← hm] at hfirst
  refine Inertia.ext hm ?_ (congrArg Moments.second h)
  ext
  · exact mul_right_cancel₀ hmass (congrArg Vec3.x hfirst)
  · exact mul_right_cancel₀ hmass (congrArg Vec3.y hfirst)
  · exact mul_right_cancel₀ hmass (congrArg Vec3.z hfirst)

/-- The moments of a sum say what the sum is: without mass all centres are forgotten. -/
theorem add_eq_of_moments {a b c d : Inertia ℝ} (h : (a + b).moments = (c + d).moments) :
    a + b = c + d := by
  have hmass : (a + b).mass = (c + d).mass := congrArg Moments.mass h
  by_cases hpos : 0 < (a + b).mass
  · exact eq_of_moments hpos.ne' h
  · have hnone : ¬0 < (c + d).mass := by rwa [← hmass]
    have hab : (a + b).cog = 0 := if_neg hpos
    have hcd : (c + d).cog = 0 := if_neg hnone
    exact Inertia.ext hmass (hab.trans hcd.symm) (congrArg Moments.second h)

theorem transformed_eq (i : Inertia ℝ) (f : Frame ℝ) :
    i.transformed f = ofCog i.mass (f.point i.cog)
      (f.rotation.toMatrix * i.aboutCog * f.rotation.toMatrix.transpose) := rfl

theorem transformed_mass (i : Inertia ℝ) (f : Frame ℝ) : (i.transformed f).mass = i.mass := rfl

theorem aboutCog_ofCog (m : ℝ) (c : Vec3 ℝ) (a : Mat3 ℝ) : (ofCog m c a).aboutCog = a :=
  add_sub_cancel_right a (parallelAxis m c)

theorem aboutOrigin_eq (i : Inertia ℝ) : i.aboutOrigin = i.aboutCog + parallelAxis i.mass i.cog :=
  (sub_add_cancel _ _).symm

theorem moments_transformed {f : Frame ℝ} (hf : f.Rigid) (i : Inertia ℝ) :
    (i.transformed f).moments = Moments.seen f i.moments := by
  have hr := Quat.Unit.orthogonal hf
  refine Moments.ext rfl ?_ ?_
  · change (f.point i.cog * i.mass : Vec3 ℝ) = f.origin * i.mass + f.rotation.rotate (i.cog * i.mass)
    rw [Frame.point_eq, Vec3.add_mul_scale, Quat.rotate_mul]
  · rw [Moments.seen_second]
    change f.rotation.toMatrix * i.aboutCog * f.rotation.toMatrix.transpose +
        parallelAxis i.mass (f.point i.cog) =
      f.rotation.toMatrix * i.aboutOrigin * f.rotation.toMatrix.transpose +
        parallelAxis i.mass f.origin + coupling f.origin (f.rotation.rotate (i.cog * i.mass))
    rw [aboutOrigin_eq, Mat3.mul_add, Mat3.add_mul, turn_parallelAxis _ _ hr, Frame.point_eq,
      parallelAxis_shift, Quat.rotate_mul, Quat.Unit.rotate_eq hf]
    abel

theorem transformed_transformed {f g : Frame ℝ} (hf : f.Rigid) (hg : g.Rigid) (i : Inertia ℝ) :
    (i.transformed g).transformed f = i.transformed (f * g) := by
  have hcog : (i.transformed g).cog = g.point i.cog := rfl
  have hr : (f * g).rotation.toMatrix = f.rotation.toMatrix * g.rotation.toMatrix :=
    Quat.toMatrix_mul _ _
  rw [transformed_eq _ f, transformed_eq _ (f * g), hcog, transformed_mass, hf.mul_point hg, hr,
    transformed_eq i g, aboutCog_ofCog, Mat3.transpose_mul]
  simp only [Mat3.mul_assoc]

theorem about_moments (i : Inertia ℝ) (p : Vec3 ℝ) :
    Moments.about p i.moments = i.aboutCog + parallelAxis i.mass (i.cog - p) := by
  have hs : Moments.about p i.moments =
      i.aboutOrigin - coupling p (i.cog * i.mass) + parallelAxis i.mass p := rfl
  rw [hs, aboutOrigin_eq, parallelAxis_sub]
  abel

theorem about_cog_moments (i : Inertia ℝ) : Moments.about i.cog i.moments = i.aboutCog := by
  rw [about_moments, sub_self, parallelAxis_zero, add_zero]

end Inertia

/-! ## Additions -/

/-- Two inertias that are added, and the frame they are given in. -/
structure Addition where
  frame : Frame ℝ
  left : Inertia ℝ
  right : Inertia ℝ

namespace Addition

section
variable (x : Addition) (xs ys : List Addition)

noncomputable def mass : ℝ := x.left.mass + x.right.mass

/-- What the sum leaves out: without mass it is put at the origin, and the first moment is lost. -/
noncomputable def dropped : Moments :=
  if 0 < x.mass then 0
  else Moments.seen x.frame ⟨0, x.left.cog * x.left.mass + x.right.cog * x.right.mass, 0⟩

variable {x} in
theorem dropped_of_pos (h : 0 < x.mass) : x.dropped = 0 := if_pos h

theorem seen_add : Moments.seen x.frame (x.left + x.right).moments + x.dropped =
    Moments.seen x.frame x.left.moments + Moments.seen x.frame x.right.moments := by
  by_cases h : 0 < x.mass
  · rw [dropped_of_pos h, add_zero, Inertia.moments_add_of_pos h, map_add]
  · have hsum : (x.left + x.right).moments +
        ⟨0, x.left.cog * x.left.mass + x.right.cog * x.right.mass, 0⟩ =
          x.left.moments + x.right.moments := by
      refine Moments.ext (add_zero _) ?_ (add_zero _)
      have hcog : (x.left + x.right).cog = 0 := if_neg h
      change ((x.left + x.right).cog * x.mass : Vec3 ℝ) + _ = _
      rw [hcog]
      ext <;> simp [Inertia.moments]
    rw [dropped, if_neg h, ← map_add, hsum, map_add]

theorem dropped_of_nonneg (hl : 0 ≤ x.left.mass) (hr : 0 ≤ x.right.mass) : x.dropped = 0 := by
  have h := x.seen_add
  rw [Inertia.moments_add hl hr, map_add] at h
  exact add_eq_left.mp h

theorem mass_dropped : x.dropped.mass = 0 := by
  by_cases h : 0 < x.mass
  · rw [dropped_of_pos h]
    rfl
  · rw [dropped, if_neg h]
    rfl

noncomputable def droppedBy : Moments := (xs.map dropped).sum

theorem droppedBy_cons : droppedBy (x :: xs) = x.dropped + droppedBy xs := rfl

theorem droppedBy_append : droppedBy (xs ++ ys) = droppedBy xs + droppedBy ys := by
  unfold droppedBy
  rw [List.map_append, List.sum_append]

theorem mass_droppedBy : (droppedBy xs).mass = 0 := by
  induction xs with
  | nil => rfl
  | cons x xs ih => rw [droppedBy_cons, Moments.add_mass, mass_dropped, ih, add_zero]

end

section
variable {β : Type} (frame : Frame ℝ) (f : β → Inertia ℝ) {i : Inertia ℝ} {l : List β}

/-- The additions of a running sum. -/
noncomputable def running (i : Inertia ℝ) : List β → List Addition
  | [] => []
  | x :: l => ⟨frame, i, f x⟩ :: running (i + f x) l

theorem seen_foldl : Moments.seen frame (l.foldl (fun sum x => sum + f x) i).moments +
    droppedBy (running frame f i l) =
      Moments.seen frame i.moments + (l.map fun x => Moments.seen frame (f x).moments).sum := by
  induction l generalizing i with
  | nil => rfl
  | cons x l ih =>
    rw [List.foldl_cons, running, droppedBy_cons, add_left_comm, ih, ← add_assoc,
      add_comm (dropped _), seen_add ⟨frame, i, f x⟩, List.map_cons, List.sum_cons, add_assoc]

variable {f} (hi : 0 ≤ i.mass) (hf : ∀ x ∈ l, 0 ≤ (f x).mass)
include hi hf

theorem droppedBy_running : droppedBy (running frame f i l) = 0 := by
  induction l generalizing i with
  | nil => rfl
  | cons x l ih =>
    obtain ⟨hx, hf⟩ := List.forall_mem_cons.mp hf
    rw [running, droppedBy_cons, dropped_of_nonneg _ hi hx, zero_add]
    exact ih (add_nonneg hi hx) hf

end

end Addition

end Multirotor
