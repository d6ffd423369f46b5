import Multirotor.Proofs.Moments

/-!
# Inertias seen from elsewhere

Rigid frames are a group, and to see an inertia from where a frame is given is
an action of it. Inertias without negative mass add in any order. Seeing and
adding go together where there is mass (`transformed_add_of_pos`); a sum
without mass is put at the origin, and only the moments agree
(`moments_transformed_add`).
-/

namespace Multirotor

/-! ## Rigid frames -/

/-- A frame that only turns and moves. -/
@[ext] structure RigidFrame where
  frame : Frame ℝ
  rigid : frame.Rigid

noncomputable instance : Group RigidFrame where
  mul f g := ⟨f.frame * g.frame, f.rigid.mul g.rigid⟩
  one := ⟨.identity, Frame.rigid_identity⟩
  inv f := ⟨f.frame.inverse, f.rigid.inverse⟩
  mul_assoc f g k := RigidFrame.ext (f.rigid.mul_assoc g.rigid k.frame)
  one_mul f := RigidFrame.ext (Frame.identity_mul f.frame)
  mul_one f := RigidFrame.ext (Frame.mul_identity f.frame)
  inv_mul_cancel f := RigidFrame.ext f.rigid.inverse_mul

namespace Inertia

theorem transformed_identity (i : Inertia ℝ) : i.transformed .identity = i := by
  have hcog : (Frame.identity : Frame ℝ).point i.cog = i.cog := Frame.identity_point i.cog
  have hrotation : (Frame.identity : Frame ℝ).rotation.toMatrix = Mat3.identity :=
    Quat.toMatrix_identity
  refine Inertia.ext rfl hcog ?_
  rw [transformed_eq, hcog, hrotation, Mat3.transpose_identity, Mat3.mul_identity,
    Mat3.identity_mul]
  exact (aboutOrigin_eq i).symm

noncomputable instance : MulAction RigidFrame (Inertia ℝ) where
  smul f i := i.transformed f.frame
  one_smul := transformed_identity
  mul_smul f g i := (transformed_transformed f.rigid g.rigid i).symm

theorem transformed_inverse {f : Frame ℝ} (hf : f.Rigid) (i : Inertia ℝ) :
    (i.transformed f).transformed f.inverse = i :=
  inv_smul_smul (⟨f, hf⟩ : RigidFrame) i

/-! ## Sums -/

theorem aboutCog_of_massless {i : Inertia ℝ} (h : i.mass = 0) : i.aboutCog = i.aboutOrigin := by
  have haxis : parallelAxis i.mass i.cog = 0 := by
    rw [h]
    ext <;> simp [parallelAxis]
  rw [aboutCog, haxis, sub_zero]

section
variable {a b c : Inertia ℝ} (ha : 0 ≤ a.mass) (hb : 0 ≤ b.mass)
include ha hb

protected theorem add_comm : a + b = b + a := by
  refine add_eq_of_moments ?_
  rw [moments_add ha hb, moments_add hb ha]
  abel

protected theorem add_assoc (hc : 0 ≤ c.mass) : a + b + c = a + (b + c) := by
  refine add_eq_of_moments ?_
  rw [moments_add (add_nonneg ha hb) hc, moments_add ha hb, moments_add ha (add_nonneg hb hc),
    moments_add hb hc]
  abel

variable {f : Frame ℝ} (hf : f.Rigid)
include hf

theorem moments_transformed_add :
    ((a + b).transformed f).moments = (a.transformed f + b.transformed f).moments := by
  have hsum : (a.transformed f + b.transformed f).moments =
      (a.transformed f).moments + (b.transformed f).moments := moments_add ha hb
  rw [hsum, moments_transformed hf, moments_add ha hb, map_add, ← moments_transformed hf,
    ← moments_transformed hf]

theorem transformed_add_of_pos (h : 0 < a.mass + b.mass) :
    (a + b).transformed f = a.transformed f + b.transformed f :=
  eq_of_moments h.ne' (moments_transformed_add ha hb hf)

/-- Without mass the centre of the sum is at the origin, before or after it is seen from
elsewhere, and that is the only difference. -/
theorem transformed_add_of_zero (h : a.mass + b.mass = 0) :
    ((a + b).transformed f).aboutOrigin = (a.transformed f + b.transformed f).aboutOrigin ∧
    ((a + b).transformed f).aboutCog = (a.transformed f + b.transformed f).aboutCog ∧
      ((a + b).transformed f = a.transformed f + b.transformed f ↔ f.origin = 0) := by
  have horigin := congrArg Moments.second (moments_transformed_add ha hb hf)
  have hnone : ¬0 < a.mass + b.mass := h.not_gt
  have hsum : (a + b).cog = 0 := if_neg hnone
  have hbefore : ((a + b).transformed f).cog = f.origin := by
    change f.point (a + b).cog = f.origin
    rw [hsum, Frame.point_eq, Quat.rotate_zero, add_zero]
  have hafter : (a.transformed f + b.transformed f).cog = 0 := if_neg hnone
  refine ⟨horigin, ?_, fun heq => ?_, fun hf => ?_⟩
  · rw [aboutCog_of_massless h, aboutCog_of_massless h]
    exact horigin
  · rw [← hbefore, heq, hafter]
  · exact Inertia.ext rfl (hbefore.trans (hf.trans hafter.symm)) horigin

end

/-- Frames act on inertias, and sums are seen from elsewhere as sums. -/
theorem transformed_action :
    (∀ (i : Inertia ℝ) (f g : Frame ℝ), f.Rigid → g.Rigid →
      (i.transformed f).transformed g = i.transformed (g * f)) ∧
    (∀ i : Inertia ℝ, i.transformed .identity = i) ∧
    (∀ (i : Inertia ℝ) (f : Frame ℝ), f.Rigid → (i.transformed f).transformed f.inverse = i) ∧
    (∀ a b : Inertia ℝ, 0 ≤ a.mass → 0 ≤ b.mass → a + b = b + a) ∧
    (∀ a b c : Inertia ℝ, 0 ≤ a.mass → 0 ≤ b.mass → 0 ≤ c.mass → a + b + c = a + (b + c)) ∧
    ∀ (a b : Inertia ℝ) (f : Frame ℝ), 0 ≤ a.mass → 0 ≤ b.mass → f.Rigid →
      (0 < a.mass + b.mass → (a + b).transformed f = a.transformed f + b.transformed f) ∧
      (a.mass + b.mass = 0 →
        ((a + b).transformed f).mass = (a.transformed f + b.transformed f).mass ∧
        ((a + b).transformed f).aboutOrigin = (a.transformed f + b.transformed f).aboutOrigin ∧
        ((a + b).transformed f).aboutCog = (a.transformed f + b.transformed f).aboutCog ∧
        ((a + b).transformed f = a.transformed f + b.transformed f ↔ f.origin = 0)) :=
  ⟨fun i _ _ hf hg => transformed_transformed hg hf i, transformed_identity,
    fun i _ hf => transformed_inverse hf i, fun _ _ => Inertia.add_comm,
    fun _ _ _ => Inertia.add_assoc, fun _ _ _ ha hb hf =>
      ⟨transformed_add_of_pos ha hb hf, fun h => ⟨rfl, transformed_add_of_zero ha hb hf h⟩⟩⟩

theorem transformed_action_halfTurn :
    let f : Frame ℝ := ⟨⟨1, 2, 3⟩, ⟨0, 0, 0, 1⟩⟩
    let g : Frame ℝ := ⟨⟨0, 0, 1⟩, ⟨0, 1, 0, 0⟩⟩
    let a : Inertia ℝ := .pointMass 1 ⟨1, 0, 0⟩
    let b : Inertia ℝ := .pointMass 2 ⟨0, 1, 0⟩
    let c : Inertia ℝ := ⟨0, ⟨0, 0, 1⟩, .identity⟩
    (f.Rigid ∧ g.Rigid ∧ 0 < a.mass + b.mass ∧ c.mass + c.mass = 0) ∧
      (a.transformed f).transformed g = a.transformed (g * f) ∧ a.transformed .identity = a ∧
      (a.transformed f).transformed f.inverse = a ∧ a + b = b + a ∧ a + b + c = a + (b + c) ∧
      (a + b).transformed f = a.transformed f + b.transformed f ∧
      ((c + c).transformed f).aboutOrigin = (c.transformed f + c.transformed f).aboutOrigin ∧
      ((c + c).transformed f).aboutCog = (c.transformed f + c.transformed f).aboutCog ∧
      (c + c).transformed f ≠ c.transformed f + c.transformed f := by
  intro f g a b c
  have hf : f.Rigid := by simp [f, Frame.Rigid, Quat.Unit, Quat.normSq_eq]
  have hg : g.Rigid := by simp [g, Frame.Rigid, Quat.Unit, Quat.normSq_eq]
  have ha : (0 : ℝ) ≤ a.mass := zero_le_one
  have hb : (0 : ℝ) ≤ b.mass := zero_le_two
  have hc : (0 : ℝ) ≤ c.mass := le_rfl
  have hab : (0 : ℝ) < a.mass + b.mass := add_pos zero_lt_one zero_lt_two
  have hcc : (c.mass + c.mass : ℝ) = 0 := add_zero 0
  have horigin : f.origin ≠ 0 := fun h => one_ne_zero (congrArg Vec3.x h)
  obtain ⟨hcomp, hid, hinv, hcomm, hassoc, hadd⟩ := transformed_action
  obtain ⟨-, hsecond, hcog, hsame⟩ := (hadd c c f hc hc hf).2 hcc
  exact ⟨⟨hf, hg, hab, hcc⟩, hcomp a f g hf hg, hid a, hinv a f hf, hcomm a b ha hb,
    hassoc a b c ha hb hc, (hadd a b f ha hb hf).1 hab, hsecond, hcog, mt hsame.mp horigin⟩

end Inertia

end Multirotor
