import Multirotor.Proofs.Sensitivity.Displacement
import Multirotor.Proofs.Sensitivity.ThrustEquations

/-!
# Centre of gravity and momentum

A segment moves as one rigid body, so one angular velocity turns all its
directions. The analytic columns of the centre of gravity are its rates along
the displaced postures, and those of the momentum are made of the rates of
the groups there (`analytic_momentum`).
-/

namespace Multirotor

namespace VelocityField

variable (f : VelocityField ℝ) (m : Motion) (i : Fin f.tree.size) (x y v : Vec3 ℝ)

theorem direction_eq : f.direction m i v = (f.angular m i).cross v := by
  cases m with
  | shift k => exact (Vec3.zero_cross v).symm
  | turn k => rfl
  | bend c =>
    simp only [direction, angular]
    cases f.hinge? c i with
    | none => exact (Vec3.zero_cross v).symm
    | some joint => rfl

theorem point_sub : f.point m i x - f.point m i y = f.direction m i (x - y) := by
  cases m with
  | shift k => exact sub_self _
  | turn k => exact (Vec3.cross_sub x y _).symm
  | bend c =>
    simp only [point, direction]
    cases f.hinge? c i with
    | none => exact sub_zero 0
    | some joint =>
      dsimp only
      rw [← Vec3.cross_sub, sub_sub_sub_cancel_right]

end VelocityField

namespace Robot

section
variable {r : Robot ℝ} {s : HoverState ℝ r.tree.size} {m : Motion}
  {path : ℝ → Posture r.tree.size} (h : r.Moves s m path)
include h

theorem Moves.direction (i : Fin r.tree.size) (v : Vec3 ℝ) :
    Vec3.HasRate (fun t => (path t).direction i v)
      ((r.velocities s).direction m i (s.posture.direction i v)) := by
  have hsplit : ∀ p : Posture r.tree.size, p.direction i v = p.point i v - p.point i 0 := fun p => by
    rw [Posture.point_sub_point, sub_zero]
  simp only [hsplit]
  exact ((h.point i v).sub (h.point i 0)).congr_rate ((r.velocities s).point_sub m i _ _)

theorem Moves.attitude (i : Fin r.tree.size) : Mat3.HasRate (fun t => (path t).attitude i)
    (Mat3.skew ((r.velocities s).angular m i) * s.posture.attitude i) := by
  -- The columns are the directions of the axes, and all directions turn alike.
  intro k
  have hcol : s.posture.Sound r.groups := h.start ▸ h.sound 0
  simp only [(h.sound _).col_attitude]
  rw [Mat3.col_mul, Mat3.skew_apply, hcol.col_attitude]
  exact (h.direction i (Vec3.unit k)).congr_rate ((r.velocities s).direction_eq m i _)

/-- The centre of gravity is the mean of those of the groups, at every step. -/
theorem Moves.levelPosition :
    Vec3.HasRate (fun t => (path t).cog.levelPosition) (r.cogRate s m) := by
  have hmass : s.cog.mass ≠ 0 := h.mass 0 ▸ (h.sound 0).mass_pos.ne'
  have hmean : ∀ t, (path t).cog.levelPosition = (((r.loadedGroups s).map fun x =>
      ((path t).point x.1.base x.2.cog * x.2.mass : Vec3 ℝ)).sum * s.cog.mass⁻¹ : Vec3 ℝ) := fun t => by
    have hcentre := (h.sound t).centre
    rw [h.mass, h.loaded] at hcentre
    rw [loadedGroups, ← hcentre]
    ext <;> simp [hmass]
  simp only [hmean]
  have hsum := Vec3.HasRate.sum fun x (_ : x ∈ r.loadedGroups s) =>
    (h.point x.1.base x.2.cog).mul_const x.2.mass
  refine (hsum.mul_const s.cog.mass⁻¹).congr_rate ?_
  rw [cogRate, Vec3.sum_real, ← Vec3.sum_mul]
  exact congrArg List.sum (List.map_congr_left fun x _ => (Vec3.mul_div_scale _ _ _).symm)

end

theorem momentumRate_eq {r : Robot ℝ} (s : HoverState ℝ r.tree.size) (m : Motion) :
    r.momentumRate s m = Vec3.sum ((r.loadedGroups s).map fun b =>
      ((s.posture.point b.1.base b.2.cog - s.cog.levelPosition).cross
          ((r.velocities s).point m b.1.base (s.posture.point b.1.base b.2.cog)) * b.2.mass : Vec3 ℝ) +
        (s.posture.attitude b.1.base * b.2.aboutCog * (s.posture.attitude b.1.base).transpose).apply
          ((r.velocities s).angular m b.1.base)) := by
  unfold momentumRate groupRate groupTensor
  simp only [Mat3.skew_apply, ← Quat.toMatrix_mul]
  rfl

/-- The columns of one motion: the centre of gravity at its rate along postures, and the angular
momentum that the groups have at their linear and angular velocities there. -/
structure MomentumColumns (r : Robot ℝ) (s : HoverState ℝ r.tree.size) (sens : Sensitivity ℝ)
    (m : Motion) (path : ℝ → Posture r.tree.size) : Prop where
  cog : ∃ dc, sens.cog.columns[m.column]? = some dc.toList ∧
    Vec3.HasRate (fun t => (path t).cog.levelPosition) dc
  momentum : ∃ dp ω : InertiaGroup ℝ r.tree.size × Inertia ℝ → Vec3 ℝ,
    (∀ b ∈ r.loadedGroups s,
      Vec3.HasRate (fun t => (path t).point b.1.base b.2.cog) (dp b) ∧
      Mat3.HasRate (fun t => (path t).attitude b.1.base)
        (Mat3.skew (ω b) * s.posture.attitude b.1.base)) ∧
    sens.momentum.columns[m.column]? = some (Vec3.sum ((r.loadedGroups s).map fun b =>
      ((s.posture.point b.1.base b.2.cog - s.cog.levelPosition).cross (dp b) * b.2.mass : Vec3 ℝ) +
        (s.posture.attitude b.1.base * b.2.aboutCog *
          (s.posture.attitude b.1.base).transpose).apply (ω b))).toList

/-- The analytic columns are the rates along the states that the differences are taken from. -/
theorem analytic_momentum [SingularValues ℝ] {r : Robot ℝ} {setup : Setup ℝ} {q : Coordinates ℝ}
    {s : HoverState ℝ r.tree.size} (hr : r.Assembled) (ha : r.Admits setup)
    (hroot : (r.tree.segment r.tree.root).joint.kind.isRevolute = false)
    (h : r.solve setup q = .ok s) :
    ∃ sens, r.analytic s = .ok sens ∧ ∀ m trial, r.Displaces s m trial →
      ∃ path, r.Traces s setup.payload m trial path ∧ r.MomentumColumns s sens m path := by
  have hs := hovers_of_solve h
  obtain ⟨e, -, hsens, -⟩ := analytic_isOk hs
  refine ⟨_, hsens, fun m trial hd => ?_⟩
  obtain ⟨path, htraces, hmoves⟩ := exists_path hr ha hroot hs hd
  have hcolumn := fun f : Rates ℝ → List ℝ =>
    Tree.getElem?_columns hd.mem_motions (r.rates s e) f
  refine ⟨path, htraces, ⟨_, hcolumn fun x => x.cog.toList, hmoves.levelPosition⟩, _, _,
    fun b _ => ⟨hmoves.point b.1.base b.2.cog, hmoves.attitude b.1.base⟩, ?_⟩
  rw [← momentumRate_eq]
  exact hcolumn fun x => x.momentum.toList

theorem analytic_momentum_hexarotor :
    ∃ s, @solve ℝ _ hexarotorValues hexarotor bare ⟨[0]⟩ = .ok s ∧
      ∃ sens, @analytic ℝ _ hexarotor s hexarotorValues = .ok sens ∧
        ∀ m trial, @Displaces hexarotorValues hexarotor s m trial →
          ∃ path, @Traces hexarotorValues hexarotor s .empty m trial path ∧
            hexarotor.MomentumColumns s sens m path := by
  obtain ⟨s, hs⟩ := solve_hexarotor
  exact ⟨s, hs, @analytic_momentum hexarotorValues _ _ _ _ assembled_hexarotor (admits_bare _) rfl hs⟩

end Robot

end Multirotor
