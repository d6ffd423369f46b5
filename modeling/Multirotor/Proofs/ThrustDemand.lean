import Multirotor.Proofs.Determined
import Multirotor.Proofs.Verdict

/-!
# Thrusts beyond their bounds

A static thrust beyond its bounds fails the verdict, and with as many rotors
as controlled axes no thrusts within the bounds balance gravity then. The
exact margins say less. They take force and torque one at a time, and any
thrusts for each: a margin is negative if no thrusts within the bounds give
the force of hovering, or none give no torque (`unstable_of_beyond`). So a
robot whose centre of gravity has moved away from its rotors can need a
negative thrust, and have no negative margin (`exactMargin_nonneg_of_beyond`).
-/

namespace Multirotor

/-! ## The sign of the margin -/

namespace ThrustRange

variable {r : ThrustRange ℝ} {generators : List (Vec3 ℝ)} {w : Vec3 ℝ}

theorem not_degenerate {pairs : List (Nat × Nat)} (h : facePairs? generators = some pairs) :
    (r.margins generators w).degenerate = false := by
  rw [margins_of_some h]

theorem Achievable.not_neg (h : r.Achievable generators.get w) :
    ¬(r.margins generators w).exactMargin < 0 :=
  not_lt.mpr h.exactMargin_nonneg

theorem exactMargin_neg (hr : r.min ≤ r.max) (hsep : Separated generators)
    (hd : (r.margins generators w).degenerate = false) (h : ¬r.Achievable generators.get w) :
    (r.margins generators w).exactMargin < 0 := by
  cases hf : facePairs? generators with
  | none =>
    rw [margins_of_none hf] at hd
    cases hd
  | some pairs =>
    by_contra hnonneg
    refine h (achievable_of_le_exactMargin hr hsep hf (not_lt.mp hnonneg) ?_)
    rw [sub_self, Vec3.norm_zero]

end ThrustRange

theorem Config.thrustMin_lt_thrustMax {c : Config ℝ} (h : c.validate = .ok ()) :
    c.thrustMin < c.thrustMax := by
  by_contra hle
  have hfinite : c.scalars.find? (fun x => !Scalar.isFinite x.2) = none := by
    simp
  unfold Config.validate at h
  rw [hfinite] at h
  by_cases hmin : c.thrustMin < 0
  · rw [if_pos hmin] at h
    cases h
  · rw [if_neg hmin, if_pos (not_lt.mp hle)] at h
    cases h

/-! ## As many rotors as axes -/

namespace Allocation

theorem eq_of_balances [SingularValues ℝ] {a : Allocation ℝ} {s : Strategy} {limit : ℝ}
    {load : Wrench ℝ} {t : StaticThrust ℝ} (h : a.staticThrust s limit load = .ok t)
    (hn : a.rotorCount = s.axes.length) {other : List ℝ} (hlen : other.length = a.rotorCount)
    (hother : a.Balances s load other) : other = t.thrust := by
  obtain ⟨y, rfl⟩ : ∃ y : Vector ℝ a.rotorCount, y.toList = other :=
    ⟨⟨other.toArray, by simpa using hlen⟩, rfl⟩
  simp only [staticThrust, dif_pos hn] at h
  split at h
  · cases h
  split at h
  · rename_i x hx
    cases h
    rw [(solveSquare?_spec hx _).mp (balances_iff_solves.mp hother)]
  · cases h

end Allocation

/-! ## Solved states -/

namespace Robot

section
variable (r : Robot ℝ) (s : HoverState ℝ r.tree.size)

/-- Thrusts within their bounds give the force of hovering, whatever torque they make. -/
def ForceWithin : Prop :=
  r.range.Achievable s.allocation.forces.get (hoverForce s.cog.mass r.config.gravity)

/-- Thrusts within their bounds make no torque, whatever force they give. -/
def TorqueWithin : Prop := r.range.Achievable s.allocation.torques.get 0

end

theorem range_of_ofConfig {r : Robot ℝ} (hr : ofConfig r.tree r.config = .ok r) :
    r.range.min < r.range.max := by
  obtain ⟨_, _, _, hvalid, -, -, -, -⟩ := ofConfig_eq_ok hr
  refine Config.thrustMin_lt_thrustMax ?_
  cases hv : r.config.validate with
  | error e =>
    rw [hv] at hvalid
    cases hvalid
  | ok _ => rfl

section
variable [SingularValues ℝ] {r : Robot ℝ} {setup : Setup ℝ} {q : Coordinates ℝ}
  {s : HoverState ℝ r.tree.size}

/-- A thrust beyond its bounds shows in the verdict, and with as many rotors as axes nothing within
the bounds can take its place. In the margins it shows if force or torque alone is out of reach. -/
theorem unstable_of_beyond (hr : ofConfig r.tree r.config = .ok r) (h : r.solve setup q = .ok s)
    (hforce : s.margins.force.degenerate = false) (htorque : s.margins.torque.degenerate = false)
    (hbeyond : ∃ t ∈ s.thrust.thrust, ¬r.range.Admits t) :
    (s.verdict.thrust = false ∧ s.verdict.stable = false) ∧
    (s.allocation.rotorCount = r.config.strategy.axes.length →
      ∀ thrust, thrust.length = s.allocation.rotorCount →
        s.allocation.Balances r.config.strategy s.gravity thrust →
          ∃ t ∈ thrust, ¬r.range.Admits t) ∧
    ((s.margins.force.exactMargin < 0 → ¬r.ForceWithin s) ∧
      (s.margins.torque.exactMargin < 0 → ¬r.TorqueWithin s)) ∧
    (Separated s.allocation.forces → ¬r.ForceWithin s → s.margins.force.exactMargin < 0) ∧
    (Separated s.allocation.torques → ¬r.TorqueWithin s → s.margins.torque.exactMargin < 0) := by
  have hmargins := (assess_of_solve h).1
  have hrange := (range_of_ofConfig hr).le
  refine ⟨?_, fun hsquare thrust hlen hbalance => ?_,
    ⟨fun hneg hwithin => ?_, fun hneg hwithin => ?_⟩, fun hsep hout => ?_, fun hsep hout => ?_⟩
  · have hthrust : s.verdict.thrust = false := by
      rw [Bool.eq_false_iff, Ne, thrust_verdict_iff h]
      push Not
      exact hbeyond
    exact ⟨hthrust, by simp [Verdict.stable, hthrust]⟩
  · rw [Allocation.eq_of_balances (hovers_of_solve h).thrust hsquare hlen hbalance]
    exact hbeyond
  · rw [hmargins] at hneg
    exact hwithin.not_neg hneg
  · rw [hmargins] at hneg
    exact hwithin.not_neg hneg
  · rw [hmargins] at hforce ⊢
    exact ThrustRange.exactMargin_neg hrange hsep hforce hout
  · rw [hmargins] at htorque ⊢
    exact ThrustRange.exactMargin_neg hrange hsep htorque hout

end

/-! ## Six rotors, and the arm turned around -/

noncomputable def halfTurn : Quat ℝ := ⟨0, 0, 0, 1⟩

theorem ofAxisAngle_pi : Quat.ofAxisAngle Vec3.unitZ Real.pi = halfTurn := by
  rw [Quat.ofAxisAngle_eq, Real.cos_pi_div_two, Real.sin_pi_div_two]
  simp [halfTurn, Vec3.unitZ]

theorem rotate_halfTurn (v : Vec3 ℝ) : halfTurn.rotate v = ⟨-v.x, -v.y, v.z⟩ := by
  rw [Quat.rotate_eq]
  ext <;> simp [halfTurn, Quat.vector] <;> ring

noncomputable def turnedMount : Fin 6 → Frame ℝ
  | 0 => hexarotorMount 0
  | 1 => hexarotorMount 1
  | 2 => hexarotorMount 2
  | 3 => hexarotorMount 3
  | 4 => .ofRotation halfTurn * hexarotorMount 4
  | 5 => .ofRotation halfTurn * hexarotorMount 5

/-- The wrenches about the centre of gravity, which is one lever behind the base link. -/
noncomputable def turnedWrench : Fin 6 → Wrench ℝ
  | 0 => ⟨Vec3.unitZ, ⟨1, -1, 0⟩⟩
  | 1 => ⟨Vec3.unitZ, ⟨-1, -1, 0⟩⟩
  | 2 => ⟨Vec3.unitX, ⟨0, 1, 0⟩⟩
  | 3 => ⟨Vec3.unitX, ⟨0, -1, 0⟩⟩
  | 4 => ⟨-Vec3.unitY, 0⟩
  | 5 => ⟨-Vec3.unitY, ⟨0, 0, -(1 + 1)⟩⟩

section
variable {frames : Placement ℝ hexarotorTree.size}
  (hq : hexarotorTree.place ⟨[Real.pi]⟩ = .ok frames)
include hq

theorem frame_turned_arm : frames.get (1 : Fin 8) = .ofRotation halfTurn := by
  have harm := wellFormed_hexarotor.get_of_parent hq (i := (1 : Fin 8)) (p := (0 : Fin 8)) rfl
  have hmotion : hexarotorTree.jointMotion ⟨[Real.pi]⟩ (1 : Fin 8) = .ofRotation halfTurn :=
    congrArg Frame.ofRotation ofAxisAngle_pi
  rw [harm, hmotion, frame_hexarotor_base hq]
  exact (congrArg (· * _) (Frame.identity_mul _)).trans (Frame.identity_mul _)

theorem frame_turned_rotor (j : Fin 6) : frames.get (hexarotorSegments.get j) = turnedMount j := by
  have hbase := frame_hexarotor_base hq
  have harm : ∀ {i : Fin hexarotorTree.size}, (hexarotorTree.segment i).parent = some (1 : Fin 8) →
      hexarotorTree.jointMotion ⟨[Real.pi]⟩ i = .identity →
        frames.get i = .ofRotation halfTurn * (hexarotorTree.segment i).offset := fun hp hm => by
    rw [wellFormed_hexarotor.get_of_parent hq hp, hm, frame_turned_arm hq, Frame.mul_identity]
  fin_cases j
  exacts [frame_hexarotor_child hq rfl rfl hbase, frame_hexarotor_child hq rfl rfl hbase,
    frame_hexarotor_child hq rfl rfl hbase, frame_hexarotor_child hq rfl rfl hbase,
    harm rfl rfl, harm rfl rfl]

theorem centre_bodies_turned :
    ((hexarotorTree.bodies frames .empty).map fun b => (b.centre * b.inertia.mass : Vec3 ℝ)).sum =
      ⟨-2, 0, 0⟩ := by
  rw [map_bodies_hexarotor]
  have harm : (Frame.ofRotation halfTurn).point ⟨1, 0, 0⟩ = ⟨-1, 0, 0⟩ := by
    rw [Frame.point_eq, Frame.ofRotation, rotate_halfTurn]
    ext <;> simp
  simp only [frame_hexarotor_base hq, frame_turned_arm hq, Frame.identity_point, harm,
    Vec3.mul_zero]
  ext <;> simp [hexarotorSegments]
  norm_num

end

theorem exists_posture_turned : ∃ p, hexarotor.posture bare ⟨[Real.pi]⟩ = .ok p := by
  obtain ⟨p, hp⟩ := exists_posture_hexarotor
  have hpayload : bare.payload = bare.payload := rfl
  have hplaced : hexarotor.tree.place ⟨[Real.pi]⟩ = .ok _ := rfl
  obtain ⟨p', hp', -⟩ := assembled_hexarotor.posture_isOk (admits_bare _) hp hpayload hplaced
  exact ⟨p', hp'⟩

section
variable {p : Posture hexarotor.tree.size} (h : hexarotor.posture bare ⟨[Real.pi]⟩ = .ok p)
include h

theorem centre_turned : p.cog.mass = 2 ∧ p.cog.position = ⟨-1, 0, 0⟩ := by
  obtain ⟨hmass, hcentre⟩ := moments_hexarotor h
  rw [centre_bodies_turned (posture_eq_ok.mp h).1] at hcentre
  have hx := congrArg Vec3.x hcentre
  have hy := congrArg Vec3.y hcentre
  have hz := congrArg Vec3.z hcentre
  simp only [Vec3.mul_x, Vec3.mul_y, Vec3.mul_z] at hx hy hz
  exact ⟨hmass, Vec3.ext (by linarith) (by linarith) (by linarith)⟩

theorem wrenchAt_turned (j : Fin 6) : hexarotor.wrenchAt p j = turnedWrench j := by
  have hmount : p.frames.get (hexarotor.mount j) = turnedMount j := by
    rw [← frame_turned_rotor (posture_eq_ok.mp h).1 j]
    fin_cases j <;> rfl
  have haxis : p.direction (hexarotor.mount j) Vec3.unitZ = (turnedWrench j).force := by
    rw [Posture.direction, level_hexarotor h, Quat.identity_rotate, hmount]
    fin_cases j <;> ext <;> norm_num [turnedMount, hexarotorMount, turnedWrench, forwards, sideways,
      halfTurn, Frame.ofRotation, Frame.mul_eq, Quat.mul_eq, Quat.rotate_eq, Quat.identity_eq,
      Quat.vector, Vec3.unitX, Vec3.unitY, Vec3.unitZ]
  have horigin : p.point (hexarotor.mount j) 0 - p.cog.levelPosition =
      (turnedMount j).origin - ⟨-1, 0, 0⟩ := by
    rw [Posture.point_zero, hmount, level_hexarotor h, Quat.identity_rotate,
      CentreOfGravity.levelPosition, level_hexarotor h, Quat.identity_rotate, (centre_turned h).2]
  refine congrArg₂ Wrench.mk haxis ?_
  calc (hexarotor.rotorAt p j).torque =
      ((turnedMount j).origin - ⟨-1, 0, 0⟩).cross (turnedWrench j).force := by
        rw [torque_hexarotor, horigin, haxis]
    _ = (turnedWrench j).torque := by
      fin_cases j <;> ext <;> norm_num [turnedMount, hexarotorMount, turnedWrench,
        Frame.ofRotation, Frame.mul_eq, rotate_halfTurn, Vec3.unitX, Vec3.unitY, Vec3.unitZ]

theorem allocationAt_turned : hexarotor.allocationAt p = ⟨List.ofFn turnedWrench⟩ := by
  rw [allocationAt_eq (assembled_hexarotor.sound (admits_bare _) h)]
  exact congrArg (fun w => Allocation.mk (List.ofFn w)) (funext (wrenchAt_turned h))

end

open SingularValues (descending exact_descending)

noncomputable def turnedRows : Dense ℝ 6 6 :=
  Allocation.controlled ⟨List.ofFn turnedWrench⟩ .fullyActuated

theorem sum_sq_turnedRows (v : Fin 6 → ℝ) : ∑ i, (∑ j, turnedRows.entry i j * v j) ^ 2 =
    (v 2 + v 3) ^ 2 + (v 4 + v 5) ^ 2 + (v 0 + v 1) ^ 2 + (v 0 - v 1) ^ 2 +
      (v 2 - v 3 - (v 0 + v 1)) ^ 2 + (2 * v 5) ^ 2 := by
  have hentry : ∀ i j, turnedRows.entry i j = (turnedWrench j).get i := fun i j => by
    fin_cases j <;> fin_cases i <;> rfl
  simp only [hentry, Fin.sum_univ_six, turnedWrench, Wrench.get, Vec3.unitX, Vec3.unitY,
    Vec3.unitZ, Vec3.neg_x, Vec3.neg_y, Vec3.neg_z, Vec3.zero_x, Vec3.zero_y, Vec3.zero_z]
  ring

theorem stretches_turnedRows : turnedRows.Stretches (1 / 2) 4 where
  low_pos := by norm_num
  high_pos := by norm_num
  lower v := by
    rw [sum_sq_turnedRows, Fin.sum_univ_six]
    nlinarith [sq_nonneg (v 0 + v 1 - (v 2 - v 3) / 2), sq_nonneg (v 4 + 2 * v 5)]
  upper v := by
    rw [sum_sq_turnedRows, Fin.sum_univ_six]
    nlinarith [sq_nonneg (v 2 - v 3 + (v 0 + v 1)), sq_nonneg (v 4 - v 5), sq_nonneg (v 2 - v 3),
      sq_nonneg (v 0 - v 1), sq_nonneg (v 2 + v 3), sq_nonneg (v 0 + v 1)]

theorem exists_solve_turned : ∃ s, @solve ℝ _ descending hexarotor bare ⟨[Real.pi]⟩ = .ok s := by
  obtain ⟨p, hp⟩ := exists_posture_turned
  obtain ⟨hrank, hcondition⟩ := @Dense.Stretches.rankAndCondition descending 6 6 turnedRows
    exact_descending _ _ stretches_turnedRows (by norm_num) (by norm_num [Dense.roundoff])
  have hallowed : ¬@Allocation.Refused descending ⟨List.ofFn turnedWrench⟩ .fullyActuated
      hexarotorConfig.conditionLimit := by
    rintro (hcount | hlow | hlimit)
    · exact lt_irrefl 6 hcount
    · exact lt_irrefl 6 (hlow.trans_eq' hrank)
    · have hfar := hlimit.trans_le hcondition
      norm_num [hexarotorConfig, Config.standard] at hfar
  obtain ⟨t, -, ht⟩ := @Allocation.staticThrust_of_allowed descending _ _ _ exact_descending
    hallowed (hexarotor.gravityAt p)
  rw [← allocationAt_turned hp] at ht
  obtain ⟨s, hs, -⟩ := @solve_isOk _ _ descending _ _ hp _ ht
  exact ⟨s, hs⟩

theorem wrench_turned (f : Fin 6 → ℝ) :
    (⟨List.ofFn turnedWrench⟩ : Allocation ℝ).wrench (List.ofFn f) =
      ⟨⟨f 2 + f 3, -(f 4 + f 5), f 0 + f 1⟩,
        ⟨f 0 - f 1, f 2 - f 3 - (f 0 + f 1), -(2 * f 5)⟩⟩ := by
  rw [Allocation.wrench_ofFn, Fin.sum_univ_six, Fin.sum_univ_six]
  refine congrArg₂ Wrench.mk ?_ ?_ <;> ext <;>
    simp [turnedWrench, Vec3.unitX, Vec3.unitY, Vec3.unitZ] <;> ring

/-- The two rotors that lift tilt the robot as well, so one of those that push forwards has to
pull. -/
theorem beyond_of_balances_turned {thrust : List ℝ} (hlen : thrust.length = 6)
    (hbalance : (⟨List.ofFn turnedWrench⟩ : Allocation ℝ).Balances .fullyActuated
      (.gravity 2 9.80665) thrust) : ∃ t ∈ thrust, ¬hexarotor.range.Admits t := by
  obtain ⟨f, rfl⟩ := exists_ofFn hlen
  rw [Allocation.Balances, wrench_turned] at hbalance
  have hforward : f 2 + f 3 = -0 := hbalance 0 (by decide)
  have hlift : f 0 + f 1 = -(-2 * 9.80665) := hbalance 2 (by decide)
  have htilt : f 2 - f 3 - (f 0 + f 1) = -0 := hbalance 4 (by decide)
  refine ⟨f 3, List.mem_ofFn.mpr ⟨3, rfl⟩, fun hadmits => ?_⟩
  rw [range_hexarotor] at hadmits
  have hpush : 0 ≤ f 3 := hadmits.1
  linarith

/-- The first two rotors lift the robot, and rotors at rest make no torque. -/
theorem within_turned : hexarotor.range.Achievable (Allocation.forces ⟨List.ofFn turnedWrench⟩).get
      (hoverForce 2 9.80665) ∧
    hexarotor.range.Achievable (Allocation.torques ⟨List.ofFn turnedWrench⟩).get 0 := by
  have hwithin : ∀ f : Fin 6 → ℝ, (∀ j, 0 ≤ f j ∧ f j ≤ 10) →
      hexarotor.range.Achievable (Allocation.forces ⟨List.ofFn turnedWrench⟩).get
        ⟨f 2 + f 3, -(f 4 + f 5), f 0 + f 1⟩ ∧
      hexarotor.range.Achievable (Allocation.torques ⟨List.ofFn turnedWrench⟩).get
        ⟨f 0 - f 1, f 2 - f 3 - (f 0 + f 1), -(2 * f 5)⟩ := fun f hf => by
    have hwrench := @Allocation.wrench_achievable hexarotor.range ⟨List.ofFn turnedWrench⟩
      (List.ofFn f) rfl fun t ht => by
        obtain ⟨j, rfl⟩ := List.mem_ofFn.mp ht
        rw [range_hexarotor]
        exact hf j
    rw [wrench_turned] at hwrench
    exact hwrench
  have hlift := (hwithin ![9.80665, 9.80665, 0, 0, 0, 0] fun j => by
    fin_cases j <;> constructor <;> norm_num).1
  have hrest := (hwithin 0 fun j => ⟨le_rfl, by norm_num⟩).2
  have hforce : (⟨0 + 0, -(0 + 0), 9.80665 + 9.80665⟩ : Vec3 ℝ) = hoverForce 2 9.80665 := by
    ext <;> norm_num [hoverForce]
  have htorque : (⟨0 - 0, 0 - 0 - (0 + 0), -(2 * 0)⟩ : Vec3 ℝ) = 0 := by
    ext <;> simp
  exact ⟨hforce ▸ hlift, htorque ▸ hrest⟩

theorem facePairs?_turned :
    (∃ pairs, facePairs? (Allocation.forces ⟨List.ofFn turnedWrench⟩) = some pairs) ∧
      ∃ pairs, facePairs? (Allocation.torques ⟨List.ofFn turnedWrench⟩) = some pairs := by
  constructor
  · refine exists_facePairs (a := Vec3.unitZ) (b := Vec3.unitX) (c := -Vec3.unitY) ?_ ?_
    · exact .cons_cons _ (.cons _ (.cons_cons _ (.cons _ (.cons_cons _ (.cons _ .slnil)))))
    · rw [direction_cross_direction, Vec3.direction_eq (-Vec3.unitY)]
      norm_num [Vec3.norm_eq, Vec3.normSq_eq, Vec3.dot_eq, Vec3.unitX, Vec3.unitY, Vec3.unitZ,
        degenerateTolerance]
  · refine exists_facePairs (a := ⟨1, -1, 0⟩) (b := ⟨0, 1, 0⟩) (c := ⟨0, 0, -(1 + 1)⟩) ?_ ?_
    · exact .cons_cons _ (.cons _ (.cons_cons _ (.cons _ (.cons _ (.cons_cons _ .slnil)))))
    · rw [direction_cross_direction, Vec3.direction_eq ⟨0, 0, -(1 + 1)⟩]
      have hroot : (2 : ℝ)⁻¹ ≤ |√2|⁻¹ := by
        rw [abs_of_nonneg (Real.sqrt_nonneg 2)]
        exact inv_anti₀ (by positivity) (Real.sqrt_le_iff.mpr (by norm_num))
      norm_num [Vec3.norm_eq, Vec3.normSq_eq, Vec3.dot_eq, degenerateTolerance]
      linarith

theorem state_turned {s : HoverState ℝ hexarotor.tree.size}
    (h : @solve ℝ _ descending hexarotor bare ⟨[Real.pi]⟩ = .ok s) :
    s.allocation = ⟨List.ofFn turnedWrench⟩ ∧ s.gravity = .gravity 2 9.80665 ∧ s.cog.mass = 2 := by
  obtain ⟨hposture, -, -, hallocation, hgravity, -, -, -⟩ := @hovers_of_solve _ descending _ _ _ h
  have hmass : s.cog.mass = 2 := (centre_turned hposture).1
  refine ⟨hallocation.trans (allocationAt_turned hposture), ?_, hmass⟩
  rw [hgravity, gravityAt]
  exact congrArg (Wrench.gravity · _) hmass

/-- The thrusts that hover are beyond their bounds, and hovering force and no torque are within. -/
theorem exists_turned : ∃ s, @solve ℝ _ descending hexarotor bare ⟨[Real.pi]⟩ = .ok s ∧
    s.margins.force.degenerate = false ∧ s.margins.torque.degenerate = false ∧
    (∃ t ∈ s.thrust.thrust, ¬hexarotor.range.Admits t) ∧
    hexarotor.ForceWithin s ∧ hexarotor.TorqueWithin s := by
  obtain ⟨s, hsolve⟩ := exists_solve_turned
  obtain ⟨hallocation, hgravity, hmass⟩ := state_turned hsolve
  have hs := @hovers_of_solve _ descending _ _ _ hsolve
  obtain ⟨hlen, hbalance⟩ := @Hovers.balances descending _ _ _ _ hs
  have hmargins := (@assess_of_solve descending _ _ _ _ hsolve).1
  rw [hallocation, hgravity] at hbalance
  rw [hallocation] at hlen
  rw [hallocation, hmass] at hmargins
  obtain ⟨⟨_, hforces⟩, _, htorques⟩ := facePairs?_turned
  refine ⟨s, hsolve, ?_, ?_, beyond_of_balances_turned hlen hbalance, ?_, ?_⟩
  · rw [hmargins]
    exact ThrustRange.not_degenerate hforces
  · rw [hmargins]
    exact ThrustRange.not_degenerate htorques
  · rw [ForceWithin, hallocation, hmass]
    exact within_turned.1
  · rw [TorqueWithin, hallocation]
    exact within_turned.2

theorem unstable_of_beyond_turned : ∃ s,
    @solve ℝ _ descending hexarotor bare ⟨[Real.pi]⟩ = .ok s ∧
      (∃ t ∈ s.thrust.thrust, ¬hexarotor.range.Admits t) ∧ s.verdict.stable = false ∧
        ∀ thrust, thrust.length = s.allocation.rotorCount →
          s.allocation.Balances .fullyActuated s.gravity thrust →
            ∃ t ∈ thrust, ¬hexarotor.range.Admits t := by
  obtain ⟨s, hsolve, hforce, htorque, hbeyond, -⟩ := exists_turned
  have hcount : s.allocation.rotorCount = 6 := by
    rw [(state_turned hsolve).1]
    rfl
  obtain ⟨⟨-, hstable⟩, hsquare, -⟩ := @unstable_of_beyond descending hexarotor bare _ s
    ofConfig_hexarotor hsolve hforce htorque hbeyond
  exact ⟨s, hsolve, hbeyond, hstable, hsquare hcount⟩

/-- A thrust is beyond its bounds, and neither margin is negative. -/
theorem exactMargin_nonneg_of_beyond : ∃ s,
    @solve ℝ _ descending hexarotor bare ⟨[Real.pi]⟩ = .ok s ∧
      s.margins.force.degenerate = false ∧ s.margins.torque.degenerate = false ∧
      (∃ t ∈ s.thrust.thrust, ¬hexarotor.range.Admits t) ∧
      ¬(s.margins.force.exactMargin < 0 ∨ s.margins.torque.exactMargin < 0) := by
  obtain ⟨s, hsolve, hforce, htorque, hbeyond, hforceWithin, htorqueWithin⟩ := exists_turned
  have hmargins := (@assess_of_solve descending _ _ _ _ hsolve).1
  refine ⟨s, hsolve, hforce, htorque, hbeyond, ?_⟩
  rw [hmargins]
  exact not_or.mpr ⟨hforceWithin.not_neg, htorqueWithin.not_neg⟩

end Robot

end Multirotor
