import Multirotor.Proofs.Upright

/-!
# Yaw

Gravity pulls down, whatever way the axes at the centre of gravity are turned
about the vertical. More yaw in the desired orientation turns rotors, joint
axes and inertia as seen from there, and leaves thrusts, margins, verdict and
joint torques as they are (`solve_yaw`).
-/

namespace Multirotor

variable {z : Quat ℝ}

/-! ## The centre of gravity -/

theorem Frame.rigid_ofRotation (hz : z.Unit) : (Frame.ofRotation z).Rigid := hz

theorem Frame.inverse_turned (hz : z.Unit) (origin : Vec3 ℝ) {q : Quat ℝ} (hq : q.Unit) :
    (⟨origin, q * z.inverse⟩ : Frame ℝ).inverse =
      .ofRotation z * (⟨origin, q⟩ : Frame ℝ).inverse := by
  have hinverse : (q * z.inverse).inverse = z * q.inverse := by
    rw [Quat.inverse_mul, Quat.inverse_inverse]
  unfold Frame.inverse
  rw [hinverse, hz.mul_rotate hq.inverse, Frame.mul_eq]
  exact congrArg (Frame.mk · _) (zero_add _).symm

namespace CentreOfGravity

/-- The axes at the centre of gravity are turned, and what is seen in them turns with them. -/
structure Turned (z : Quat ℝ) (c c' : CentreOfGravity ℝ) : Prop where
  frame : c'.frame = ⟨c.position, c.frame.rotation * z.inverse⟩
  mass : c'.mass = c.mass
  inertia : c'.inertia = z.toMatrix * c.inertia * z.toMatrix.transpose
  toBaselink : c'.toBaselink = .ofRotation z * c.toBaselink

variable {c c' : CentreOfGravity ℝ}

theorem Turned.level (h : c.Turned z c') : c'.level = z * c.level := by
  unfold CentreOfGravity.level
  rw [h.frame, Quat.inverse_mul, Quat.inverse_inverse]

theorem Turned.inverse_frame (h : c.Turned z c') (hz : z.Unit) (hc : c.frame.Rigid) :
    c'.frame.inverse = .ofRotation z * c.frame.inverse := by
  rw [h.frame]
  exact Frame.inverse_turned hz c.position hc

theorem ofBody_turned (hz : z.Unit) {baselink : Frame ℝ} (hb : baselink.Rigid) {desired : Quat ℝ}
    (hd : desired.Unit) (body : Inertia ℝ) :
    SameOutcome (fun c c' => c.frame.Rigid ∧ c.Turned z c') (ofBody body baselink desired)
      (ofBody body baselink (z * desired)) := by
  have hunit : (baselink.rotation * desired.inverse).Unit := Quat.Unit.mul hb hd.inverse
  have hrotation : baselink.rotation * (z * desired).inverse =
      baselink.rotation * desired.inverse * z.inverse := by
    rw [Quat.inverse_mul, Quat.mul_assoc]
  unfold ofBody
  by_cases hmass : Scalar.isFinite body.mass ∧ 0 < body.mass
  · by_cases hcentre : body.cog.isFinite = true
    · simp only [if_pos hmass, if_pos hcentre]
      rw [hrotation]
      generalize baselink.rotation * desired.inverse = rotation at hunit
      refine .ok ⟨hunit, ⟨rfl, rfl, ?_, ?_⟩⟩
      · dsimp only
        rw [Quat.toMatrix_mul, Quat.toMatrix_inverse, Mat3.transpose_mul, Mat3.transpose_transpose]
        simp only [Mat3.mul_assoc]
      · dsimp only
        rw [Frame.inverse_turned hz body.cog hunit]
        have hframe : (⟨body.cog, rotation⟩ : Frame ℝ).Rigid := hunit
        exact (Frame.rigid_ofRotation hz).mul_assoc hframe.inverse baselink
    · simp only [if_pos hmass, if_neg hcentre]
      exact .error _
  · simp only [if_neg hmass]
    exact .error _

end CentreOfGravity

theorem InertiaGroup.aggregate_turned (hz : z.Unit) {n : Nat} (groups : List (InertiaGroup ℝ n))
    (payload : Payload ℝ) {frames : Placement ℝ n} (hf : ∀ i, (frames.get i).Rigid) (baselink : Fin n)
    {desired : Quat ℝ} (hd : desired.Unit) :
    SameOutcome (fun x x' => x.1.frame.Rigid ∧ x.1.Turned z x'.1 ∧ x'.2 = x.2)
      (aggregate groups payload frames baselink desired)
      (aggregate groups payload frames baselink (z * desired)) := by
  unfold aggregate
  refine (SameOutcome.of_eq rfl).bind fun loads loads' hloads => ?_
  subst hloads
  exact (CentreOfGravity.ofBody_turned hz (hf baselink) hd _).bind fun c c' hc =>
    .ok ⟨hc.1, hc.2, rfl⟩

/-! ## Rotors -/

section
variable {n : Nat}

noncomputable def PlacedRotor.turned (z : Quat ℝ) (r : PlacedRotor ℝ n) : PlacedRotor ℝ n :=
  { r with origin := z.rotate r.origin, axis := z.rotate r.axis }

noncomputable def JointAxis.turned (z : Quat ℝ) (j : JointAxis ℝ n) : JointAxis ℝ n :=
  { j with axis := z.rotate j.axis, origin := z.rotate j.origin }

noncomputable def Load.turned (z : Quat ℝ) (l : Load ℝ n) : Load ℝ n :=
  { l with point := z.rotate l.point, force := z.rotate l.force, moment := z.rotate l.moment }

variable {c c' : CentreOfGravity ℝ} (h : c.Turned z c') (hz : z.Unit)
include hz

theorem PlacedRotor.wrench_turned (r : PlacedRotor ℝ n) :
    (r.turned z).toRotor.wrench = r.toRotor.wrench.turned z := by
  have htorque : (r.turned z).toRotor.torque = z.rotate r.toRotor.torque := by
    unfold Rotor.torque
    rw [Quat.rotate_add, hz.rotate_cross, Quat.rotate_mul]
    rfl
  exact congrArg (Wrench.mk _) htorque

theorem Allocation.ofRotors_turned (rotors : List (PlacedRotor ℝ n)) :
    Allocation.ofRotors ((rotors.map (PlacedRotor.turned z)).map (·.toRotor)) =
      (Allocation.ofRotors (rotors.map (·.toRotor))).turned z := by
  unfold Allocation.ofRotors Allocation.turned
  simp only [List.map_map]
  exact congrArg Allocation.mk (List.map_congr_left fun r _ => r.wrench_turned hz)

theorem Load.momentAbout_turned (l : Load ℝ n) (origin : Vec3 ℝ) :
    (l.turned z).momentAbout (z.rotate origin) = z.rotate (l.momentAbout origin) := by
  unfold Load.momentAbout
  rw [Quat.rotate_add, hz.rotate_cross, Quat.rotate_sub]
  rfl

include h

theorem RotorLayout.extract_turned (hc : c.frame.Rigid) (l : RotorLayout ℝ n)
    {frames : Placement ℝ n} (hf : ∀ i, (frames.get i).Rigid) :
    l.extract frames c' = (l.extract frames c).map (PlacedRotor.turned z) := by
  unfold RotorLayout.extract
  rw [List.map_map]
  refine List.map_congr_left fun x _ => ?_
  have hrelative : c'.frame.inverse * frames.get x.1.1 =
      .ofRotation z * (c.frame.inverse * frames.get x.1.1) := by
    rw [h.inverse_frame hz hc]
    exact (Frame.rigid_ofRotation hz).mul_assoc hc.inverse _
  have hrotation : (c.frame.inverse * frames.get x.1.1).Rigid :=
    hc.inverse.mul (hf _)
  have horigin : (c'.frame.inverse * frames.get x.1.1).origin =
      z.rotate (c.frame.inverse * frames.get x.1.1).origin := by
    rw [hrelative]
    exact zero_add _
  have haxis : (c'.frame.inverse * frames.get x.1.1).rotation.rotate Vec3.unitZ =
      z.rotate ((c.frame.inverse * frames.get x.1.1).rotation.rotate Vec3.unitZ) := by
    rw [hrelative]
    exact hz.mul_rotate hrotation _
  dsimp only [Function.comp_apply]
  rw [horigin, haxis]
  rfl

end

/-! ## Joints -/

namespace Tree

variable {t : Tree ℝ} (hz : z.Unit)
include hz

theorem jointAxes_turned {level : Quat ℝ} (hl : level.Unit) (frames : Placement ℝ t.size) :
    t.jointAxes frames (z * level) = (t.jointAxes frames level).map (JointAxis.turned z) := by
  unfold jointAxes
  rw [List.map_filterMap]
  refine List.filterMap_congr fun x _ => ?_
  obtain ⟨i, c⟩ := x
  dsimp only
  cases (t.segment i).joint.kind with
  | revolute axis => simp only [hz.mul_rotate hl, Option.map_some, JointAxis.turned]
  | fixed | floating | rotor => rfl

theorem momentBeyond_turned (joint : JointAxis ℝ t.size) (loads : List (Load ℝ t.size)) :
    t.momentBeyond (joint.turned z) (loads.map (Load.turned z)) =
      z.rotate (t.momentBeyond joint loads) := by
  unfold momentBeyond
  rw [Vec3.sum_real, Vec3.sum_real, Quat.rotate_list_sum, List.filter_map, List.map_map,
    List.map_map]
  exact congrArg List.sum (List.map_congr_left fun l _ => l.momentAbout_turned hz joint.origin)

theorem jointTorque_turned (joint : JointAxis ℝ t.size) (loads : List (Load ℝ t.size)) :
    t.jointTorque (loads.map (Load.turned z)) (joint.turned z) = t.jointTorque loads joint := by
  unfold jointTorque
  rw [momentBeyond_turned hz]
  exact congrArg (-·) (hz.rotate_dot_rotate _ _)

end Tree

/-! ## States -/

/-- Both states are of one robot at one place; rotors, axes and inertia are seen turned. -/
structure HoverState.Turned {n : Nat} (z : Quat ℝ) (s s' : HoverState ℝ n) : Prop where
  coordinates : s'.coordinates = s.coordinates
  frames : s'.frames = s.frames
  cog : s.cog.Turned z s'.cog
  loaded : s'.loaded = s.loaded
  rotors : s'.rotors = s.rotors.map (PlacedRotor.turned z)
  allocation : s'.allocation = s.allocation.turned z
  gravity : s'.gravity = s.gravity
  thrust : s'.thrust = s.thrust
  axes : s'.axes = s.axes.map (JointAxis.turned z)
  jointTorque : s'.jointTorque = s.jointTorque
  margins : s'.margins = s.margins
  verdict : s'.verdict = s.verdict

theorem ThrustRange.hoverMargins_turned (hz : z.Upright) (r : ThrustRange ℝ) (a : Allocation ℝ)
    (mass acceleration : ℝ) : r.hoverMargins (a.turned z) mass acceleration =
      r.hoverMargins a mass acceleration := by
  have hforces : (a.turned z).forces = a.forces.map z.rotate := by
    unfold Allocation.forces Allocation.turned
    rw [List.map_map, List.map_map]
    rfl
  have htorques : (a.turned z).torques = a.torques.map z.rotate := by
    unfold Allocation.torques Allocation.turned
    rw [List.map_map, List.map_map]
    rfl
  have hhover : hoverForce mass acceleration = z.rotate (hoverForce mass acceleration) :=
    (hz.rotate_vertical _).symm
  unfold hoverMargins
  congr 1
  · conv_lhs => rw [hforces, hhover, margins_rotate hz.unit]
  · conv_lhs => rw [htorques, ← z.rotate_zero, margins_rotate hz.unit]

namespace Robot

theorem staticLoads_turned (hz : z.Upright) (r : Robot ℝ) {level : Quat ℝ} (hl : level.Unit)
    (frames : Placement ℝ r.tree.size) (loaded : List (Inertia ℝ))
    (rotors : List (PlacedRotor ℝ r.tree.size)) (thrust : List ℝ) :
    r.staticLoads frames (z * level) loaded (rotors.map (PlacedRotor.turned z)) thrust =
      (r.staticLoads frames level loaded rotors thrust).map (Load.turned z) := by
  unfold staticLoads
  rw [List.map_append, List.map_map, List.zip_map_left, List.map_map, List.map_map]
  refine congrArg₂ _ (List.map_congr_left fun x _ => ?_) (List.map_congr_left fun x _ => ?_)
  · have hforce : ((⟨0, 0, -r.config.gravity⟩ : Vec3 ℝ) * x.2.mass : Vec3 ℝ) =
        z.rotate ((⟨0, 0, -r.config.gravity⟩ : Vec3 ℝ) * x.2.mass) := by
      rw [Quat.rotate_mul, hz.rotate_vertical]
    have hpoint : groupPoint frames (z * level) x.1 x.2 =
        z.rotate (groupPoint frames level x.1 x.2) := hz.unit.mul_rotate hl _
    simp only [Function.comp_apply, Load.turned, Quat.rotate_zero, hpoint, ← hforce]
  · simp only [Function.comp_apply, Load.turned, PlacedRotor.turned, Prod.map_fst, Prod.map_snd,
      id_eq, hz.unit.mul_rotate hl, Quat.rotate_mul]
    rfl

variable [SingularValues ℝ] (hv : SingularValues.Exact ‹SingularValues ℝ›)
include hv

theorem solve_turned (hz : z.Upright) {r : Robot ℝ} (ht : r.tree.Rigid) {setup : Setup ℝ}
    (hd : setup.desired.Unit) (q : Coordinates ℝ) : SameOutcome (HoverState.Turned z)
      (r.solve setup q) (r.solve { setup with desired := z * setup.desired } q) := by
  unfold solve
  cases hplace : r.tree.place q with
  | error e => exact .error e
  | ok frames =>
    have hrigid := ht.place hplace
    refine (InertiaGroup.aggregate_turned hz.unit r.groups setup.payload hrigid r.baselink hd).bind
      fun x x' hx => ?_
    obtain ⟨cog, loaded⟩ := x
    obtain ⟨cog', loaded'⟩ := x'
    obtain ⟨hc, hcog, hloaded⟩ := hx
    dsimp only at hc hcog hloaded ⊢
    subst hloaded
    have hl : cog.level.Unit := Quat.Unit.inverse hc
    rw [hcog.level, hcog.mass, RotorLayout.extract_turned hcog hz.unit hc r.rotors hrigid,
      Allocation.ofRotors_turned hz.unit,
      Allocation.staticThrust_turned hv hz (Wrench.turned_gravity hz _ _)]
    refine (SameOutcome.of_eq rfl).bind fun thrust thrust' hthrust => ?_
    subst hthrust
    rw [ThrustRange.hoverMargins_turned hz, Tree.jointAxes_turned hz.unit hl,
      staticLoads_turned hz r hl]
    refine .ok ⟨rfl, rfl, hcog, rfl, rfl, rfl, rfl, rfl, rfl, ?_, rfl, rfl⟩
    rw [List.map_map]
    exact List.map_congr_left fun joint _ => Tree.jointTorque_turned hz.unit joint _

/-- More yaw in the desired orientation changes nothing but what the state is seen from. -/
theorem solve_yaw {r : Robot ℝ} (ht : r.tree.Rigid) {setup : Setup ℝ} (hd : setup.desired.Unit)
    (q : Coordinates ℝ) (angle : ℝ) : SameOutcome (HoverState.Turned (.yaw angle))
      (r.solve setup q) (r.solve { setup with desired := .yaw angle * setup.desired } q) :=
  solve_turned hv (Quat.upright_yaw angle) ht hd q

/-! ## Six rotors -/

omit [SingularValues ℝ] hv

open Matrix
open SingularValues (descending exact_descending)

noncomputable def hexarotorRows : Dense ℝ 6 6 :=
  Allocation.controlled ⟨List.ofFn hexarotorWrench⟩ .fullyActuated

theorem gram_hexarotorRows : hexarotorRows.toMatrixᵀ * hexarotorRows.toMatrix = (2 : ℝ) • 1 := by
  have hentry : ∀ i j, hexarotorRows.toMatrix i j = (hexarotorWrench j).get i := fun i j => by
    fin_cases j <;> fin_cases i <;> rfl
  ext j k
  simp only [Matrix.mul_apply, Matrix.transpose_apply, hentry, Fin.sum_univ_six, Matrix.smul_apply,
    Matrix.one_apply]
  fin_cases j <;> fin_cases k <;>
    norm_num [hexarotorWrench, Wrench.get, Vec3.unitX, Vec3.unitY, Vec3.unitZ]

theorem rankAndCondition_hexarotor :
    @Dense.rankAndCondition ℝ _ descending _ _ hexarotorRows = (6, 1) := by
  have hvalues : descending.singularValues hexarotorRows = List.replicate 6 √2 := by
    refine List.eq_replicate_iff.mpr ⟨List.length_ofFn, fun x hx => ?_⟩
    obtain ⟨i, rfl⟩ := List.mem_ofFn.mp hx
    exact singularValues_of_orthogonal gram_hexarotorRows i.isLt
  refine @Allocation.rankAndCondition_replicate descending _ _ 5 _ √2 hvalues (by positivity) ?_
  norm_num [Dense.roundoff]

theorem allowed_hexarotor : ¬@Allocation.Refused descending ⟨List.ofFn hexarotorWrench⟩
    .fullyActuated hexarotorConfig.conditionLimit := by
  rintro (hcount | hrank | hlimit)
  · exact lt_irrefl 6 hcount
  · exact lt_irrefl 6 (hrank.trans_eq' (congrArg Prod.fst rankAndCondition_hexarotor))
  · have hone := hlimit.trans_eq (congrArg Prod.snd rankAndCondition_hexarotor)
    norm_num [hexarotorConfig, Config.standard] at hone

theorem solve_hexarotor_descending :
    ∃ s, @solve ℝ _ descending hexarotor bare ⟨[0]⟩ = .ok s := by
  obtain ⟨p, hp⟩ := exists_posture_hexarotor
  obtain ⟨t, -, ht⟩ := @Allocation.staticThrust_of_allowed descending _ _ _ exact_descending
    allowed_hexarotor (hexarotor.gravityAt p)
  rw [← allocationAt_hexarotor hp] at ht
  obtain ⟨s, hs, -⟩ := @solve_isOk _ _ descending _ _ hp _ ht
  exact ⟨s, hs⟩

theorem solve_yaw_hexarotor : descending.Exact ∧ hexarotor.tree.Rigid ∧ bare.desired.Unit ∧
    ∃ s s', @solve ℝ _ descending hexarotor bare ⟨[0]⟩ = .ok s ∧
      @solve ℝ _ descending hexarotor ⟨.empty, .yaw (Real.pi / 2) * .identity⟩ ⟨[0]⟩ = .ok s' ∧
      s.Turned (.yaw (Real.pi / 2)) s' := by
  have ht := assembled_hexarotor.rigid
  have hd : bare.desired.Unit := Quat.unit_identity
  obtain ⟨s, hs⟩ := solve_hexarotor_descending
  have hsame := @solve_yaw descending exact_descending hexarotor ht bare hd ⟨[0]⟩ (Real.pi / 2)
  rw [hs] at hsame
  generalize hs' : @solve ℝ _ descending hexarotor
    { bare with desired := .yaw (Real.pi / 2) * bare.desired } ⟨[0]⟩ = out at hsame
  cases hsame with
  | ok hturned => exact ⟨exact_descending, ht, hd, s, _, hs, hs', hturned⟩

end Robot

end Multirotor
