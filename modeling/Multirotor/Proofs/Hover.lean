import Multirotor.Proofs.Posture
import Multirotor.Proofs.Thrust

/-!
# Hovering

A hovering state is a posture and the static thrust for it (`hovers_of_solve`).
In a sound posture every rotor is where its segment is and pushes along the z
axis of its segment, both seen from the centre of gravity.
-/

namespace Multirotor

namespace Robot

variable (r : Robot ℝ) (p : Posture r.tree.size)

/-! ## What follows from a posture -/

noncomputable def allocationAt : Allocation ℝ :=
  .ofRotors ((r.rotors.extract p.frames p.cog).map (·.toRotor))

noncomputable def gravityAt : Wrench ℝ := .gravity p.cog.mass r.config.gravity

noncomputable def loadsAt (thrust : List ℝ) : List (Load ℝ r.tree.size) :=
  r.staticLoads p.frames p.cog.level p.loaded (r.rotors.extract p.frames p.cog) thrust

noncomputable def axesAt : List (JointAxis ℝ r.tree.size) := r.tree.jointAxes p.frames p.cog.level

noncomputable def jointTorqueAt (thrust : List ℝ) : List ℝ :=
  (r.axesAt p).map (r.tree.jointTorque (r.loadsAt p thrust))

/-- The state follows from its posture and the static thrust there. -/
structure Hovers [SingularValues ℝ] (setup : Setup ℝ) (q : Coordinates ℝ)
    (s : HoverState ℝ r.tree.size) : Prop where
  posture : r.posture setup q = .ok s.posture
  coordinates : s.coordinates = q
  rotors : s.rotors = r.rotors.extract s.frames s.cog
  allocation : s.allocation = r.allocationAt s.posture
  gravity : s.gravity = r.gravityAt s.posture
  thrust : s.allocation.staticThrust r.config.strategy r.config.conditionLimit s.gravity =
    .ok s.thrust
  axes : s.axes = r.axesAt s.posture
  jointTorque : s.jointTorque = r.jointTorqueAt s.posture s.thrust.thrust

section
variable [SingularValues ℝ] {r} {p} {setup : Setup ℝ} {q : Coordinates ℝ}
  {s : HoverState ℝ r.tree.size}

theorem hovers_of_solve (h : r.solve setup q = .ok s) : r.Hovers setup q s := by
  obtain ⟨frames, hq, h⟩ := bind_eq_ok.mp h
  obtain ⟨⟨cog, loaded⟩, ha, h⟩ := bind_eq_ok.mp h
  obtain ⟨thrust, ht, h⟩ := bind_eq_ok.mp h
  cases h
  exact ⟨bind_eq_ok.mpr ⟨frames, hq, bind_eq_ok.mpr ⟨_, ha, rfl⟩⟩, rfl, rfl, rfl, rfl, ht, rfl, rfl⟩

theorem solve_isOk (h : r.posture setup q = .ok p) {thrust : StaticThrust ℝ}
    (ht : (r.allocationAt p).staticThrust r.config.strategy r.config.conditionLimit
      (r.gravityAt p) = .ok thrust) :
    ∃ s, r.solve setup q = .ok s ∧ s.posture = p := by
  obtain ⟨frames, hq, h⟩ := bind_eq_ok.mp h
  obtain ⟨⟨cog, loaded⟩, ha, h⟩ := bind_eq_ok.mp h
  cases h
  exact ⟨_, bind_eq_ok.mpr ⟨frames, hq, bind_eq_ok.mpr ⟨_, ha, bind_eq_ok.mpr ⟨_, ht, rfl⟩⟩⟩, rfl⟩

theorem Hovers.loads (h : r.Hovers setup q s) :
    s.loads r = r.loadsAt s.posture s.thrust.thrust := by
  rw [HoverState.loads, h.rotors]
  rfl

end

/-! ## Rotors -/

/-- The segments of the rotors and the ways the rotors turn. -/
def mounts : List (Fin r.tree.size × ℝ) := r.rotors.segments.zip r.rotors.directions

def mount (j : Fin r.mounts.length) : Fin r.tree.size := (r.mounts.get j).1

noncomputable def rotorAt (j : Fin r.mounts.length) : PlacedRotor ℝ r.tree.size where
  number := j + 1
  segment := r.mount j
  origin := p.point (r.mount j) 0 - p.cog.levelPosition
  axis := p.direction (r.mount j) Vec3.unitZ
  direction := (r.mounts.get j).2
  dragRatio := r.rotors.dragRatio

noncomputable def wrenchAt (j : Fin r.mounts.length) : Wrench ℝ := (r.rotorAt p j).wrench

noncomputable def weightAt (x : InertiaGroup ℝ r.tree.size × Inertia ℝ) : Load ℝ r.tree.size where
  segment := x.1.base
  point := p.point x.1.base x.2.cog
  force := (⟨0, 0, -r.config.gravity⟩ : Vec3 ℝ) * x.2.mass
  moment := 0

noncomputable def liftAt (j : Fin r.mounts.length) (f : ℝ) : Load ℝ r.tree.size where
  segment := r.mount j
  point := p.point (r.mount j) 0
  force := (r.rotorAt p j).axis * f
  moment := ((r.rotorAt p j).axis * f : Vec3 ℝ) * (r.rotorAt p j).drag

section
variable {r p} {groups : List (InertiaGroup ℝ r.tree.size)} (hp : p.Sound groups)
include hp

theorem extract_eq_ofFn : r.rotors.extract p.frames p.cog = List.ofFn (r.rotorAt p) := by
  refine List.ext_getElem ?_ fun i h h' => ?_
  · rw [RotorLayout.extract, List.length_map, List.length_zipIdx, List.length_ofFn, mounts]
  · have horigin : (p.cog.frame.inverse * p.frames.get (r.mount ⟨i, by simpa using h'⟩)).origin =
        p.point (r.mount ⟨i, by simpa using h'⟩) 0 - p.cog.levelPosition := by
      rw [Posture.point_zero, CentreOfGravity.levelPosition, sub_eq_neg_add, ← Quat.rotate_neg]
      rfl
    have haxis : (p.cog.frame.inverse * p.frames.get (r.mount ⟨i, by simpa using h'⟩)).rotation.rotate
        Vec3.unitZ = p.direction (r.mount ⟨i, by simpa using h'⟩) Vec3.unitZ :=
      hp.level.mul_rotate (hp.rigid _) _
    simp only [RotorLayout.extract, List.getElem_map, List.getElem_zipIdx, List.getElem_ofFn,
      rotorAt, ← horigin, ← haxis, zero_add]
    rfl

theorem allocationAt_eq : r.allocationAt p = ⟨List.ofFn (r.wrenchAt p)⟩ := by
  rw [allocationAt, extract_eq_ofFn hp, Allocation.ofRotors, List.map_ofFn, List.map_ofFn]
  rfl

theorem loadsAt_eq (f : Fin r.mounts.length → ℝ) : r.loadsAt p (List.ofFn f) =
    (r.groups.zip p.loaded).map (r.weightAt p) ++ List.ofFn fun j => r.liftAt p j (f j) := by
  rw [loadsAt, extract_eq_ofFn hp, staticLoads, zip_ofFn, List.map_ofFn]
  refine congrArg₂ _ rfl (congrArg List.ofFn (funext fun j => ?_))
  simp only [Function.comp_apply, liftAt, Posture.point_zero, rotorAt]

end

/-! ## A robot with six rotors -/

/-- Both rotors along an axis push at the ends of one lever. -/
noncomputable def hexarotorWrench : Fin 6 → Wrench ℝ
  | 0 => ⟨Vec3.unitZ, Vec3.unitX⟩
  | 1 => ⟨Vec3.unitZ, -Vec3.unitX⟩
  | 2 => ⟨Vec3.unitX, Vec3.unitY⟩
  | 3 => ⟨Vec3.unitX, -Vec3.unitY⟩
  | 4 => ⟨Vec3.unitY, Vec3.unitZ⟩
  | 5 => ⟨Vec3.unitY, -Vec3.unitZ⟩

theorem torque_hexarotor (p : Posture hexarotor.tree.size) (j : Fin 6) :
    (hexarotor.rotorAt p j).torque = (p.point (hexarotor.mount j) 0 - p.cog.levelPosition).cross
      (p.direction (hexarotor.mount j) Vec3.unitZ) := by
  have hdrag : (hexarotor.rotorAt p j).drag = 0 := zero_mul _
  change _ + p.direction (hexarotor.mount j) Vec3.unitZ * (hexarotor.rotorAt p j).drag = _
  rw [hdrag, Vec3.mul_zero, add_zero]
  rfl

section
variable {p : Posture hexarotor.tree.size} (h : hexarotor.posture bare ⟨[0]⟩ = .ok p)
include h

theorem wrenchAt_hexarotor (j : Fin 6) : hexarotor.wrenchAt p j = hexarotorWrench j := by
  have hmount : p.frames.get (hexarotor.mount j) = hexarotorMount j := by
    rw [← frame_hexarotor_rotor (posture_eq_ok.mp h).1 j]
    fin_cases j <;> rfl
  have haxis : p.direction (hexarotor.mount j) Vec3.unitZ = (hexarotorWrench j).force := by
    rw [Posture.direction, level_hexarotor h, Quat.identity_rotate, hmount]
    fin_cases j <;> ext <;> norm_num [hexarotorMount, hexarotorWrench, forwards, sideways,
      Quat.rotate_eq, Quat.identity_eq, Quat.vector, Vec3.unitX, Vec3.unitY, Vec3.unitZ]
  have horigin : p.point (hexarotor.mount j) 0 - p.cog.levelPosition = (hexarotorMount j).origin := by
    rw [Posture.point_zero, level_hexarotor h, Quat.identity_rotate, hmount,
      levelPosition_hexarotor h, sub_zero]
  refine congrArg₂ Wrench.mk haxis ?_
  calc (hexarotor.rotorAt p j).torque =
      (hexarotorMount j).origin.cross (hexarotorWrench j).force := by
        rw [torque_hexarotor, horigin, haxis]
    _ = (hexarotorWrench j).torque := by
      fin_cases j <;> ext <;> norm_num [hexarotorMount, hexarotorWrench, Vec3.unitX, Vec3.unitY,
        Vec3.unitZ]

theorem allocationAt_hexarotor : hexarotor.allocationAt p = ⟨List.ofFn hexarotorWrench⟩ := by
  rw [allocationAt_eq (assembled_hexarotor.sound (admits_bare _) h)]
  exact congrArg (fun w => Allocation.mk (List.ofFn w)) (funext (wrenchAt_hexarotor h))

end

/-- The rows of the six wrenches are orthogonal and all of one length. -/
@[reducible] noncomputable def hexarotorValues : SingularValues ℝ := ⟨fun _ => List.replicate 6 √(1 + 1)⟩

theorem injective_hexarotor : Dense.Injective (Dense.ofFn fun (i j : Fin 6) =>
    (hexarotorWrench j).get (Strategy.fullyActuated.axes.get i)) := by
  intro y hy
  simp only [Dense.entry_ofFn, Fin.sum_univ_six] at hy
  have h0 : 0 * y.get 0 + 0 * y.get 1 + 1 * y.get 2 + 1 * y.get 3 + 0 * y.get 4 + 0 * y.get 5 = 0 := hy 0
  have h1 : 0 * y.get 0 + 0 * y.get 1 + 0 * y.get 2 + 0 * y.get 3 + 1 * y.get 4 + 1 * y.get 5 = 0 := hy 1
  have h2 : 1 * y.get 0 + 1 * y.get 1 + 0 * y.get 2 + 0 * y.get 3 + 0 * y.get 4 + 0 * y.get 5 = 0 := hy 2
  have h3 : 1 * y.get 0 + -1 * y.get 1 + 0 * y.get 2 + -0 * y.get 3 + 0 * y.get 4 + -0 * y.get 5 = 0 := hy 3
  have h4 : 0 * y.get 0 + -0 * y.get 1 + 1 * y.get 2 + -1 * y.get 3 + 0 * y.get 4 + -0 * y.get 5 = 0 := hy 4
  have h5 : 0 * y.get 0 + -0 * y.get 1 + 0 * y.get 2 + -0 * y.get 3 + 1 * y.get 4 + -1 * y.get 5 = 0 := hy 5
  have z0 : y.get 0 = 0 := by linarith
  have z1 : y.get 1 = 0 := by linarith
  have z2 : y.get 2 = 0 := by linarith
  have z3 : y.get 3 = 0 := by linarith
  have z4 : y.get 4 = 0 := by linarith
  have z5 : y.get 5 = 0 := by linarith
  intro j
  fin_cases j
  exacts [z0, z1, z2, z3, z4, z5]

theorem staticThrust_hexarotor (load : Wrench ℝ) : ∃ t, @Allocation.staticThrust ℝ _ hexarotorValues
    ⟨List.ofFn hexarotorWrench⟩ .fullyActuated hexarotorConfig.conditionLimit load = .ok t := by
  have hrank : @Dense.rankAndCondition ℝ _ hexarotorValues _ _ (Allocation.controlled
      ⟨List.ofFn hexarotorWrench⟩ .fullyActuated) = (6, 1) := by
    refine @Allocation.rankAndCondition_replicate hexarotorValues _ _ 5 _ √(1 + 1) rfl (by positivity) ?_
    have hdim : max Strategy.fullyActuated.axes.length (Allocation.rotorCount ⟨List.ofFn hexarotorWrench⟩) = 6 := rfl
    rw [hdim]
    norm_num [Dense.roundoff]
  refine @Allocation.staticThrust_isOk hexarotorValues _ .fullyActuated _ 1 rfl hrank ?_ ?_ load
  · norm_num [hexarotorConfig, Config.standard]
  · simp only [Allocation.controlled, Dense.entry_ofFn]
    exact injective_hexarotor

theorem solve_hexarotor : ∃ s, @solve ℝ _ hexarotorValues hexarotor bare ⟨[0]⟩ = .ok s := by
  obtain ⟨p, hp⟩ := exists_posture_hexarotor
  obtain ⟨t, ht⟩ := staticThrust_hexarotor (hexarotor.gravityAt p)
  rw [← allocationAt_hexarotor hp] at ht
  obtain ⟨s, hs, -⟩ := @solve_isOk _ _ hexarotorValues _ _ hp _ ht
  exact ⟨s, hs⟩

end Robot

end Multirotor
