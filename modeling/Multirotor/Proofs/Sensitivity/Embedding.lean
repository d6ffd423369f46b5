import Multirotor.Proofs.Embedding
import Multirotor.Sensitivity.Analytic

/-!
# Sensitivities within a larger robot

A robot that is part of a larger one moves like it: every motion moves a
segment of both alike, so states that agree have one sensitivity
(`Embeds.analytic`).
-/

namespace Multirotor

variable {α : Type} [Scalar α]

/-! ## Velocities -/

namespace VelocityField

variable {t t' : Tree α} {e : Fin t.size → Fin t'.size} (h : t.Embeds t' e)
  {axes : List (JointAxis α t.size)} {axes' : List (JointAxis α t'.size)}
  (haxes : axes' = axes.map (JointAxis.map e)) {level level' : Mat3 α} (hlevel : level' = level)
include h haxes

omit [Scalar α] in
theorem hinge?_map (c : Nat) (i : Fin t.size) :
    (⟨t', axes', level'⟩ : VelocityField α).hinge? c (e i) =
      ((⟨t, axes, level⟩ : VelocityField α).hinge? c i).map (JointAxis.map e) := by
  subst haxes
  unfold hinge?
  dsimp only
  rw [h.moves, List.getElem?_map]
  by_cases hm : t.moves c i = true
  · rw [if_pos hm, if_pos hm]
  · rw [if_neg hm, if_neg hm, Option.map_none]

include hlevel

theorem point_map (m : Motion) (i : Fin t.size) (x : Vec3 α) :
    (⟨t', axes', level'⟩ : VelocityField α).point m (e i) x =
      (⟨t, axes, level⟩ : VelocityField α).point m i x := by
  subst hlevel
  cases m with
  | shift k => rfl
  | turn k => rfl
  | bend c =>
    unfold point
    dsimp only
    rw [hinge?_map h haxes]
    cases hinge? (⟨t, axes, level'⟩ : VelocityField α) c i <;> rfl

theorem direction_map (m : Motion) (i : Fin t.size) (v : Vec3 α) :
    (⟨t', axes', level'⟩ : VelocityField α).direction m (e i) v =
      (⟨t, axes, level⟩ : VelocityField α).direction m i v := by
  subst hlevel
  cases m with
  | shift k => rfl
  | turn k => rfl
  | bend c =>
    unfold direction
    dsimp only
    rw [hinge?_map h haxes]
    cases hinge? (⟨t, axes, level'⟩ : VelocityField α) c i <;> rfl

theorem angular_map (m : Motion) (i : Fin t.size) :
    (⟨t', axes', level'⟩ : VelocityField α).angular m (e i) =
      (⟨t, axes, level⟩ : VelocityField α).angular m i := by
  subst hlevel
  cases m with
  | shift k => rfl
  | turn k => rfl
  | bend c =>
    unfold angular
    dsimp only
    rw [hinge?_map h haxes]
    cases hinge? (⟨t, axes, level'⟩ : VelocityField α) c i <;> rfl

end VelocityField

namespace HoverState

variable {n n' : Nat} {e : Fin n → Fin n'} {s : HoverState α n} {s' : HoverState α n'}

theorem Within.level (hs : s.Within e s') : s'.cog.level.toMatrix = s.cog.level.toMatrix := by
  rw [hs.cog]

omit [Scalar α] in
theorem Within.ofRates (hs : s.Within e s') (rates : List (Rates α)) :
    Sensitivity.ofRates s' rates = Sensitivity.ofRates s rates := by
  unfold Sensitivity.ofRates
  rw [hs.rotors, hs.axes, hs.margins, List.length_map, List.length_map]

end HoverState

namespace Robot

section
variable {r r' : Robot α} {e : Fin r.tree.size → Fin r'.tree.size}
  {s : HoverState α r.tree.size} {s' : HoverState α r'.tree.size}
  (h : r.Embeds r' e) (hs : s.Within e s')
include h hs

theorem Embeds.point (m : Motion) (i : Fin r.tree.size) (x : Vec3 α) :
    (r'.velocities s').point m (e i) x = (r.velocities s).point m i x :=
  VelocityField.point_map h.tree hs.axes hs.level m i x

theorem Embeds.direction (m : Motion) (i : Fin r.tree.size) (v : Vec3 α) :
    (r'.velocities s').direction m (e i) v = (r.velocities s).direction m i v :=
  VelocityField.direction_map h.tree hs.axes hs.level m i v

theorem Embeds.angular (m : Motion) (i : Fin r.tree.size) :
    (r'.velocities s').angular m (e i) = (r.velocities s).angular m i :=
  VelocityField.angular_map h.tree hs.axes hs.level m i

/-! ## Groups -/

theorem Embeds.groupRate (m : Motion) {g : InertiaGroup α r.tree.size}
    {g' : InertiaGroup α r'.tree.size} (hg : g'.base = e g.base) (b : Inertia α) :
    r'.groupRate s' m g' b = r.groupRate s m g b := by
  unfold Robot.groupRate groupPoint
  dsimp only
  rw [hg, hs.frames, hs.cog, h.point hs]

theorem Embeds.cogRate (m : Motion) : r'.cogRate s' m = r.cogRate s m := by
  unfold Robot.cogRate loadedGroups
  rw [hs.loaded, hs.cog]
  refine congrArg Vec3.sum (h.map_zip (fun g g' b hg => ?_) s.loaded)
  dsimp only
  rw [h.groupRate hs m hg]

theorem Embeds.momentumRate (m : Motion) : r'.momentumRate s' m = r.momentumRate s m := by
  unfold Robot.momentumRate loadedGroups
  rw [hs.loaded, hs.cog]
  refine congrArg Vec3.sum (h.map_zip (fun g g' b hg => ?_) s.loaded)
  dsimp only
  unfold groupTensor
  rw [h.groupRate hs m hg, hg, h.angular hs, hs.frames, hs.cog]

/-! ## Rotors -/

theorem Embeds.wrenchRate (m : Motion) (dcog : Vec3 α) (rotor : PlacedRotor α r.tree.size) :
    r'.wrenchRate s' m dcog (rotor.map e) = r.wrenchRate s m dcog rotor := by
  unfold Robot.wrenchRate PlacedRotor.map
  dsimp only
  rw [h.point hs, h.direction hs, hs.frames, hs.cog]

theorem Embeds.loadRates (m : Motion) (wrenches : List (Wrench α)) (dthrust : List α) :
    r'.loadRates s' m wrenches dthrust = r.loadRates s m wrenches dthrust := by
  unfold Robot.loadRates loadedGroups
  rw [hs.loaded, hs.rotors, hs.thrust, List.zip_map_left, List.zip_map_left, List.map_map]
  refine congrArg₂ _ (h.map_zip (fun g g' b hg => ?_) s.loaded) (List.map_congr_left fun x _ => ?_)
  · dsimp only
    rw [h.groupRate hs m hg]
  · dsimp only [Function.comp_apply, Prod.map_fst, Prod.map_snd, PlacedRotor.map, id_eq]
    rw [h.point hs, hs.frames, hs.cog]

theorem Embeds.jointTorqueRate (m : Motion) (loads : List (Load α r.tree.size))
    (rates : List (LoadRate α)) (joint : JointAxis α r.tree.size) :
    r'.jointTorqueRate s' m ((loads.map (Load.map e)).zip rates) (joint.map e) =
      r.jointTorqueRate s m (loads.zip rates) joint := by
  have hmoves : ((fun x : Load α r'.tree.size × LoadRate α =>
      r'.tree.moves joint.coordinate x.1.segment) ∘ Prod.map (Load.map e) id) =
        fun x => r.tree.moves joint.coordinate x.1.segment :=
    funext fun x => h.tree.moves _ x.1.segment
  unfold Robot.jointTorqueRate
  dsimp only [JointAxis.map]
  rw [List.zip_map_left, List.filter_map, hmoves, List.map_map, List.map_map, h.point hs,
    h.direction hs]
  rfl

theorem Embeds.loads : s'.loads r' = (s.loads r).map (Load.map e) := by
  unfold HoverState.loads
  rw [hs.cog, hs.loaded, hs.rotors, hs.thrust]
  exact h.staticLoads hs.frames _ _ _ _

theorem Embeds.rates {k : Nat} {x : ThrustEquations α r.config.strategy.axes.length k}
    {x' : ThrustEquations α r'.config.strategy.axes.length k} (hx : HEq x' x) (m : Motion) :
    r'.rates s' x' m = r.rates s x m := by
  have hwrenches : s'.rotors.map (r'.wrenchRate s' m (r.cogRate s m)) =
      s.rotors.map (r.wrenchRate s m (r.cogRate s m)) := by
    rw [hs.rotors, List.map_map]
    exact List.map_congr_left fun rotor _ => h.wrenchRate hs m _ rotor
  obtain ⟨tree, groups, rotors, baselink, config⟩ := r'
  obtain rfl : config = r.config := h.config
  obtain rfl := eq_of_heq hx
  unfold Robot.rates
  dsimp only
  rw [h.cogRate hs, h.momentumRate hs, hwrenches, h.loads hs, hs.axes, List.map_map, h.range,
    hs.margins, hs.allocation, hs.cog, h.loadRates hs]
  simp only [Function.comp_def, h.jointTorqueRate hs]

theorem Embeds.analytic [SingularValues α] : r'.analytic s' = r.analytic s := by
  have hrates := hs.ofRates
  have hmotions : r'.tree.motions = r.tree.motions := by
    unfold Tree.motions
    rw [h.tree.jointCount]
  have hrate : ∀ {k : Nat} {x : ThrustEquations α r.config.strategy.axes.length k} {x'},
      HEq x' x → r'.rates s' x' = r.rates s x := fun hx => funext (h.rates hs hx)
  obtain ⟨tree, groups, rotors, baselink, config⟩ := r'
  obtain rfl : config = r.config := h.config
  obtain ⟨q, frames, cog, loaded, placed, allocation, gravity, thrust, axes, torque, margins,
    verdict⟩ := s'
  obtain rfl : allocation = s.allocation := hs.allocation
  obtain rfl : gravity = s.gravity := hs.gravity
  obtain rfl : thrust = s.thrust := hs.thrust
  unfold Robot.analytic thrustEquations?
  dsimp only
  cases (s.allocation.controlled r.config.strategy).gram.inverse? with
  | none => rfl
  | some inverse =>
    dsimp only [Option.map_some]
    rw [hrates, hmotions, hrate HEq.rfl]

end

end Robot

end Multirotor
