import Multirotor.Proofs.Hover

/-!
# Equilibrium

Gravity on the groups and the lift and drag of the rotors hold each other: as
far as the strategy controls it, nothing is left of their force, nor of their
moment about the centre of gravity (`loads_balance`). With all six axes
controlled each joint carries as much from one side as from the other.
-/

namespace Multirotor

namespace Wrench

theorem foldl_add (ws : List (Wrench ℝ)) (w : Wrench ℝ) : ws.foldl (· + ·) w =
    ⟨w.force + (ws.map Wrench.force).sum, w.torque + (ws.map Wrench.torque).sum⟩ := by
  induction ws generalizing w with
  | nil => simp
  | cons v ws ih =>
    simp only [List.foldl_cons, ih, List.map_cons, List.sum_cons, ← add_assoc]
    rfl

end Wrench

theorem Allocation.wrench_ofFn {n : Nat} (w : Fin n → Wrench ℝ) (f : Fin n → ℝ) :
    (⟨List.ofFn w⟩ : Allocation ℝ).wrench (List.ofFn f) =
      ⟨∑ j, ((w j).force * f j : Vec3 ℝ), ∑ j, ((w j).torque * f j : Vec3 ℝ)⟩ := by
  rw [wrench, zip_ofFn, List.map_ofFn, Wrench.foldl_add, List.map_ofFn, List.map_ofFn, List.sum_ofFn,
    List.sum_ofFn]
  exact congrArg₂ Wrench.mk (zero_add _) (zero_add _)

theorem Strategy.controls_lift (s : Strategy) : 2 ∈ s.axes := by
  cases s <;> decide

theorem Strategy.controls_torque (s : Strategy) : 3 ∈ s.axes ∧ 4 ∈ s.axes ∧ 5 ∈ s.axes := by
  cases s <;> decide

namespace Allocation

variable {a : Allocation ℝ} {load : Wrench ℝ} {thrust : List ℝ}

theorem Balances.torque_eq {s : Strategy} (h : a.Balances s load thrust) :
    (a.wrench thrust).torque = -load.torque := by
  obtain ⟨hroll, hpitch, hyaw⟩ := s.controls_torque
  ext
  · exact h 3 hroll
  · exact h 4 hpitch
  · exact h 5 hyaw

theorem Balances.force_eq (h : a.Balances .fullyActuated load thrust) :
    (a.wrench thrust).force = -load.force := by
  ext
  · exact h 0 (by decide)
  · exact h 1 (by decide)
  · exact h 2 (by decide)

end Allocation

/-! ## Both sides of a joint -/

namespace Tree

variable (t : Tree ℝ) (joint : JointAxis ℝ t.size) (loads : List (Load ℝ t.size))

/-- The moment about a joint of the loads that it does not carry. -/
noncomputable def momentBefore : Vec3 ℝ :=
  Vec3.sum ((loads.filter fun l => !t.moves joint.coordinate l.segment).map
    fun l => l.momentAbout joint.origin)

theorem momentBeyond_add_momentBefore : t.momentBeyond joint loads + t.momentBefore joint loads =
    Vec3.sum (loads.map fun l => l.momentAbout joint.origin) := by
  simp only [momentBeyond, momentBefore, Vec3.sum_real]
  rw [← List.sum_append, ← List.map_append]
  exact ((List.filter_append_perm _ loads).map _).sum_eq

end Tree

/-! ## Force and moment of all loads -/

namespace Robot

variable {r : Robot ℝ} {p : Posture r.tree.size} (hp : p.Sound r.groups)
  (f : Fin r.mounts.length → ℝ)
include hp

theorem force_loadsAt : ((r.loadsAt p (List.ofFn f)).map (·.force)).sum =
    (r.gravityAt p).force + ((r.allocationAt p).wrench (List.ofFn f)).force := by
  rw [loadsAt_eq hp, allocationAt_eq hp, Allocation.wrench_ofFn, List.map_append, List.sum_append,
    List.map_map, List.map_ofFn, List.sum_ofFn]
  refine congrArg₂ _ ?_ rfl
  refine (Vec3.mul_sum ⟨0, 0, -r.config.gravity⟩
    (fun x : InertiaGroup ℝ r.tree.size × Inertia ℝ => x.2.mass) _).trans ?_
  rw [← hp.mass]
  ext <;> simp [gravityAt, Wrench.gravity, mul_comm]

theorem moment_weights (o : Vec3 ℝ) :
    ((r.groups.zip p.loaded).map fun x => (r.weightAt p x).momentAbout o).sum =
      (p.cog.levelPosition - o).cross (r.gravityAt p).force := by
  -- Gravity pulls all groups the same way, so their levers add up to that of the centre.
  have hlever : ((r.groups.zip p.loaded).map fun x =>
      (p.point x.1.base x.2.cog * x.2.mass + -o * x.2.mass : Vec3 ℝ)).sum =
        ((p.cog.levelPosition - o) * p.cog.mass : Vec3 ℝ) := by
    rw [List.sum_map_add, ← hp.centre, Vec3.mul_sum, ← hp.mass]
    ext <;> simp <;> ring
  calc _ = ((r.groups.zip p.loaded).map fun x => (p.point x.1.base x.2.cog * x.2.mass +
        -o * x.2.mass : Vec3 ℝ).cross ⟨0, 0, -r.config.gravity⟩).sum := by
        refine congrArg List.sum (List.map_congr_left fun x _ => ?_)
        ext <;> simp [Load.momentAbout, weightAt] <;> ring
    _ = ((p.cog.levelPosition - o) * p.cog.mass : Vec3 ℝ).cross ⟨0, 0, -r.config.gravity⟩ := by
        rw [Vec3.sum_cross, hlever]
    _ = _ := by ext <;> simp [gravityAt, Wrench.gravity] <;> ring

omit hp in
theorem moment_lifts (o : Vec3 ℝ) : ∑ j, (r.liftAt p j (f j)).momentAbout o =
    ∑ j, ((r.wrenchAt p j).torque * f j : Vec3 ℝ) +
      (p.cog.levelPosition - o).cross (∑ j, ((r.wrenchAt p j).force * f j : Vec3 ℝ)) := by
  rw [Vec3.cross_sum, ← Finset.sum_add_distrib]
  refine Finset.sum_congr rfl fun j _ => ?_
  ext <;> simp [Load.momentAbout, liftAt, wrenchAt, Rotor.wrench, Rotor.torque, rotorAt] <;> ring

/-- The moment about a point is that of the rotors about the centre of gravity, and what the total
force there adds to it. -/
theorem moment_loadsAt (o : Vec3 ℝ) :
    ((r.loadsAt p (List.ofFn f)).map fun l => l.momentAbout o).sum =
      ((r.allocationAt p).wrench (List.ofFn f)).torque +
        (p.cog.levelPosition - o).cross ((r.loadsAt p (List.ofFn f)).map (·.force)).sum := by
  rw [force_loadsAt hp, allocationAt_eq hp, Allocation.wrench_ofFn, loadsAt_eq hp, List.map_append,
    List.sum_append, List.map_map, List.map_ofFn, List.sum_ofFn, Vec3.cross_add]
  refine (congrArg₂ _ (moment_weights hp o) (moment_lifts f o)).trans ?_
  abel

end Robot

/-! ## Balance -/

namespace Robot

/-- The loads neither lift the robot nor turn it about its centre of gravity. -/
structure Poised (r : Robot ℝ) (s : HoverState ℝ r.tree.size) : Prop where
  lift : (Vec3.sum ((s.loads r).map (·.force))).z = 0
  moment : Vec3.sum ((s.loads r).map fun l => l.momentAbout s.cog.levelPosition) = 0

/-- The loads have no force and no moment about any point, so that each joint carries the same from
both sides. -/
structure AtRest (r : Robot ℝ) (s : HoverState ℝ r.tree.size) : Prop where
  force : Vec3.sum ((s.loads r).map (·.force)) = 0
  moment : ∀ point, Vec3.sum ((s.loads r).map fun l => l.momentAbout point) = 0
  sides : ∀ joint, r.tree.momentBeyond joint (s.loads r) = -r.tree.momentBefore joint (s.loads r)
  jointTorque : s.jointTorque =
    s.axes.map fun joint => joint.axis.dot (r.tree.momentBefore joint (s.loads r))

section
variable [SingularValues ℝ] {r : Robot ℝ} {setup : Setup ℝ} {q : Coordinates ℝ}
  {s : HoverState ℝ r.tree.size}

theorem Hovers.balances (h : r.Hovers setup q s) :
    s.thrust.thrust.length = s.allocation.rotorCount ∧
      s.allocation.Balances r.config.strategy s.gravity s.thrust.thrust := by
  obtain ⟨x, ⟨hsolves, -⟩, ht⟩ := Allocation.staticThrust_eq_ok h.thrust
  rw [ht]
  exact ⟨Vector.length_toList, Allocation.balances_iff_solves.mpr hsolves⟩

section
variable (hp : s.posture.Sound r.groups) (h : r.Hovers setup q s)
include hp h

theorem Hovers.exists_thrust :
    ∃ f : Fin r.mounts.length → ℝ, s.loads r = r.loadsAt s.posture (List.ofFn f) ∧
      (r.allocationAt s.posture).Balances r.config.strategy (r.gravityAt s.posture)
        (List.ofFn f) := by
  obtain ⟨hcount, hbalance⟩ := h.balances
  rw [h.allocation] at hcount hbalance
  have hlen : s.thrust.thrust.length = r.mounts.length := by
    rw [hcount, allocationAt_eq hp]
    exact List.length_ofFn
  obtain ⟨f, hf⟩ := exists_ofFn hlen
  rw [hf, h.gravity] at hbalance
  exact ⟨f, by rw [h.loads, hf], hbalance⟩

theorem Hovers.lift : (Vec3.sum ((s.loads r).map (·.force))).z = 0 := by
  obtain ⟨f, hloads, hbalance⟩ := h.exists_thrust hp
  rw [Vec3.sum_real, hloads, force_loadsAt hp]
  exact add_eq_zero_iff_eq_neg'.mpr (hbalance 2 (Strategy.controls_lift _))

theorem Hovers.force (hfull : r.config.strategy = .fullyActuated) :
    Vec3.sum ((s.loads r).map (·.force)) = 0 := by
  obtain ⟨f, hloads, hbalance⟩ := h.exists_thrust hp
  rw [hfull] at hbalance
  rw [Vec3.sum_real, hloads, force_loadsAt hp, hbalance.force_eq, add_neg_cancel]

/-- No moment is left but what the force makes of its lever. -/
theorem Hovers.moment (o : Vec3 ℝ) : Vec3.sum ((s.loads r).map fun l => l.momentAbout o) =
    (s.cog.levelPosition - o).cross (Vec3.sum ((s.loads r).map (·.force))) := by
  obtain ⟨f, hloads, hbalance⟩ := h.exists_thrust hp
  have htorque : ((r.allocationAt s.posture).wrench (List.ofFn f)).torque = 0 :=
    hbalance.torque_eq.trans neg_zero
  rw [Vec3.sum_real, Vec3.sum_real, hloads, moment_loadsAt hp, htorque, zero_add]
  rfl

end

/-- The loads of hovering leave the robot poised, and at rest if all axes are controlled. -/
theorem loads_balance (hr : r.Assembled) (ha : r.Admits setup) (h : r.solve setup q = .ok s) :
    r.Poised s ∧ (r.config.strategy = .fullyActuated → r.AtRest s) := by
  have hs := hovers_of_solve h
  have hp := hr.sound ha hs.posture
  refine ⟨⟨hs.lift hp, ?_⟩, fun hfull => ?_⟩
  · rw [hs.moment hp, sub_self, Vec3.zero_cross]
  have hforce := hs.force hp hfull
  -- Without a force the moment is the same about every point.
  have hmoment : ∀ o, Vec3.sum ((s.loads r).map fun l => l.momentAbout o) = 0 := fun o => by
    rw [hs.moment hp, hforce, Vec3.cross_zero]
  have hsides : ∀ joint, r.tree.momentBeyond joint (s.loads r) =
      -r.tree.momentBefore joint (s.loads r) := fun joint => by
    rw [eq_neg_iff_add_eq_zero, Tree.momentBeyond_add_momentBefore, hmoment]
  refine ⟨hforce, hmoment, hsides, ?_⟩
  rw [hs.jointTorque, jointTorqueAt, ← hs.loads, ← hs.axes]
  refine List.map_congr_left fun joint _ => ?_
  rw [Tree.jointTorque, hsides, Vec3.dot_neg, neg_neg]

end

theorem loads_balance_hexarotor : ∃ s, @solve ℝ _ hexarotorValues hexarotor bare ⟨[0]⟩ = .ok s ∧
    hexarotor.Poised s ∧ hexarotor.AtRest s := by
  obtain ⟨s, hs⟩ := solve_hexarotor
  obtain ⟨hpoised, hrest⟩ :=
    @loads_balance hexarotorValues _ _ _ _ assembled_hexarotor (admits_bare _) hs
  exact ⟨s, hs, hpoised, hrest rfl⟩

end Robot

end Multirotor
