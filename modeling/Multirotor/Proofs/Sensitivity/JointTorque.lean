import Multirotor.Proofs.Sensitivity.StaticThrust

/-!
# Rates of the joint torques

The loads and the rates of the loads are listed in one order, entry by entry
(`Moves.loads`), whatever the numbers of groups and rotors. So the torque that
a joint has to hold changes at the rate that the analytic columns give
(`analytic_jointTorque`): its axis, the points and forces beyond it and the
thrusts all change at once.
-/

namespace Multirotor

open Matrix

/-- The load stays on its segment, and changes at the given rates. -/
structure Load.HasRate {n : Nat} (l : ℝ → Load ℝ n) (d : LoadRate ℝ) : Prop where
  segment : ∀ t, (l t).segment = (l 0).segment
  point : Vec3.HasRate (fun t => (l t).point) d.point
  force : Vec3.HasRate (fun t => (l t).force) d.force
  moment : Vec3.HasRate (fun t => (l t).moment) d.moment

theorem Load.HasRate.momentAbout {n : Nat} {l : ℝ → Load ℝ n} {d : LoadRate ℝ} (h : HasRate l d)
    {o : ℝ → Vec3 ℝ} {v : Vec3 ℝ} (ho : Vec3.HasRate o v) :
    Vec3.HasRate (fun t => (l t).momentAbout (o t))
      ((d.point - v).cross (l 0).force + ((l 0).point - o 0).cross d.force + d.moment) :=
  ((h.point.sub ho).cross h.force).add h.moment

namespace Robot

variable {r : Robot ℝ} {s : HoverState ℝ r.tree.size} {m : Motion}

/-! ## One joint -/

/-- A joint whose axis and origin move with its segment holds loads that change entry by entry. -/
theorem hasDerivAt_jointTorque {loads : ℝ → List (Load ℝ r.tree.size)} {rates : List (LoadRate ℝ)}
    (hloads : Entrywise Load.HasRate loads rates) {joint : ℝ → JointAxis ℝ r.tree.size}
    (hcoordinate : ∀ t, (joint t).coordinate = (joint 0).coordinate)
    (haxis : Vec3.HasRate (fun t => (joint t).axis)
      ((r.velocities s).direction m (joint 0).segment (joint 0).axis))
    (horigin : Vec3.HasRate (fun t => (joint t).origin)
      ((r.velocities s).point m (joint 0).segment (joint 0).origin)) :
    HasDerivAt (fun t => r.tree.jointTorque (loads t) (joint t))
      (r.jointTorqueRate s m ((loads 0).zip rates) (joint 0)) 0 := by
  obtain ⟨n, entry, rate, hentry, rfl, hrate⟩ := hloads
  -- Loads stay on their segments, so that the same ones lie beyond the joint at every step.
  set held := (List.finRange n).filter fun i =>
    r.tree.moves (joint 0).coordinate (entry i 0).segment with hheld
  have hmoment : ∀ t, r.tree.momentBeyond (joint t) (loads t) =
      (held.map fun i => (entry i t).momentAbout (joint t).origin).sum := fun t => by
    have hfilter : (fun l : Load ℝ r.tree.size => r.tree.moves (joint t).coordinate l.segment) ∘
        (fun i => entry i t) = fun i => r.tree.moves (joint 0).coordinate (entry i 0).segment :=
      funext fun i => by rw [Function.comp_apply, hcoordinate, (hrate i).segment]
    rw [Tree.momentBeyond, Vec3.sum_real, hentry, List.ofFn_eq_map, List.filter_map, hfilter,
      List.map_map]
    rfl
  have hsum := Vec3.HasRate.sum fun i (_ : i ∈ held) => (hrate i).momentAbout horigin
  unfold Tree.jointTorque
  simp only [hmoment]
  refine (haxis.dot hsum).neg.congr_deriv ?_
  rw [jointTorqueRate, hentry, zip_ofFn, List.ofFn_eq_map, List.filter_map, Vec3.sum_real,
    Vec3.sum_real, List.map_map, List.map_map, Vec3.dot_comm]
  simp only [Mat3.neg_skew_apply, Mat3.skew_apply]
  rfl

/-! ## All loads -/

variable (r s m) in
noncomputable def liftRateAt (j : Fin r.mounts.length) : LoadRate ℝ where
  point := (r.velocities s).point m (r.mount j) (s.posture.point (r.mount j) 0)
  force := (r.wrenchRateAt s m j).force * r.thrustAt s.posture j +
    (r.rotorAt s.posture j).axis * r.thrustRateAt s m j
  moment := ((r.wrenchRateAt s m j).force * r.thrustAt s.posture j +
    (r.rotorAt s.posture j).axis * r.thrustRateAt s m j) * (r.rotorAt s.posture j).drag

section
variable {path : ℝ → Posture r.tree.size} (h : r.Moves s m path)
include h

theorem Moves.weight (x : InertiaGroup ℝ r.tree.size × Inertia ℝ) :
    Load.HasRate (fun t => r.weightAt (path t) x) ⟨(r.groupRate s m x.1 x.2).2, 0, 0⟩ :=
  ⟨fun _ => rfl, h.point x.1.base x.2.cog, Vec3.hasRate_const _, Vec3.hasRate_const 0⟩

variable (hrows : Allocation.Independent r.config.strategy (r.wrenchAt s.posture))
include hrows

theorem Moves.lift (j : Fin r.mounts.length) :
    Load.HasRate (fun t => r.liftAt (path t) j (r.thrustAt (path t) j))
      (r.liftRateAt s m j) := by
  have hforce := (h.wrench j).force.mul (h.thrust hrows j)
  rw [h.start] at hforce
  exact ⟨fun _ => rfl, h.point (r.mount j) 0, hforce,
    hforce.mul_const (r.rotorAt s.posture j).drag⟩

theorem Moves.loads :
    Entrywise Load.HasRate (fun t => r.loadsAt (path t) (List.ofFn (r.thrustAt (path t))))
      (((r.loadedGroups s).map fun x => ⟨(r.groupRate s m x.1 x.2).2, 0, 0⟩) ++
        List.ofFn (r.liftRateAt s m)) := by
  simp only [loadsAt_eq (h.sound _), h.loaded]
  exact (Entrywise.map fun x _ => h.weight x).append (Entrywise.ofFn fun j => h.lift hrows j)

end

/-- The torques along postures differ entry by entry as the analytic rule says, if the loads do. -/
theorem Moves.jointTorque {path : ℝ → Posture r.tree.size} (h : r.Moves s m path) (hr : r.Assembled)
    (haxes : s.axes = r.axesAt s.posture) {thrust : ℝ → List ℝ} {rates : List (LoadRate ℝ)}
    (hloads : Entrywise Load.HasRate (fun t => r.loadsAt (path t) (thrust t)) rates) :
    Entrywise (fun f d => HasDerivAt f d 0) (fun t => r.jointTorqueAt (path t) (thrust t))
      (s.axes.map (r.jointTorqueRate s m ((r.loadsAt (path 0) (thrust 0)).zip rates))) := by
  have haxesAt : ∀ p : Posture r.tree.size, r.axesAt p = r.tree.joints.zipIdx.map fun x =>
      r.tree.jointAxis p.frames p.cog.level x.2 x.1 := fun p =>
    Tree.jointAxes_eq hr.wellFormed hr.rooted p.cog.level
  simp only [jointTorqueAt, haxes, haxesAt, List.map_map, ← h.start]
  refine Entrywise.map fun x _ => hasDerivAt_jointTorque hloads (fun _ => rfl) ?_ ?_
  · have haxis := h.direction x.1 (r.tree.segment x.1).joint.kind.hinge
    rw [← h.start] at haxis
    exact haxis
  · have horigin := h.point x.1 0
    simp only [Posture.point_zero, ← h.start] at horigin
    exact horigin

/-! ## In a solved state -/

section
variable [SingularValues ℝ] {setup : Setup ℝ} {q : Coordinates ℝ}

theorem Hovers.loadRates (hp : s.posture.Sound r.groups) (h : r.Hovers setup q s) :
    r.loadRates s m (r.wrenchRates s m) (List.ofFn (r.thrustRateAt s m)) =
      ((r.loadedGroups s).map fun x => ⟨(r.groupRate s m x.1 x.2).2, 0, 0⟩) ++
        List.ofFn (r.liftRateAt s m) := by
  rw [Robot.loadRates, h.rotors_eq hp, (h.thrust_eq hp).2, h.wrenchRates hp, zip_ofFn, zip_ofFn,
    zip_ofFn, List.map_ofFn]
  refine congrArg₂ _ rfl (congrArg List.ofFn (funext fun j => ?_))
  have hx : s.cog.level.rotate (s.frames.get (r.rotorAt s.posture j).segment).origin =
      s.posture.point (r.mount j) 0 := (s.posture.point_zero _).symm
  simp only [Function.comp_apply, hx]
  rfl

theorem Hovers.jointTorqueRates (hp : s.posture.Sound r.groups) (h : r.Hovers setup q s)
    {e : ThrustEquations ℝ r.config.strategy.axes.length s.allocation.rotorCount}
    (he : r.ThrustRate s e) : (r.rates s e m).jointTorque = s.axes.map (r.jointTorqueRate s m
      ((r.loadsAt s.posture (List.ofFn (r.thrustAt s.posture))).zip
        (r.loadRates s m (r.wrenchRates s m) (List.ofFn (r.thrustRateAt s m))))) := by
  have hrates : (r.rates s e m).jointTorque = s.axes.map (r.jointTorqueRate s m
      ((s.loads r).zip (r.loadRates s m (r.wrenchRates s m) (r.rates s e m).staticThrust))) := rfl
  rw [hrates, h.thrustRates hp he, h.loads, (h.thrust_eq hp).2]

theorem Sustains.solved_loads {payload : Payload ℝ}
    {trial : ℝ → Trial ℝ (HoverState ℝ r.tree.size)} {path : ℝ → Posture r.tree.size}
    {thrust : ℝ → List ℝ} (h : r.Sustains s payload trial path thrust)
    (ht : r.Traces s payload m trial path) {step : ℝ} {setup : Setup ℝ}
    {s' : HoverState ℝ r.tree.size} (hpay : setup.payload = payload)
    (hs : ((trial step).run setup).1 = .ok s') :
    s'.loads r = r.loadsAt (path step) (thrust step) ∧
      s'.jointTorque = r.jointTorqueAt (path step) (thrust step) := by
  obtain ⟨_, _, hhovers⟩ := ht.hovers hpay hs
  rw [hhovers.loads, hhovers.jointTorque, ht.solved step setup s' hpay hs,
    (h.solved step setup s' hpay hs).2]
  exact ⟨rfl, rfl⟩

/-- Loads and load rates agree entry by entry, and the torques that hold the loads, which are those
of all states solved there, change at the rates of the column. -/
structure TorqueColumns (r : Robot ℝ) (s : HoverState ℝ r.tree.size) (payload : Payload ℝ)
    (m : Motion) (trial : ℝ → Trial ℝ (HoverState ℝ r.tree.size))
    (path : ℝ → Posture r.tree.size) (thrust : ℝ → List ℝ) (dthrust dtorque : List ℝ) : Prop where
  loads : Entrywise Load.HasRate (fun t => r.loadsAt (path t) (thrust t))
    (r.loadRates s m (r.wrenchRates s m) dthrust)
  solved : ∀ step setup s', setup.payload = payload → ((trial step).run setup).1 = .ok s' →
    s'.loads r = r.loadsAt (path step) (thrust step) ∧
      s'.jointTorque = r.jointTorqueAt (path step) (thrust step)
  torque : Entrywise (fun f d => HasDerivAt f d 0)
    (fun t => r.jointTorqueAt (path t) (thrust t)) dtorque

/-- The analytic columns differentiate the joint torques along the states that the differences are
taken from. -/
theorem analytic_jointTorque (hr : r.Assembled) (ha : r.Admits setup)
    (hroot : (r.tree.segment r.tree.root).joint.kind.isRevolute = false)
    (h : r.solve setup q = .ok s) :
    ∃ sens, r.analytic s = .ok sens ∧ ∀ m trial, r.Displaces s m trial →
      ∃ dthrust dtorque, sens.staticThrust.columns[m.column]? = some dthrust ∧
        sens.jointTorque.columns[m.column]? = some dtorque ∧
        ∃ path thrust, r.Traces s setup.payload m trial path ∧
          r.Sustains s setup.payload trial path thrust ∧
          r.TorqueColumns s setup.payload m trial path thrust dthrust dtorque := by
  have hs := hovers_of_solve h
  have hp := hr.sound ha hs.posture
  obtain ⟨e, -, hsens, he⟩ := analytic_isOk hs
  obtain ⟨hrows, -⟩ := hs.thrust_eq hp
  refine ⟨_, hsens, fun m trial hd => ?_⟩
  obtain ⟨path, htraces, hmoves⟩ := exists_path hr ha hroot hs hd
  have hsustains := hs.sustains hp htraces hmoves
  have hloads := hmoves.loads hrows
  rw [← hs.loadRates hp] at hloads
  have hcolumn := fun f : Rates ℝ → List ℝ =>
    Tree.getElem?_columns hd.mem_motions (r.rates s e) f
  refine ⟨_, _, (hcolumn fun x => x.staticThrust).trans (congrArg some (hs.thrustRates hp he)),
    (hcolumn fun x => x.jointTorque).trans (congrArg some (hs.jointTorqueRates hp he)), path, _,
    htraces, hsustains, hloads, fun step setup' s' => hsustains.solved_loads htraces, ?_⟩
  rw [← hmoves.start]
  exact hmoves.jointTorque hr hs.axes hloads

end

theorem analytic_jointTorque_hexarotor :
    ∃ s, @solve ℝ _ hexarotorValues hexarotor bare ⟨[0]⟩ = .ok s ∧
      ∃ sens, @analytic ℝ _ hexarotor s hexarotorValues = .ok sens ∧
        ∀ m trial, @Displaces hexarotorValues hexarotor s m trial →
          ∃ dthrust dtorque, sens.staticThrust.columns[m.column]? = some dthrust ∧
            sens.jointTorque.columns[m.column]? = some dtorque ∧
            ∃ path thrust, @Traces hexarotorValues hexarotor s .empty m trial path ∧
              hexarotor.Sustains s .empty trial path thrust ∧
              hexarotor.TorqueColumns s .empty m trial path thrust dthrust dtorque := by
  obtain ⟨s, hs⟩ := solve_hexarotor
  exact ⟨s, hs,
    @analytic_jointTorque _ _ hexarotorValues _ _ assembled_hexarotor (admits_bare _) rfl hs⟩

end Robot

end Multirotor
