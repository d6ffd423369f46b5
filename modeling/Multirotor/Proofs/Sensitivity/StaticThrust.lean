import Multirotor.Proofs.Sensitivity.Momentum

/-!
# Rates of the static thrust

Along the displaced postures the wrench of each rotor changes at the rate that
the analytic thrust equations use, and so the thrusts that go on to balance
gravity change at the rate they give (`analytic_staticThrust`). To first order
the balance is kept in every column.
-/

namespace Multirotor

open Matrix

structure Wrench.HasRate (f : ℝ → Wrench ℝ) (d : Wrench ℝ) : Prop where
  force : Vec3.HasRate (fun t => (f t).force) d.force
  torque : Vec3.HasRate (fun t => (f t).torque) d.torque

theorem Wrench.HasRate.get {f : ℝ → Wrench ℝ} {d : Wrench ℝ} (h : HasRate f d) (k : Fin 6) :
    HasDerivAt (fun t => (f t).get k) (d.get k) 0 := by
  fin_cases k
  exacts [h.force.x, h.force.y, h.force.z, h.torque.x, h.torque.y, h.torque.z]

namespace Robot

variable (r : Robot ℝ) (p : Posture r.tree.size) (s : HoverState ℝ r.tree.size) (m : Motion)

/-- The thrusts of least length that balance gravity. -/
noncomputable def thrustAt : Fin r.mounts.length → ℝ :=
  leastSolution (Allocation.rows r.config.strategy (r.wrenchAt p))
    (Allocation.demand r.config.strategy (r.gravityAt p)).get

noncomputable def wrenchRates : List (Wrench ℝ) := s.rotors.map (r.wrenchRate s m (r.cogRate s m))

noncomputable def wrenchRateAt (j : Fin r.mounts.length) : Wrench ℝ :=
  r.wrenchRate s m (r.cogRate s m) (r.rotorAt s.posture j)

noncomputable def thrustRateAt : Fin r.mounts.length → ℝ :=
  leastSolutionRate (Allocation.rows r.config.strategy (r.wrenchAt s.posture))
    (Allocation.rows r.config.strategy (r.wrenchRateAt s m))
    (Allocation.demand r.config.strategy (r.gravityAt s.posture)).get

variable {r p s m}

/-! ## Along a motion -/

section
variable {path : ℝ → Posture r.tree.size} (h : r.Moves s m path)
include h

theorem Moves.wrench (j : Fin r.mounts.length) :
    Wrench.HasRate (fun t => r.wrenchAt (path t) j) (r.wrenchRateAt s m j) := by
  have haxis := h.direction (r.mount j) Vec3.unitZ
  have horigin := (h.point (r.mount j) 0).sub h.levelPosition
  refine ⟨haxis, ((horigin.cross haxis).add
    (haxis.mul_const (r.rotorAt s.posture j).drag)).congr_rate ?_⟩
  have hx : s.cog.level.rotate (s.frames.get (r.rotorAt s.posture j).segment).origin =
      s.posture.point (r.mount j) 0 := (s.posture.point_zero _).symm
  rw [wrenchRateAt, wrenchRate, Mat3.neg_skew_apply, Mat3.skew_apply, h.start, hx]
  rfl

theorem Moves.gravity (t : ℝ) : r.gravityAt (path t) = r.gravityAt s.posture := by
  rw [gravityAt, h.mass]
  rfl

theorem Moves.rows (i : Fin r.config.strategy.axes.length) (j : Fin r.mounts.length) :
    HasDerivAt (fun t => Allocation.rows r.config.strategy (r.wrenchAt (path t)) i j)
      (Allocation.rows r.config.strategy (r.wrenchRateAt s m) i j) 0 := (h.wrench j).get _

variable (hrows : Allocation.Independent r.config.strategy (r.wrenchAt s.posture))
include hrows

theorem Moves.thrust (j : Fin r.mounts.length) :
    HasDerivAt (fun t => r.thrustAt (path t) j) (r.thrustRateAt s m j) 0 := by
  rw [← h.start] at hrows
  have hthrust := hasDerivAt_leastSolution h.rows hrows
    (Allocation.demand r.config.strategy (r.gravityAt s.posture)).get j
  rw [h.start] at hthrust
  simp only [thrustAt, h.gravity]
  exact hthrust

/-- Rows that are independent stay so next to the state. -/
theorem Moves.eventually_least : ∀ᶠ t in nhds 0, (r.allocationAt (path t)).Least
    r.config.strategy (r.gravityAt (path t)) (List.ofFn (r.thrustAt (path t))) := by
  rw [← h.start] at hrows
  filter_upwards [eventually_det_ne_zero (hasDerivAt_gram h.rows) hrows] with t ht
  have hcolumns := congrArg Allocation.columns (allocationAt_eq (h.sound t))
  exact Allocation.least_leastSolution hcolumns ht

end

/-- What the changed wrenches do with the thrusts, the wrenches do with the changed thrusts, the other
way round. -/
theorem balance_rate (hrows : Allocation.Independent r.config.strategy (r.wrenchAt s.posture))
    {axis : Fin 6} (haxis : axis ∈ r.config.strategy.axes) :
    ((⟨List.ofFn (r.wrenchRateAt s m)⟩ : Allocation ℝ).wrench
        (List.ofFn (r.thrustAt s.posture))).get axis +
      ((⟨List.ofFn (r.wrenchAt s.posture)⟩ : Allocation ℝ).wrench
        (List.ofFn (r.thrustRateAt s m))).get axis = 0 := by
  obtain ⟨i, rfl⟩ := List.get_of_mem haxis
  rw [Allocation.get_wrench_ofFn, Allocation.get_wrench_ofFn]
  exact congrFun (mulVec_leastSolutionRate hrows (Allocation.rows _ (r.wrenchRateAt s m))
    (Allocation.demand _ (r.gravityAt s.posture)).get) i

/-! ## In a solved state -/

section
variable [SingularValues ℝ] {setup : Setup ℝ} {q : Coordinates ℝ}

theorem Hovers.columns (hp : s.posture.Sound r.groups) (h : r.Hovers setup q s) :
    s.allocation.columns = List.ofFn (r.wrenchAt s.posture) := by
  rw [h.allocation, allocationAt_eq hp]

theorem Hovers.thrust_eq (hp : s.posture.Sound r.groups) (h : r.Hovers setup q s) :
    Allocation.Independent r.config.strategy (r.wrenchAt s.posture) ∧
      s.thrust.thrust = List.ofFn (r.thrustAt s.posture) := by
  have hthrust := Allocation.staticThrust_leastSolution (h.columns hp) h.thrust
  rwa [h.gravity] at hthrust

theorem Hovers.rotors_eq (hp : s.posture.Sound r.groups) (h : r.Hovers setup q s) :
    s.rotors = List.ofFn (r.rotorAt s.posture) := by
  have hextract := extract_eq_ofFn hp
  rw [h.rotors]
  exact hextract

theorem Hovers.wrenchRates (hp : s.posture.Sound r.groups) (h : r.Hovers setup q s) :
    r.wrenchRates s m = List.ofFn (r.wrenchRateAt s m) := by
  rw [Robot.wrenchRates, h.rotors_eq hp, List.map_ofFn]
  rfl

theorem Hovers.thrustRates (hp : s.posture.Sound r.groups) (h : r.Hovers setup q s)
    {e : ThrustEquations ℝ r.config.strategy.axes.length s.allocation.rotorCount}
    (he : r.ThrustRate s e) : (r.rates s e m).staticThrust = List.ofFn (r.thrustRateAt s m) := by
  have hrates : (r.rates s e m).staticThrust = (e.rate (Dense.ofFn fun i j =>
      ((r.wrenchRates s m).getD j 0).get (r.config.strategy.axes.get i))).toList := rfl
  rw [hrates, h.wrenchRates hp, he.toList (h.columns hp), h.gravity]
  rfl

/-- The least thrusts that balance gravity along postures: those of all states solved there. -/
structure Sustains (r : Robot ℝ) (s : HoverState ℝ r.tree.size) (payload : Payload ℝ)
    (trial : ℝ → Trial ℝ (HoverState ℝ r.tree.size)) (path : ℝ → Posture r.tree.size)
    (thrust : ℝ → List ℝ) : Prop where
  start : thrust 0 = s.thrust.thrust
  least : ∀ᶠ t in nhds 0,
    (r.allocationAt (path t)).Least r.config.strategy (r.gravityAt (path t)) (thrust t)
  solved : ∀ step setup s', setup.payload = payload → ((trial step).run setup).1 = .ok s' →
    s'.allocation = r.allocationAt (path step) ∧ s'.thrust.thrust = thrust step

theorem Hovers.sustains (hp : s.posture.Sound r.groups) (h : r.Hovers setup q s)
    {payload : Payload ℝ} {trial : ℝ → Trial ℝ (HoverState ℝ r.tree.size)}
    {path : ℝ → Posture r.tree.size} (htraces : r.Traces s payload m trial path)
    (hmoves : r.Moves s m path) :
    r.Sustains s payload trial path fun t => List.ofFn (r.thrustAt (path t)) := by
  obtain ⟨hrows, hthrust⟩ := h.thrust_eq hp
  refine ⟨?_, hmoves.eventually_least hrows, fun step setup' s' hpay hs' => ?_⟩
  · rw [hthrust, ← hmoves.start]
  · obtain ⟨_, _, hhovers⟩ := htraces.hovers hpay hs'
    have hposture := htraces.solved step setup' s' hpay hs'
    have hthrust' := (hhovers.thrust_eq (hposture ▸ hmoves.sound step)).2
    rw [hposture] at hthrust'
    exact ⟨hhovers.allocation.trans (congrArg r.allocationAt hposture), hthrust'⟩

/-- At these rates of the thrusts, and at those of the wrenches, what the rotors supply on the
controlled axes does not change. -/
structure KeepsBalance (r : Robot ℝ) (s : HoverState ℝ r.tree.size) (m : Motion)
    (dthrust : List ℝ) : Prop where
  length : dthrust.length = s.allocation.rotorCount
  balance : ∀ axis ∈ r.config.strategy.axes,
    ((⟨r.wrenchRates s m⟩ : Allocation ℝ).wrench s.thrust.thrust).get axis +
      (s.allocation.wrench dthrust).get axis = 0

/-- The wrenches of the rotors change at the rates used, and the thrusts at those of the column. -/
structure ThrustColumns (r : Robot ℝ) (s : HoverState ℝ r.tree.size) (payload : Payload ℝ)
    (m : Motion) (trial : ℝ → Trial ℝ (HoverState ℝ r.tree.size))
    (path : ℝ → Posture r.tree.size) (dthrust : List ℝ) : Prop where
  wrenches : Entrywise Wrench.HasRate (fun t => (r.allocationAt (path t)).columns)
    (r.wrenchRates s m)
  thrust : ∃ thrust, r.Sustains s payload trial path thrust ∧
    Entrywise (fun f d => HasDerivAt f d 0) thrust dthrust

/-- The analytic columns differentiate the static thrust along the states that the differences are
taken from, and keep gravity balanced to first order. -/
theorem analytic_staticThrust (hr : r.Assembled) (ha : r.Admits setup)
    (hroot : (r.tree.segment r.tree.root).joint.kind.isRevolute = false)
    (h : r.solve setup q = .ok s) :
    ∃ sens, r.analytic s = .ok sens ∧
      ∀ m ∈ r.tree.motions, ∃ dthrust, sens.staticThrust.columns[m.column]? = some dthrust ∧
        r.KeepsBalance s m dthrust ∧
        ∀ trial, r.Displaces s m trial → ∃ path, r.Traces s setup.payload m trial path ∧
          r.ThrustColumns s setup.payload m trial path dthrust := by
  have hs := hovers_of_solve h
  have hp := hr.sound ha hs.posture
  obtain ⟨e, -, hsens, he⟩ := analytic_isOk hs
  obtain ⟨hrows, hthrust⟩ := hs.thrust_eq hp
  have hcolumn : ∀ m ∈ r.tree.motions, ((r.tree.motions.map (r.rates s e)).map
      (·.staticThrust))[m.column]? = some (List.ofFn (r.thrustRateAt s m)) := fun m hm => by
    rw [Tree.getElem?_columns hm, hs.thrustRates hp he]
  refine ⟨_, hsens, fun m hm => ⟨_, hcolumn m hm, ⟨?_, fun axis haxis => ?_⟩, fun trial hd => ?_⟩⟩
  · rw [List.length_ofFn, Allocation.rotorCount, hs.columns hp, List.length_ofFn]
  · have hbalance := balance_rate (m := m) hrows haxis
    rwa [← hs.wrenchRates hp, ← hthrust, ← hs.columns hp] at hbalance
  obtain ⟨path, htraces, hmoves⟩ := exists_path hr ha hroot hs hd
  refine ⟨path, htraces, ?_, _, hs.sustains hp htraces hmoves,
    Entrywise.ofFn fun j => hmoves.thrust hrows j⟩
  simp only [allocationAt_eq (hmoves.sound _), hs.wrenchRates hp]
  exact Entrywise.ofFn hmoves.wrench

end

theorem analytic_staticThrust_hexarotor :
    ∃ s, @solve ℝ _ hexarotorValues hexarotor bare ⟨[0]⟩ = .ok s ∧
      ∃ sens, @analytic ℝ _ hexarotor s hexarotorValues = .ok sens ∧
        ∀ m ∈ hexarotor.tree.motions, ∃ dthrust,
          sens.staticThrust.columns[m.column]? = some dthrust ∧
          hexarotor.KeepsBalance s m dthrust ∧
          ∀ trial, @Displaces hexarotorValues hexarotor s m trial →
            ∃ path, @Traces hexarotorValues hexarotor s .empty m trial path ∧
              hexarotor.ThrustColumns s .empty m trial path dthrust := by
  obtain ⟨s, hs⟩ := solve_hexarotor
  exact ⟨s, hs,
    @analytic_staticThrust _ _ hexarotorValues _ _ assembled_hexarotor (admits_bare _) rfl hs⟩

end Robot

end Multirotor
