import Multirotor.Proofs.Sensitivity.LockedInertia

/-!
# Motions of the root

A shift of the root moves the centre of gravity and nothing else. In a turn
the thrusts, the joint torques and the distances of the forces change
linearly with the angular velocity, and not at all about the vertical, which
gravity lies along (`linear_thrustTurning`, `vertical_thrustTurning` and
their like). So the columns of the three turns cancel, weighted with the
vertical in the axes that they turn about (`analytic_rootColumns`).
-/

namespace Multirotor

open Matrix

/-! ## Linear functions -/

namespace Vec3

structure Linear {β : Type} [Add β] [HMul β ℝ β] (f : Vec3 ℝ → β) : Prop where
  add : ∀ u v, f (u + v) = f u + f v
  mul : ∀ u (s : ℝ), f (u * s : Vec3 ℝ) = f u * s

namespace Linear

variable {f : Vec3 ℝ → ℝ} {g h : Vec3 ℝ → Vec3 ℝ}

theorem cross (a : Vec3 ℝ) : Linear fun w => w.cross a :=
  ⟨fun u v => add_cross u v a, fun u s => mul_cross u a s⟩

theorem dot (hg : Linear g) (a : Vec3 ℝ) : Linear fun w => a.dot (g w) where
  add u v := by rw [hg.add, dot_add]
  mul u s := by rw [hg.mul, dot_mul]

theorem neg (hg : Linear g) : Linear fun w => -g w where
  add u v := by rw [hg.add, neg_add]
  mul u s := by
    rw [hg.mul]
    ext <;> simp

theorem cross_right (hg : Linear g) (a : Vec3 ℝ) : Linear fun w => a.cross (g w) where
  add u v := by rw [hg.add, cross_add]
  mul u s := by rw [hg.mul, cross_mul]

theorem map_add (hg : Linear g) (hh : Linear h) : Linear fun w => g w + h w where
  add u v := by
    rw [hg.add, hh.add]
    abel
  mul u s := by rw [hg.mul, hh.mul, add_mul_scale]

/-- A vector of fixed direction. -/
theorem along (hf : Linear f) (a : Vec3 ℝ) : Linear fun w => (a * f w : Vec3 ℝ) where
  add u v := by rw [hf.add, mul_add_scale]
  mul u s := by
    rw [hf.mul]
    ext <;> simp [mul_assoc]

theorem scaled (hg : Linear g) (k : ℝ) : Linear fun w => (g w * k : Vec3 ℝ) where
  add u v := by rw [hg.add, add_mul_scale]
  mul u s := by
    rw [hg.mul]
    ext <;> simp [mul_assoc, mul_comm s]

theorem list_sum {ι : Type} {l : List ι} {g : ι → Vec3 ℝ → Vec3 ℝ} (hg : ∀ x ∈ l, Linear (g x)) :
    Linear fun w => (l.map fun x => g x w).sum := by
  induction l with
  | nil => exact ⟨fun _ _ => (add_zero 0).symm, fun _ _ => by ext <;> simp⟩
  | cons x l ih =>
    obtain ⟨hx, hl⟩ := List.forall_mem_cons.mp hg
    simp only [List.map_cons, List.sum_cons]
    exact hx.map_add (ih hl)

variable (hf : Linear f)
include hf

theorem zero : f 0 = 0 := by
  have h := hf.mul 0 0
  rwa [Vec3.mul_zero, mul_zero] at h

/-- The columns of a matrix are where the axes go. -/
theorem sum_col (a : Mat3 ℝ) (w : Vec3 ℝ) : ∑ k, w.get k * f (a.col k) = f (a.apply w) := by
  have happly : a.apply w = a.col₀ * w.x + a.col₁ * w.y + a.col₂ * w.z := by
    ext <;> simp [Mat3.apply_eq, Mat3.col₀, Mat3.col₁, Mat3.col₂, dot_eq]
  rw [happly, hf.add, hf.add, hf.mul, hf.mul, hf.mul, Fin.sum_univ_three]
  simp only [Vec3.get, Mat3.col]
  ring

end Linear

end Vec3

/-! ## Columns -/

attribute [ext] Rates

namespace Jacobian

/-- The column of a motion that changes nothing. -/
def Still (j : Jacobian ℝ) (m : Motion) : Prop :=
  j.columns[m.column]? = some (List.replicate j.rows 0)

/-- With these weights the columns of the turns of the root add up to nothing. -/
def Cancels (j : Jacobian ℝ) (weights : Vec3 ℝ) : Prop :=
  ∃ column : Fin 3 → List ℝ,
    (∀ k, j.columns[(Motion.turn k).column]? = some (column k) ∧ (column k).length = j.rows) ∧
      ∀ i, ∑ k, weights.get k * (column k).getD i 0 = 0

variable {j : Jacobian ℝ} {ι : Type} {items : List ι} (hrows : j.rows = items.length)
include hrows

theorem still_of_map {m : Motion}
    (hcolumn : j.columns[m.column]? = some (items.map fun _ => 0)) : j.Still m := by
  rw [Still, hcolumn, hrows, List.map_const']

theorem cancels_of_linear {a : Mat3 ℝ} (ha : a.Orthogonal) {entry : ι → Vec3 ℝ → ℝ}
    (hcolumn : ∀ k, j.columns[(Motion.turn k).column]? =
      some (items.map fun x => entry x (a.col k)))
    (hlinear : ∀ x, Vec3.Linear (entry x)) (hvertical : ∀ x, entry x Vec3.unitZ = 0) :
    j.Cancels a.row₂ := by
  refine ⟨_, fun k => ⟨hcolumn k, (List.length_map _).trans hrows.symm⟩, fun i => ?_⟩
  simp only [List.getD_eq_getElem?_getD, List.getElem?_map]
  cases items[i]? with
  | none => simp
  | some x =>
    simp only [Option.map_some, Option.getD_some]
    rw [(hlinear x).sum_col, ha.apply_row₂, hvertical]

end Jacobian

/-! ## Thrusts -/

namespace Wrench

variable (x : Wrench ℝ) (k : Fin 6)

theorem linear_turning : Vec3.Linear fun w => (x.turning w).get k := by
  constructor <;> intros <;> fin_cases k <;> simp [turning, get] <;> ring

end Wrench

namespace Allocation

variable (st : Strategy) {n : Nat} (x : Fin n → Wrench ℝ)

theorem rows_turning_add (u v : Vec3 ℝ) : rows st (fun j => (x j).turning (u + v)) =
    rows st (fun j => (x j).turning u) + rows st fun j => (x j).turning v := by
  ext i j
  exact ((x j).linear_turning _).add u v

theorem rows_turning_mul (u : Vec3 ℝ) (t : ℝ) : rows st (fun j => (x j).turning (u * t)) =
    t • rows st fun j => (x j).turning u := by
  ext i j
  exact (((x j).linear_turning _).mul u t).trans (mul_comm _ _)

end Allocation

namespace Strategy

/-- How a turn about the vertical mixes the controlled axes. It takes none to one that is not. -/
noncomputable def verticalTurn :
    (st : Strategy) → Matrix (Fin st.axes.length) (Fin st.axes.length) ℝ
  | underActuated => !![0, 0, 0, 0; 0, 0, -1, 0; 0, 1, 0, 0; 0, 0, 0, 0]
  | fullyActuated => !![0, -1, 0, 0, 0, 0; 1, 0, 0, 0, 0, 0; 0, 0, 0, 0, 0, 0;
      0, 0, 0, 0, -1, 0; 0, 0, 0, 1, 0, 0; 0, 0, 0, 0, 0, 0]

theorem verticalTurn_mulVec (st : Strategy) (x : Wrench ℝ) :
    (st.verticalTurn *ᵥ fun i => x.get (st.axes.get i)) =
      fun i => (x.turning Vec3.unitZ).get (st.axes.get i) := by
  ext i
  simp only [mulVec, dotProduct]
  cases st with
  | underActuated =>
    refine (Fin.sum_univ_four (M := ℝ) _).trans ?_
    fin_cases i <;> simp [verticalTurn, axes, Wrench.get, Wrench.turning, Vec3.unitZ]
  | fullyActuated =>
    refine (Fin.sum_univ_six (M := ℝ) _).trans ?_
    fin_cases i <;> simp [verticalTurn, axes, Wrench.get, Wrench.turning, Vec3.unitZ]

theorem rows_turning_unitZ (st : Strategy) {n : Nat} (x : Fin n → Wrench ℝ) :
    Allocation.rows st (fun j => (x j).turning Vec3.unitZ) =
      st.verticalTurn * Allocation.rows st x := by
  ext i j
  exact (congrFun (st.verticalTurn_mulVec (x j)) i).symm

/-- Gravity lies along the vertical. -/
theorem verticalTurn_demand (st : Strategy) (mass gravity : ℝ) :
    st.verticalTurn *ᵥ (Allocation.demand st (.gravity mass gravity)).get = 0 := by
  have hdemand : (Allocation.demand st (.gravity mass gravity)).get =
      -fun i => (Wrench.gravity mass gravity).get (st.axes.get i) :=
    funext fun i => Vector.get_ofFn _ i
  have hstill : (Wrench.gravity mass gravity).turning Vec3.unitZ = 0 := by
    have hforce : Vec3.unitZ.cross ⟨0, 0, -mass * gravity⟩ = 0 := by
      ext <;> simp [Vec3.unitZ]
    rw [Wrench.turning, Wrench.gravity, hforce, Vec3.cross_zero]
    rfl
  rw [hdemand, mulVec_neg, verticalTurn_mulVec, hstill]
  ext i
  simp [Wrench.get_zero]

end Strategy

namespace Robot

variable (r : Robot ℝ) (s : HoverState ℝ r.tree.size) (w : Vec3 ℝ)

/-- The rates of the thrusts while all rotors turn alike. -/
noncomputable def thrustTurning : Fin r.mounts.length → ℝ :=
  leastSolutionRate (Allocation.rows r.config.strategy (r.wrenchAt s.posture))
    (Allocation.rows r.config.strategy fun j => (r.wrenchAt s.posture j).turning w)
    (Allocation.demand r.config.strategy (r.gravityAt s.posture)).get

variable {r s w}

variable (s) in
theorem linear_thrustTurning (j : Fin r.mounts.length) :
    Vec3.Linear fun w => r.thrustTurning s w j where
  add u v := by
    simp only [thrustTurning, Allocation.rows_turning_add, leastSolutionRate_add]
    rfl
  mul u t := by
    simp only [thrustTurning, Allocation.rows_turning_mul, leastSolutionRate_smul]
    exact mul_comm _ _

theorem vertical_thrustTurning
    (hrows : Allocation.Independent r.config.strategy (r.wrenchAt s.posture)) :
    r.thrustTurning s Vec3.unitZ = 0 := by
  rw [thrustTurning, Strategy.rows_turning_unitZ, leastSolutionRate_mul _ hrows, gravityAt,
    Strategy.verticalTurn_demand, leastSolution, leastMultiplier, mulVec_zero, mulVec_zero,
    neg_zero]

end Robot

/-! ## Joint torques -/

/-- A load that stays where it is, while its force and its moment follow the angular velocity. -/
structure Load.Linear {n : Nat} (load : Vec3 ℝ → Load ℝ n) : Prop where
  segment : ∀ w, (load w).segment = (load 0).segment
  point : ∀ w, (load w).point = (load 0).point
  force : Vec3.Linear fun w => (load w).force
  moment : Vec3.Linear fun w => (load w).moment

theorem Load.Linear.momentAbout {n : Nat} {load : Vec3 ℝ → Load ℝ n} (h : Linear load)
    (origin : Vec3 ℝ) : Vec3.Linear fun w => (load w).momentAbout origin := by
  simp only [Load.momentAbout, h.point]
  exact (h.force.cross_right _).map_add h.moment

namespace Tree

variable {t : Tree ℝ} (joint : JointAxis ℝ t.size)

theorem momentBeyond_append (l l' : List (Load ℝ t.size)) :
    t.momentBeyond joint (l ++ l') = t.momentBeyond joint l + t.momentBeyond joint l' := by
  simp only [momentBeyond, Vec3.sum_real, List.filter_append, List.map_append, List.sum_append]

theorem momentBeyond_of_idle {loads : List (Load ℝ t.size)}
    (h : ∀ l ∈ loads, l.force = 0 ∧ l.moment = 0) : t.momentBeyond joint loads = 0 := by
  rw [momentBeyond, Vec3.sum_real]
  refine List.sum_eq_zero (List.forall_mem_map.mpr fun l hl => ?_)
  obtain ⟨hforce, hmoment⟩ := h l (List.mem_filter.mp hl).1
  rw [Load.momentAbout, hforce, hmoment, Vec3.cross_zero, add_zero]

theorem linear_momentBeyond {ι : Type} {l : List ι} {load : ι → Vec3 ℝ → Load ℝ t.size}
    (h : ∀ x, Load.Linear (load x)) :
    Vec3.Linear fun w => t.momentBeyond joint (l.map fun x => load x w) := by
  have hbeyond : ∀ w, t.momentBeyond joint (l.map fun x => load x w) =
      ((l.filter fun x => t.moves joint.coordinate (load x 0).segment).map fun x =>
        (load x w).momentAbout joint.origin).sum := fun w => by
    have hheld : (fun l : Load ℝ t.size => t.moves joint.coordinate l.segment) ∘
        (fun x => load x w) = fun x => t.moves joint.coordinate (load x 0).segment :=
      funext fun x => by rw [Function.comp_apply, (h x).segment]
    rw [momentBeyond, Vec3.sum_real, List.filter_map, List.map_map, hheld]
    rfl
  simp only [hbeyond]
  exact Vec3.Linear.list_sum fun x _ => (h x).momentAbout joint.origin

end Tree

namespace Robot

variable (r : Robot ℝ) (s : HoverState ℝ r.tree.size) (w : Vec3 ℝ)

/-- The loads that a turn adds: gravity does not turn along, and the thrusts change. -/
noncomputable def loadsTurning : List (Load ℝ r.tree.size) :=
  ((r.loadedGroups s).map fun x =>
    { r.weightAt s.posture x with force := -w.cross (r.weightAt s.posture x).force }) ++
      (List.finRange r.mounts.length).map fun j => r.liftAt s.posture j (r.thrustTurning s w j)

variable {r}

theorem linear_weightAt (x : InertiaGroup ℝ r.tree.size × Inertia ℝ) : Load.Linear fun w =>
    { r.weightAt s.posture x with force := -w.cross (r.weightAt s.posture x).force } where
  segment _ := rfl
  point _ := rfl
  force := (Vec3.Linear.cross _).neg
  moment := ⟨fun _ _ => (add_zero 0).symm, fun _ _ => by ext <;> simp [weightAt]⟩

theorem linear_liftAt {f : Vec3 ℝ → ℝ} (hf : Vec3.Linear f) (j : Fin r.mounts.length) :
    Load.Linear fun w => r.liftAt s.posture j (f w) where
  segment _ := rfl
  point _ := rfl
  force := hf.along _
  moment := (hf.along _).scaled _

variable {s}

theorem linear_loadsTurning (joint : JointAxis ℝ r.tree.size) :
    Vec3.Linear fun w => r.tree.jointTorque (r.loadsTurning s w) joint := by
  have hweights := Tree.linear_momentBeyond joint (l := r.loadedGroups s)
    (linear_weightAt s)
  have hlifts := Tree.linear_momentBeyond joint (l := List.finRange r.mounts.length)
    fun j => linear_liftAt s (linear_thrustTurning s j) j
  simp only [Tree.jointTorque, loadsTurning, Tree.momentBeyond_append, ← Vec3.dot_neg]
  exact (hweights.map_add hlifts).neg.dot joint.axis

theorem vertical_loadsTurning
    (hrows : Allocation.Independent r.config.strategy (r.wrenchAt s.posture))
    (joint : JointAxis ℝ r.tree.size) :
    r.tree.jointTorque (r.loadsTurning s Vec3.unitZ) joint = 0 := by
  have hidle : ∀ l ∈ r.loadsTurning s Vec3.unitZ, l.force = 0 ∧ l.moment = 0 := fun l hl => by
    rcases List.mem_append.mp hl with hl | hl
    · obtain ⟨x, -, rfl⟩ := List.mem_map.mp hl
      refine ⟨?_, rfl⟩
      ext <;> simp [weightAt, Vec3.unitZ]
    · obtain ⟨j, -, rfl⟩ := List.mem_map.mp hl
      rw [vertical_thrustTurning hrows]
      constructor <;> ext <;> simp [liftAt]
  rw [Tree.jointTorque, Tree.momentBeyond_of_idle joint hidle, Vec3.dot_zero, neg_zero]

/-! ## Faces of the forces -/

variable (r s) in
/-- The rate of the distance to a face of the forces: the force that hovering requires does not turn
along with the face. -/
noncomputable def faceTurning (pair : Nat × Nat) : ℝ :=
  -(w.cross (faceNormal (List.ofFn fun j => (r.wrenchAt s.posture j).force) pair).normalize).dot
    (hoverForce s.cog.mass r.config.gravity)

theorem linear_faceTurning (pair : Nat × Nat) : Vec3.Linear fun w => r.faceTurning s w pair := by
  simp only [faceTurning, ← Vec3.dot_neg, Vec3.dot_comm _ (hoverForce _ _)]
  exact (Vec3.Linear.cross _).neg.dot _

theorem vertical_faceTurning (pair : Nat × Nat) : r.faceTurning s Vec3.unitZ pair = 0 := by
  simp [faceTurning, hoverForce, Vec3.unitZ, Vec3.dot_eq]

/-! ## All columns -/

section
variable {m : Motion} {v w : Vec3 ℝ} (hp : s.posture.Sound r.groups)
  (h : (r.velocities s).MovesRigidly m v w)
include hp h

theorem thrustRateAt_eq : r.thrustRateAt s m = r.thrustTurning s w := by
  have hrates : r.wrenchRateAt s m = fun j => (r.wrenchAt s.posture j).turning w :=
    funext (wrenchRateAt_eq hp h)
  rw [thrustRateAt, hrates, thrustTurning]

theorem excess_liftAt (j : Fin r.mounts.length) :
    Load.excess w (r.liftAt s.posture j (r.thrustAt s.posture j), r.liftRateAt s m j) =
      r.liftAt s.posture j (r.thrustTurning s w j) := by
  have hforce : (r.liftRateAt s m j).force -
      w.cross (r.liftAt s.posture j (r.thrustAt s.posture j)).force =
        (r.liftAt s.posture j (r.thrustTurning s w j)).force := by
    have haxis : (r.wrenchRateAt s m j).force = w.cross (r.rotorAt s.posture j).axis := by
      rw [wrenchRateAt_eq hp h]
      rfl
    simp only [liftRateAt, liftAt, haxis, thrustRateAt_eq hp h]
    rw [Vec3.cross_mul, add_sub_cancel_left]
  -- All of the moment is drag, in proportion to the force.
  have hmoment : (r.liftRateAt s m j).moment -
      w.cross (r.liftAt s.posture j (r.thrustAt s.posture j)).moment =
        (r.liftAt s.posture j (r.thrustTurning s w j)).moment := by
    change (r.liftRateAt s m j).force * (r.rotorAt s.posture j).drag -
      w.cross ((r.liftAt s.posture j (r.thrustAt s.posture j)).force *
        (r.rotorAt s.posture j).drag : Vec3 ℝ) =
          (r.liftAt s.posture j (r.thrustTurning s w j)).force * (r.rotorAt s.posture j).drag
    rw [Vec3.cross_mul, ← hforce]
    ext <;> simp [sub_mul]
  rw [Load.excess, hforce, hmoment]
  rfl

omit hp h in
theorem excess_weightAt (x : InertiaGroup ℝ r.tree.size × Inertia ℝ) (d : Vec3 ℝ) :
    Load.excess w (r.weightAt s.posture x, ⟨d, 0, 0⟩) =
      { r.weightAt s.posture x with force := -w.cross (r.weightAt s.posture x).force } := by
  have hmoment : (0 : Vec3 ℝ) - w.cross (r.weightAt s.posture x).moment = 0 :=
    (congrArg _ (Vec3.cross_zero w)).trans (sub_zero 0)
  rw [Load.excess, zero_sub, hmoment]
  rfl

variable [SingularValues ℝ] {setup : Setup ℝ} {q : Coordinates ℝ} (hs : r.Hovers setup q s)
  {e : ThrustEquations ℝ r.config.strategy.axes.length s.allocation.rotorCount}
include hs

theorem Hovers.jointTorque_turning (he : r.ThrustRate s e) : (r.rates s e m).jointTorque =
      s.axes.map (r.tree.jointTorque (r.loadsTurning s w)) := by
  set loads : List (Load ℝ r.tree.size × LoadRate ℝ) :=
    ((r.loadedGroups s).map fun x =>
        (r.weightAt s.posture x, ⟨(r.groupRate s m x.1 x.2).2, 0, 0⟩)) ++
      (List.finRange r.mounts.length).map fun j =>
        (r.liftAt s.posture j (r.thrustAt s.posture j), r.liftRateAt s m j) with hloads
  have hzip : (r.loadsAt s.posture (List.ofFn (r.thrustAt s.posture))).zip
      (r.loadRates s m (r.wrenchRates s m) (List.ofFn (r.thrustRateAt s m))) = loads := by
    rw [loadsAt_eq hp, hs.loadRates hp, List.ofFn_eq_map, List.ofFn_eq_map]
    refine (List.zip_append (by simp [loadedGroups, HoverState.posture])).trans ?_
    rw [List.zip_map', hloads]
    exact congrArg₂ _ List.zip_map' rfl
  have hpoint : ∀ x ∈ loads, x.2.point = v + w.cross x.1.point := fun x hx => by
    rcases List.mem_append.mp hx with hx | hx
    · obtain ⟨b, -, rfl⟩ := List.mem_map.mp hx
      exact h.point _ _
    · obtain ⟨j, -, rfl⟩ := List.mem_map.mp hx
      exact h.point _ _
  have hexcess : loads.map (Load.excess w) = r.loadsTurning s w := by
    rw [hloads, List.map_append, List.map_map, List.map_map, loadsTurning]
    exact congrArg₂ _ (List.map_congr_left fun x _ => excess_weightAt x _)
      (List.map_congr_left fun j _ => excess_liftAt hp h j)
  rw [hs.jointTorqueRates hp he, hzip]
  refine List.map_congr_left fun joint _ => ?_
  rw [jointTorqueRate_eq h hpoint, hexcess]

theorem Hovers.feasible_turning :
    (r.rates s e m).feasibleForce = s.margins.force.pairs.map (r.faceTurning s w) ∧
      (r.rates s e m).feasibleTorque = s.margins.torque.pairs.map fun _ => 0 := by
  have hcolumns : ∀ f : Wrench ℝ → Vec3 ℝ, s.allocation.columns.map f =
      List.ofFn fun j => f (r.wrenchAt s.posture j) := fun f => by
    rw [hs.columns hp, List.map_ofFn]
    rfl
  have hrates : ∀ f : Wrench ℝ → Vec3 ℝ, (∀ x : Wrench ℝ, f (x.turning w) = w.cross (f x)) →
      (r.wrenchRates s m).map f = List.ofFn fun j => w.cross (f (r.wrenchAt s.posture j)) :=
    fun f hf => by
      rw [hs.wrenchRates hp, List.map_ofFn]
      refine congrArg List.ofFn (funext fun j => ?_)
      rw [Function.comp_apply, wrenchRateAt_eq hp h, hf]
  constructor
  · change s.margins.force.pairs.map (r.range.faceRate (s.allocation.columns.map (·.force))
      ((r.wrenchRates s m).map (·.force)) (hoverForce s.cog.mass r.config.gravity)) = _
    rw [hcolumns, hrates _ fun _ => rfl]
    exact List.map_congr_left fun pair _ => ThrustRange.faceRate_turned _ _ _ _ _
  · change s.margins.torque.pairs.map (r.range.faceRate (s.allocation.columns.map (·.torque))
      ((r.wrenchRates s m).map (·.torque)) 0) = _
    rw [hcolumns, hrates _ fun _ => rfl]
    refine List.map_congr_left fun pair _ => ?_
    rw [ThrustRange.faceRate_turned, Vec3.dot_zero, neg_zero]

omit h in
/-- What the differences take for granted is what the rules of differentiation give. -/
theorem Hovers.rates_shift (he : r.ThrustRate s e) (k : Fin 3) :
    r.rates s e (.shift k) = r.shiftRates s k := by
  have hrigid : (r.velocities s).MovesRigidly (.shift k) (s.cog.level.toMatrix.col k) 0 :=
    VelocityField.rigid_shift k
  obtain ⟨hforce, htorque⟩ := hs.feasible_turning hp hrigid (e := e)
  refine Rates.ext ?_ ?_ ?_ ?_ ?_ htorque
  · have hcog := cogRate_eq hp hrigid
    rwa [Vec3.zero_cross, add_zero] at hcog
  · refine (momentumRate_rigid hp hrigid).trans ?_
    ext <;> simp [Mat3.apply_eq, shiftRates]
  · rw [hs.thrustRates hp he, thrustRateAt_eq hp hrigid, shiftRates, hs.rotors_eq hp, List.map_ofFn]
    exact congrArg List.ofFn (funext fun j => (linear_thrustTurning s j).zero)
  · rw [hs.jointTorque_turning hp hrigid he]
    exact List.map_congr_left fun joint _ => (linear_loadsTurning joint).zero
  · rw [hforce]
    exact List.map_congr_left fun pair _ => (linear_faceTurning pair).zero

end

/-- The motions of the root change what they can change: a shift only the centre of gravity, a turn
no distance of the torques, and a turn about the vertical no thrust, no joint torque and no distance
of the forces. -/
structure RootColumns (r : Robot ℝ) (s : HoverState ℝ r.tree.size) (sens : Sensitivity ℝ) :
    Prop where
  shift_cog : ∀ k, sens.cog.columns[(Motion.shift k).column]? =
    some (s.cog.level.toMatrix.col k).toList
  shift : ∀ quantity, quantity ≠ .cog → ∀ k, (sens.get quantity).Still (.shift k)
  turn_torque : ∀ k, sens.feasibleTorque.Still (.turn k)
  vertical : ∀ quantity ∈ [Quantity.staticThrust, .jointTorque, .feasibleForce],
    (sens.get quantity).Cancels s.cog.level.toMatrix.row₂

theorem analytic_rootColumns [SingularValues ℝ] {setup : Setup ℝ} {q : Coordinates ℝ}
    (hr : r.Assembled) (ha : r.Admits setup) (h : r.solve setup q = .ok s) :
    ∃ sens, r.analytic s = .ok sens ∧ r.RootColumns s sens := by
  have hs := hovers_of_solve h
  have hp := hr.sound ha hs.posture
  obtain ⟨e, -, hsens, he⟩ := analytic_isOk hs
  obtain ⟨hrows, -⟩ := hs.thrust_eq hp
  have hshift := fun (k : Fin 3) (f : Rates ℝ → List ℝ) =>
    (Tree.getElem?_columns (r.tree.shift_mem_motions k) (r.rates s e) f).trans
      (congrArg (fun x => some (f x)) (hs.rates_shift hp he k))
  have hturn := fun (k : Fin 3) (f : Rates ℝ → List ℝ) =>
    Tree.getElem?_columns (r.tree.turn_mem_motions k) (r.rates s e) f
  have hrigid : ∀ k, (r.velocities s).MovesRigidly (.turn k) 0 (s.cog.level.toMatrix.col k) :=
    VelocityField.rigid_turn
  have horthogonal := hp.level.orthogonal
  refine ⟨_, hsens, fun k => hshift k (·.cog.toList), fun quantity hne k => ?_, fun k => ?_,
    fun quantity hq => ?_⟩
  · cases quantity with
    | cog => exact absurd rfl hne
    | momentum => exact hshift k (·.momentum.toList)
    | staticThrust => exact Jacobian.still_of_map rfl (hshift k (·.staticThrust))
    | jointTorque => exact Jacobian.still_of_map rfl (hshift k (·.jointTorque))
    | feasibleForce => exact Jacobian.still_of_map rfl (hshift k (·.feasibleForce))
    | feasibleTorque => exact Jacobian.still_of_map rfl (hshift k (·.feasibleTorque))
  · exact Jacobian.still_of_map rfl ((hturn k (·.feasibleTorque)).trans
      (congrArg some (hs.feasible_turning hp (hrigid k)).2))
  · simp only [List.mem_cons, List.not_mem_nil, or_false] at hq
    rcases hq with rfl | rfl | rfl
    · have hcount : s.rotors.length = (List.finRange r.mounts.length).length := by
        rw [hs.rotors_eq hp, List.length_ofFn, List.length_finRange]
      refine Jacobian.cancels_of_linear hcount horthogonal (fun k => ?_) (linear_thrustTurning s)
        fun j => congrFun (vertical_thrustTurning hrows) j
      rw [← List.ofFn_eq_map, ← thrustRateAt_eq hp (hrigid k), ← hs.thrustRates hp he]
      exact hturn k (·.staticThrust)
    · exact Jacobian.cancels_of_linear rfl horthogonal (fun k => (hturn k (·.jointTorque)).trans
        (congrArg some (hs.jointTorque_turning hp (hrigid k) he))) linear_loadsTurning
        (vertical_loadsTurning hrows)
    · exact Jacobian.cancels_of_linear rfl horthogonal (fun k => (hturn k (·.feasibleForce)).trans
        (congrArg some (hs.feasible_turning hp (hrigid k)).1)) linear_faceTurning
        vertical_faceTurning

theorem analytic_rootColumns_hexarotor :
    ∃ s, @solve ℝ _ hexarotorValues hexarotor bare ⟨[0]⟩ = .ok s ∧
      ∃ sens, @analytic ℝ _ hexarotor s hexarotorValues = .ok sens ∧
        hexarotor.RootColumns s sens := by
  obtain ⟨s, hs⟩ := solve_hexarotor
  exact ⟨s, hs,
    @analytic_rootColumns _ _ hexarotorValues _ _ assembled_hexarotor (admits_bare _) hs⟩

end Robot

end Multirotor
