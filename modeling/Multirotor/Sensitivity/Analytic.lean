import Multirotor.Sensitivity.Basic

/-!
# Analytic sensitivities

The rates of a state by the rules of differentiation. A motion moves what is
attached to a segment like a rigid body: a joint moves the segments beyond
it about its axis, the root moves all of them. The thrusts follow from the
rate of their equations, whose right-hand side is constant.
-/

namespace Multirotor

structure VelocityField (α : Type) where
  tree : Tree α
  axes : List (JointAxis α tree.size)
  /-- Takes axes at the centre of gravity into the level frame. -/
  level : Mat3 α

namespace VelocityField

variable {α : Type} [Scalar α] (f : VelocityField α)

/-- The axis of a joint, if it moves the segment. -/
def hinge? (c : Nat) (i : Fin f.tree.size) : Option (JointAxis α f.tree.size) :=
  if f.tree.moves c i then f.axes[c]? else none

def point (m : Motion) (i : Fin f.tree.size) (x : Vec3 α) : Vec3 α :=
  match m with
  | .shift k => f.level.col k
  | .turn k => (f.level.col k).cross x
  | .bend c => match f.hinge? c i with
    | some joint => joint.axis.cross (x - joint.origin)
    | none => 0

/-- Rate of the vector `v` that is fixed in a segment. -/
def direction (m : Motion) (i : Fin f.tree.size) (v : Vec3 α) : Vec3 α :=
  match m with
  | .shift _ => 0
  | .turn k => (f.level.col k).cross v
  | .bend c => match f.hinge? c i with
    | some joint => joint.axis.cross v
    | none => 0

def angular (m : Motion) (i : Fin f.tree.size) : Vec3 α :=
  match m with
  | .shift _ => 0
  | .turn k => f.level.col k
  | .bend c => match f.hinge? c i with
    | some joint => joint.axis
    | none => 0

end VelocityField

structure ThrustEquations (α : Type) (m n : Nat) where
  matrix : Dense α m n
  /-- `qᵀ (q qᵀ)⁻¹`. -/
  pseudoInverse : Dense α n m
  /-- `(q qᵀ)⁻¹ b`. -/
  multiplier : Vector α m
  thrust : Vector α n

namespace ThrustEquations

variable {α : Type} [Scalar α] {m n : Nat}

/-- The rate of the shortest solution while the matrix changes at rate `dq`. -/
def rate (e : ThrustEquations α m n) (dq : Dense α m n) : Vector α n :=
  let shift := dq.transpose.apply e.multiplier
  Dense.sub shift
    (e.pseudoInverse.apply (Dense.add (dq.apply e.thrust) (e.matrix.apply shift)))

end ThrustEquations

structure LoadRate (α : Type) where
  point : Vec3 α
  force : Vec3 α
  moment : Vec3 α

namespace Robot

variable {α : Type} [Scalar α] (r : Robot α) (s : HoverState α r.tree.size)

def velocities : VelocityField α := ⟨r.tree, s.axes, s.cog.level.toMatrix⟩

def loadedGroups : List (InertiaGroup α r.tree.size × Inertia α) := r.groups.zip s.loaded

def groupRate (m : Motion) (g : InertiaGroup α r.tree.size) (i : Inertia α) : Vec3 α × Vec3 α :=
  let p := groupPoint s.frames s.cog.level g i
  (p, (r.velocities s).point m g.base p)

def cogRate (m : Motion) : Vec3 α :=
  Vec3.sum ((r.loadedGroups s).map fun (g, i) => (r.groupRate s m g i).2 * (i.mass / s.cog.mass))

def groupTensor (g : InertiaGroup α r.tree.size) (i : Inertia α) : Mat3 α :=
  let rotation := s.cog.level.toMatrix * (s.frames.get g.base).rotation.toMatrix
  rotation * i.aboutCog * rotation.transpose

def momentumRate (m : Motion) : Vec3 α :=
  Vec3.sum ((r.loadedGroups s).map fun (g, i) =>
    let (p, dp) := r.groupRate s m g i
    (Mat3.skew (p - s.cog.levelPosition)).apply dp * i.mass
      + (r.groupTensor s g i).apply ((r.velocities s).angular m g.base))

/-- The rate of a rotor's wrench per thrust, while the centre of gravity moves at `dcog`. -/
def wrenchRate (m : Motion) (dcog : Vec3 α) (rotor : PlacedRotor α r.tree.size) : Wrench α :=
  let x := s.cog.level.rotate (s.frames.get rotor.segment).origin
  let dp := (r.velocities s).point m rotor.segment x - dcog
  let du := (r.velocities s).direction m rotor.segment rotor.axis
  ⟨du, (-Mat3.skew rotor.axis).apply dp + (Mat3.skew rotor.origin).apply du + du * rotor.drag⟩

def loadRates (m : Motion) (wrenches : List (Wrench α)) (dthrust : List α) : List (LoadRate α) :=
  let weights := (r.loadedGroups s).map fun (g, i) => ⟨(r.groupRate s m g i).2, 0, 0⟩
  let thrusts := ((s.rotors.zip s.thrust.thrust).zip (wrenches.zip dthrust)).map
    fun ((rotor, f), (w, df)) =>
      let x := s.cog.level.rotate (s.frames.get rotor.segment).origin
      let force : Vec3 α := w.force * f + rotor.axis * df
      ⟨(r.velocities s).point m rotor.segment x, force, force * rotor.drag⟩
  weights ++ thrusts

def jointTorqueRate (m : Motion) (loads : List (Load α r.tree.size × LoadRate α))
    (joint : JointAxis α r.tree.size) : α :=
  let daxis := (r.velocities s).direction m joint.segment joint.axis
  let dorigin := (r.velocities s).point m joint.segment joint.origin
  let beyond := loads.filter fun (l, _) => r.tree.moves joint.coordinate l.segment
  let moment := Vec3.sum (beyond.map fun (l, _) => l.momentAbout joint.origin)
  let dmoment := Vec3.sum (beyond.map fun (l, d) =>
    (-Mat3.skew l.force).apply (d.point - dorigin)
      + (Mat3.skew (l.point - joint.origin)).apply d.force + d.moment)
  Neg.neg (moment.dot daxis + joint.axis.dot dmoment)

def rates {k : Nat} (e : ThrustEquations α r.config.strategy.axes.length k) (m : Motion) :
    Rates α :=
  let dcog := r.cogRate s m
  let wrenches := s.rotors.map (r.wrenchRate s m dcog)
  let dq := Dense.ofFn fun i (j : Fin k) => (wrenches.getD j 0).get (r.config.strategy.axes.get i)
  let dthrust := (e.rate dq).toList
  let loads := (s.loads r).zip (r.loadRates s m wrenches dthrust)
  let required := hoverForce s.cog.mass r.config.gravity
  { cog := dcog
    momentum := r.momentumRate s m
    staticThrust := dthrust
    jointTorque := s.axes.map (r.jointTorqueRate s m loads)
    feasibleForce := s.margins.force.pairs.map
      (r.range.faceRate s.allocation.forces (wrenches.map (·.force)) required)
    feasibleTorque := s.margins.torque.pairs.map
      (r.range.faceRate s.allocation.torques (wrenches.map (·.torque)) 0) }

def thrustEquations? :
    Option (ThrustEquations α r.config.strategy.axes.length s.allocation.rotorCount) :=
  let q := s.allocation.controlled r.config.strategy
  q.gram.inverse?.map fun inverse =>
    { matrix := q
      pseudoInverse := q.transpose.mul inverse
      multiplier := inverse.apply (Allocation.demand r.config.strategy s.gravity)
      thrust := Vector.ofFn fun j => s.thrust.thrust.getD j 0 }

def analytic [SingularValues α] : Except (ModelError α) (Sensitivity α) :=
  match r.thrustEquations? s with
  | some e => .ok (.ofRates s (r.tree.motions.map (r.rates s e)))
  | none =>
    let (rank, condition) := (s.allocation.controlled r.config.strategy).rankAndCondition
    .error (.underconstrained rank r.config.strategy.axes.length condition)

end Robot

end Multirotor
