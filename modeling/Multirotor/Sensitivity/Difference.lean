import Multirotor.Sensitivity.Basic

/-!
# Sensitivities by differences

The rates of a state from the states a small step before and after it. The
desired orientation is turned along with the base link, so that the axes at
the centre of gravity stay where they are while a joint moves, and turn with
the root while the root turns. It is overwritten in place for each of these
states and put back at the end, also when one of them has no solution.
-/

namespace Multirotor

/-- Work that may overwrite a setup. A failure leaves the setup as it is by then. -/
abbrev Trial (α β : Type) := ExceptT (ModelError α) (StateM (Setup α)) β

namespace Trial

variable {α β : Type}

def push (desired : Quat α) : Trial α Unit := modify fun setup => { setup with desired }

/-- Does the work and puts the desired orientation back, also after a failure. -/
def restoring (trial : Trial α β) : Trial α β := ExceptT.mk do
  let nominal ← get
  let result ← trial.run
  modify fun setup => { setup with desired := nominal.desired }
  pure result

end Trial

namespace Robot

variable {α : Type} [Scalar α] (r : Robot α) (nominal : HoverState α r.tree.size)

/-- The angular momentum per unit rate: levers and inertias of the nominal state, velocities from
the states at both ends of a `span`. -/
def momentumAcross (span : α) (before after : HoverState α r.tree.size) : Vec3 α :=
  (r.groups.zip nominal.loaded).foldl (fun sum (g, i) =>
    let place := fun s : HoverState α r.tree.size => groupPoint s.frames s.cog.level g i
    let linear := (place after - place before) * (i.mass / span)
    let attitude := fun s : HoverState α r.tree.size =>
      (s.cog.level * (s.frames.get g.base).rotation).toMatrix
    let r₀ := attitude nominal
    let spin : Mat3 α := (attitude after - attitude before) / span
    let w := spin * r₀.transpose
    let omega : Vec3 α := ⟨w.row₂.y, w.row₀.z, w.row₁.x⟩
    sum + (place nominal - nominal.cog.levelPosition).cross linear
      + (r₀ * i.aboutCog * r₀.transpose).apply omega) 0

/-- The smooth distances of a state to the faces of the nominal one. -/
def nominalFaces (s : HoverState α r.tree.size) : List α × List α :=
  (r.range.faceDistances .smooth s.allocation.forces nominal.margins.force.pairs
      (hoverForce s.cog.mass r.config.gravity),
    r.range.faceDistances .smooth s.allocation.torques nominal.margins.torque.pairs 0)

def ratesAcross (span : α) (before after : HoverState α r.tree.size) : Rates α :=
  let quotients := List.zipWith fun x y : α => (x - y) / span
  { cog := (after.cog.levelPosition - before.cog.levelPosition) / span
    momentum := r.momentumAcross nominal span before after
    staticThrust := quotients after.thrust.thrust before.thrust.thrust
    jointTorque := quotients after.jointTorque before.jointTorque
    feasibleForce := quotients (r.nominalFaces nominal after).1 (r.nominalFaces nominal before).1
    feasibleTorque := quotients (r.nominalFaces nominal after).2 (r.nominalFaces nominal before).2 }

/-- A shift of the root moves the centre of gravity and changes nothing else. -/
def shiftRates (axis : Fin 3) : Rates α where
  cog := nominal.cog.level.toMatrix.col axis
  momentum := 0
  staticThrust := nominal.rotors.map fun _ => 0
  jointTorque := nominal.axes.map fun _ => 0
  feasibleForce := nominal.margins.force.pairs.map fun _ => 0
  feasibleTorque := nominal.margins.torque.pairs.map fun _ => 0

variable [SingularValues α]

/-- The state at given joint angles, for the setup as it is by now. -/
def solveNow (q : Coordinates α) : Trial α (HoverState α r.tree.size) := do r.solve (← get) q

/-- The state after the root has turned about an axis at the centre of gravity. -/
def turned (axis : Fin 3) (step : α) : Trial α (HoverState α r.tree.size) := do
  let turn := Quat.ofAxisAngle (Vec3.unit axis) step
  Trial.push (nominal.cog.level * turn * (nominal.frames.get r.baselink).rotation)
  r.solveNow nominal.coordinates

/-- The state after a joint has turned, the axes at the centre of gravity held. -/
def bent (coordinate : Nat) (step : α) : Trial α (HoverState α r.tree.size) := do
  let q := nominal.coordinates.shifted coordinate step
  let frames ← r.tree.place q
  Trial.push (nominal.cog.level * (frames.get r.baselink).rotation)
  r.solveNow q

def differenceRates (delta : α) : Motion → Trial α (Rates α)
  | .shift axis => pure (r.shiftRates nominal axis)
  | .turn axis => do
    let after ← r.turned nominal axis delta
    let before ← r.turned nominal axis (-delta)
    pure (r.ratesAcross nominal (2.0 * delta) before after)
  | .bend coordinate => do
    let after ← r.bent nominal coordinate delta
    let before ← r.bent nominal coordinate (-delta)
    pure (r.ratesAcross nominal (2.0 * delta) before after)

def numerical : Trial α (Sensitivity α) := Trial.restoring do
  let rates ← r.tree.motions.mapM (r.differenceRates nominal r.config.difference.perturbation)
  pure (.ofRates nominal rates)

end Robot

end Multirotor
