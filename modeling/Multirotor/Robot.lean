import Multirotor.Load
import Multirotor.Stability

/-!
# Hovering robot

What is fixed about a robot, what a user can change between two solutions,
and the state that follows from both and the joint angles.
-/

namespace Multirotor

/-- What stays the same for the life of a robot. -/
structure Robot (α : Type) where
  tree : Tree α
  groups : List (InertiaGroup α tree.size)
  rotors : RotorLayout α tree.size
  baselink : Fin tree.size
  config : Config α

/-- What can change between two solutions, joint angles apart. -/
structure Setup (α : Type) where
  payload : Payload α
  desired : Quat α

structure HoverState (α : Type) (n : Nat) where
  coordinates : Coordinates α
  frames : Placement α n
  cog : CentreOfGravity α
  loaded : List (Inertia α)
  rotors : List (PlacedRotor α n)
  allocation : Allocation α
  gravity : Wrench α
  thrust : StaticThrust α
  axes : List (JointAxis α n)
  jointTorque : List α
  margins : HoverMargins α
  verdict : Verdict

namespace Robot

variable {α : Type} [Scalar α]

def ofConfig (tree : Tree α) (config : Config α) : Except (ModelError α) (Robot α) := do
  config.validate.mapError .config
  let baselink ← tree.require config.baselink
  let groups ← tree.groups
  let rotors ← RotorLayout.ofConfig tree config
  pure { tree, groups, rotors, baselink, config }

def initialSetup (r : Robot α) : Setup α := ⟨.empty, r.config.desiredOrientation.normalize⟩

def range (r : Robot α) : ThrustRange α := .ofConfig r.config

def criteria (r : Robot α) : StabilityCriteria α := .ofConfig r.config

def groupPoint {n : Nat} (frames : Placement α n) (level : Quat α) (g : InertiaGroup α n)
    (i : Inertia α) : Vec3 α :=
  level.rotate ((frames.get g.base).point i.cog)

/-- The loads of hovering: gravity on each group, then thrust and drag of each rotor. -/
def staticLoads (r : Robot α) (frames : Placement α r.tree.size) (level : Quat α)
    (loaded : List (Inertia α)) (rotors : List (PlacedRotor α r.tree.size)) (thrust : List α) :
    List (Load α r.tree.size) :=
  let down : Vec3 α := ⟨0, 0, -r.config.gravity⟩
  let weights := (r.groups.zip loaded).map fun (g, i) =>
    { segment := g.base, point := groupPoint frames level g i, force := down * i.mass, moment := 0 }
  let thrusts := (rotors.zip thrust).map fun (rotor, f) =>
    let force : Vec3 α := rotor.axis * f
    { segment := rotor.segment
      point := level.rotate (frames.get rotor.segment).origin
      force
      moment := force * rotor.drag }
  weights ++ thrusts

variable [SingularValues α]

def solve (r : Robot α) (setup : Setup α) (q : Coordinates α) :
    Except (ModelError α) (HoverState α r.tree.size) := do
  let frames ← r.tree.place q
  let (cog, loaded) ←
    InertiaGroup.aggregate r.groups setup.payload frames r.baselink setup.desired
  let rotors := r.rotors.extract frames cog
  let allocation := Allocation.ofRotors (rotors.map (·.toRotor))
  let gravity := Wrench.gravity cog.mass r.config.gravity
  let thrust ← allocation.staticThrust r.config.strategy r.config.conditionLimit gravity
  let margins := r.range.hoverMargins allocation cog.mass r.config.gravity
  let axes := r.tree.jointAxes frames cog.level
  let loads := r.staticLoads frames cog.level loaded rotors thrust.thrust
  pure {
    coordinates := q
    frames, cog, loaded, rotors, allocation, gravity, thrust, axes
    jointTorque := axes.map (r.tree.jointTorque loads)
    margins
    verdict := r.criteria.assess margins.force.exactMargin margins.torque.exactMargin thrust.thrust }

end Robot

def HoverState.loads {α : Type} [Scalar α] (r : Robot α) (s : HoverState α r.tree.size) :
    List (Load α r.tree.size) :=
  r.staticLoads s.frames s.cog.level s.loaded s.rotors s.thrust.thrust

end Multirotor
