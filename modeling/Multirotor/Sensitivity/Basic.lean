import Multirotor.Robot

/-!
# Sensitivities

How a state changes with each way the robot can move: the root along or
about one of the three axes at the centre of gravity, or one joint. All
rates are in the level frame, and a Jacobian has one column per motion.
-/

namespace Multirotor

inductive Motion where
  /-- The root moves along an axis at the centre of gravity. -/
  | shift (axis : Fin 3)
  /-- The root turns about an axis at the centre of gravity. -/
  | turn (axis : Fin 3)
  | bend (coordinate : Nat)
deriving DecidableEq

/-- The motions of a tree, in the order of the columns of a Jacobian. -/
def Tree.motions {α : Type} (t : Tree α) : List Motion :=
  (List.finRange 3).map .shift ++ (List.finRange 3).map .turn ++
    (List.range t.jointCount).map .bend

structure Rates (α : Type) where
  cog : Vec3 α
  /-- Angular momentum about the centre of gravity. -/
  momentum : Vec3 α
  staticThrust : List α
  jointTorque : List α
  /-- Smooth distances to the faces of the achievable forces. -/
  feasibleForce : List α
  feasibleTorque : List α

/-- A matrix by its columns, one per motion. -/
structure Jacobian (α : Type) where
  rows : Nat
  columns : List (List α)

structure Sensitivity (α : Type) where
  cog : Jacobian α
  momentum : Jacobian α
  staticThrust : Jacobian α
  jointTorque : Jacobian α
  feasibleForce : Jacobian α
  feasibleTorque : Jacobian α

inductive Quantity where
  | cog
  | momentum
  | staticThrust
  | jointTorque
  | feasibleForce
  | feasibleTorque
deriving DecidableEq

namespace Quantity

def all : List Quantity :=
  [cog, momentum, staticThrust, jointTorque, feasibleForce, feasibleTorque]

def name : Quantity → String
  | cog => "cog"
  | momentum => "momentum"
  | staticThrust => "static_thrust"
  | jointTorque => "joint_torque"
  | feasibleForce => "feasible_force"
  | feasibleTorque => "feasible_torque"

end Quantity

namespace Sensitivity

variable {α : Type}

def get (s : Sensitivity α) : Quantity → Jacobian α
  | .cog => s.cog
  | .momentum => s.momentum
  | .staticThrust => s.staticThrust
  | .jointTorque => s.jointTorque
  | .feasibleForce => s.feasibleForce
  | .feasibleTorque => s.feasibleTorque

def dimension (s : Sensitivity α) : Nat := s.cog.columns.length

def ofRates {n : Nat} (state : HoverState α n) (rates : List (Rates α)) : Sensitivity α where
  cog := ⟨3, rates.map (·.cog.toList)⟩
  momentum := ⟨3, rates.map (·.momentum.toList)⟩
  staticThrust := ⟨state.rotors.length, rates.map (·.staticThrust)⟩
  jointTorque := ⟨state.axes.length, rates.map (·.jointTorque)⟩
  feasibleForce := ⟨state.margins.force.pairs.length, rates.map (·.feasibleForce)⟩
  feasibleTorque := ⟨state.margins.torque.pairs.length, rates.map (·.feasibleTorque)⟩

end Sensitivity

end Multirotor
