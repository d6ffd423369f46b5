import Multirotor.Error
import Multirotor.Rotation
import Multirotor.Wrench

/-!
# Configuration

The fixed settings of a model and the conditions they have to meet. The
conditions are tested in a fixed order and the first one broken is the
error.
-/

namespace Multirotor

structure DifferenceConfig (α : Type) where
  /-- Step of a finite difference, in radians. -/
  perturbation : α
  tolerance : α

structure Config (α : Type) where
  /-- Segment whose attitude defines the axes at the centre of gravity. -/
  baselink : String
  /-- Rotor number `i` is the segment of this name followed by `i`. -/
  thrustLink : String
  /-- Expected number of rotors; by default those in the tree are counted. -/
  rotorCount : Option Nat
  /-- Directions of rotation; by default each is read off the axis of the rotor's joint. -/
  rotorDirections : Option (List α)
  strategy : Strategy
  /-- Drag torque of a rotor per thrust. -/
  dragRatio : α
  /-- Acceleration of gravity, along `-z`. -/
  gravity : α
  thrustMin : α
  thrustMax : α
  forceThreshold : α
  torqueThreshold : α
  sharpness : α
  desiredOrientation : Quat α
  conditionLimit : α
  difference : DifferenceConfig α

namespace DifferenceConfig

variable {α : Type} [Scalar α]

def standard : DifferenceConfig α := ⟨1e-5, 1e-3⟩

def validate (c : DifferenceConfig α) : Except (ConfigError α) Unit := do
  unless Scalar.isFinite c.perturbation ∧ 0 < c.perturbation do throw (.notPositive .perturbation)
  unless Scalar.isFinite c.tolerance ∧ 0 < c.tolerance do throw (.notPositive .tolerance)

end DifferenceConfig

namespace Config

variable {α : Type} [Scalar α]

def standard : Config α where
  baselink := "fc"
  thrustLink := "thrust"
  rotorCount := none
  rotorDirections := none
  strategy := .underActuated
  dragRatio := 0.016
  gravity := 9.80665
  thrustMin := 0
  thrustMax := 10.0
  forceThreshold := 0
  torqueThreshold := 0
  sharpness := 10.0
  desiredOrientation := Quat.identity
  conditionLimit := 1e8
  difference := .standard

/-- The numbers that have to be finite, in the order in which they are tested. -/
def scalars (c : Config α) : List (Setting × α) :=
  [(.thrustMin, c.thrustMin), (.thrustMax, c.thrustMax), (.gravity, c.gravity),
    (.dragRatio, c.dragRatio), (.forceThreshold, c.forceThreshold),
    (.torqueThreshold, c.torqueThreshold), (.sharpness, c.sharpness),
    (.conditionLimit, c.conditionLimit)]

def orientation (c : Config α) : Except (ConfigError α) (Quat α) :=
  if c.desiredOrientation.isUnit then .ok c.desiredOrientation.normalize
  else .error .orientationNotUnit

/-- Every direction of rotation is `+1` or `-1`, and there are as many as rotors are expected. -/
def validateDirections (c : Config α) : Except (ConfigError α) Unit :=
  match c.rotorDirections with
  | none => .ok ()
  | some directions => do
    if directions.any fun d => !(d == 1) && !(d == -1) then throw .badDirection
    match c.rotorCount with
    | some n => unless directions.length = n do throw (.directionCount n directions.length)
    | none => pure ()

def validate (c : Config α) : Except (ConfigError α) Unit := do
  if let some (s, _) := c.scalars.find? fun (_, x) => !Scalar.isFinite x then throw (.notFinite s)
  if c.thrustMin < 0 then throw (.negative .thrustMin)
  if c.thrustMax ≤ c.thrustMin then throw (.emptyThrustRange c.thrustMin)
  if c.gravity ≤ 0 then throw (.notPositive .gravity)
  if c.dragRatio < 0 then throw (.negative .dragRatio)
  if c.sharpness ≤ 0 then throw (.notPositive .sharpness)
  if c.conditionLimit ≤ 1 then throw .conditionLimitTooLow
  c.validateDirections
  let _ ← c.orientation
  c.difference.validate

end Config

end Multirotor
