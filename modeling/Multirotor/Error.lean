import Multirotor.Decimal
import Multirotor.Scalar

/-!
# What can go wrong

Every failure is a cause with the facts that belong to it. The wording of a
cause stands in one `message` function per type.
-/

namespace Multirotor

inductive Setting where
  | thrustMin
  | thrustMax
  | gravity
  | dragRatio
  | forceThreshold
  | torqueThreshold
  | sharpness
  | conditionLimit
  | rotorDirections
  | desiredOrientation
  | perturbation
  | tolerance
deriving DecidableEq

def Setting.name : Setting → String
  | thrustMin => "thrust_min"
  | thrustMax => "thrust_max"
  | gravity => "gravity"
  | dragRatio => "m_f_rate"
  | forceThreshold => "force_margin_threshold"
  | torqueThreshold => "torque_margin_threshold"
  | sharpness => "feasibility_epsilon"
  | conditionLimit => "condition_limit"
  | rotorDirections => "rotor_directions"
  | desiredOrientation => "cog_desire_orientation"
  | perturbation => "jacobian.perturbation"
  | tolerance => "jacobian.tolerance"

inductive ConfigError (α : Type) where
  | notFinite (setting : Setting)
  | negative (setting : Setting)
  | notPositive (setting : Setting)
  | emptyThrustRange (thrustMin : α)
  /-- No matrix has a condition number below one. -/
  | conditionLimitTooLow
  /-- A direction of rotation other than `+1` and `-1`. -/
  | badDirection
  | directionCount (expected given : Nat)
  | orientationNotUnit

namespace ConfigError

variable {α : Type}

def setting : ConfigError α → Setting
  | notFinite s | negative s | notPositive s => s
  | emptyThrustRange _ => .thrustMax
  | conditionLimitTooLow => .conditionLimit
  | badDirection | directionCount _ _ => .rotorDirections
  | orientationNotUnit => .desiredOrientation

def reason : ConfigError Float → String
  | notFinite _ => "must be finite"
  | negative _ => "must be >= 0"
  | notPositive _ => "must be > 0"
  | emptyThrustRange thrustMin => s!"must be > thrust_min ({Decimal.text thrustMin})"
  | conditionLimitTooLow => "must be > 1"
  | badDirection => "entries must be +1 or -1"
  | directionCount expected given => s!"expected {expected} entries, got {given}"
  | orientationNotUnit => "must be a unit quaternion"

def message (e : ConfigError Float) : String := s!"invalid value for {e.setting.name}: {e.reason}"

end ConfigError

inductive TreeError (α : Type) where
  | empty
  | duplicate (segment : String)
  | noRoot
  | manyRoots (first second : String)
  | unreachable
  | zeroAxis (joint : String)
  /-- The root is not in exactly one inertia group. -/
  | rootGroups (count : Nat)
  | totalMass (mass : α)
  | centreNotFinite

namespace TreeError

def message : TreeError Float → String
  | empty => "no segments"
  | duplicate segment => s!"duplicate segment {segment}"
  | noRoot => "no root segment"
  | manyRoots first second => s!"multiple root segments: {first} and {second}"
  | unreachable => "segments unreachable from the root (cycle?)"
  | zeroAxis joint => s!"joint {joint} has a zero axis"
  | rootGroups count => s!"expected one root inertia group, found {count}"
  | totalMass mass => s!"total mass {Decimal.text mass} is not positive and finite"
  | centreNotFinite => "centre of gravity is not finite"

end TreeError

inductive ModelError (α : Type) where
  | unknownSegment (name : String)
  | rotorNotFound (name : String)
  | tree (cause : TreeError α)
  | unsupportedJoint (joint kind : String)
  /-- The rotors do not determine the thrust that balances the controlled axes. -/
  | underconstrained (rank required : Nat) (condition : α)
  | dimensionMismatch (expected given : Nat)
  | notFiniteCoordinate (joint : String) (value : α)
  | config (cause : ConfigError α)

namespace ModelError

def message : ModelError Float → String
  | unknownSegment name => s!"unknown segment: {name}"
  | rotorNotFound name => s!"rotor segment {name} not found in the segment tree"
  | tree cause => s!"invalid segment tree: {cause.message}"
  | unsupportedJoint joint kind => s!"joint {joint} has unsupported type {kind}"
  | underconstrained rank required condition =>
    s!"allocation is under-constrained: rank {rank} < {required} (condition number {Decimal.text condition})"
  | dimensionMismatch expected given => s!"dimension mismatch: expected {expected}, got {given}"
  | notFiniteCoordinate joint value => s!"joint {joint} value {Decimal.text value} is not finite"
  | config cause => s!"configuration error: {cause.message}"

end ModelError

inductive ModuleError (α : Type) where
  | duplicate (name : String)
  /-- The parent is not the base of an inertia group. -/
  | unknownParent (parent : String)
  | badMass (mass : α)
  | notFinite (name : String)
  | orientationNotUnit (normSq : α)
  | notFound (name : String)

namespace ModuleError

def message : ModuleError Float → String
  | duplicate name => s!"extra module {name} already exists"
  | unknownParent parent => s!"parent segment {parent} is not an inertia base link"
  | badMass mass => s!"extra module mass {Decimal.text mass} must be positive and finite"
  | notFinite name => s!"extra module {name} has a non-finite offset or inertia"
  | orientationNotUnit normSq =>
    s!"extra module orientation is not a unit quaternion (|q|^2 = {Decimal.text normSq})"
  | notFound name => s!"extra module {name} does not exist"

end ModuleError

end Multirotor
