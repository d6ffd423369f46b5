import Multirotor.Inertia

/-!
# Segments

A robot is given as a list of segments, each with the joint that attaches it
to its parent. A fixed, floating or rotor joint does not move in the model;
a revolute joint is one coordinate of it.
-/

namespace Multirotor

inductive JointKind (α : Type) where
  | fixed
  | floating
  | revolute (axis : Vec3 α)
  /-- Carries a rotor about a unit axis; its turning is not modelled. -/
  | rotor (axis : Vec3 α)

namespace JointKind

variable {α : Type}

def isRevolute : JointKind α → Bool
  | revolute _ => true
  | _ => false

def isRotor : JointKind α → Bool
  | rotor _ => true
  | _ => false

end JointKind

structure Joint (α : Type) where
  name : String
  kind : JointKind α

structure SegmentRecord (α : Type) where
  name : String
  /-- The root has no parent. -/
  parent : Option String
  /-- Joint frame in the parent's frame. -/
  offset : Frame α
  joint : Joint α
  inertia : Inertia α

end Multirotor
