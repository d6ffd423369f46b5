import Multirotor.Placement

/-!
# Loads on joints

Forces and moments that act on segments, and the torque with which each
joint motor holds those that act beyond its joint. All are given in the
level frame: the root's origin and the axes at the centre of gravity.
-/

namespace Multirotor

structure JointAxis (α : Type) (n : Nat) where
  coordinate : Nat
  segment : Fin n
  axis : Vec3 α
  origin : Vec3 α

structure Load (α : Type) (n : Nat) where
  segment : Fin n
  point : Vec3 α
  force : Vec3 α
  moment : Vec3 α

namespace Load

variable {α : Type} [Scalar α] {n : Nat}

def momentAbout (l : Load α n) (origin : Vec3 α) : Vec3 α :=
  (l.point - origin).cross l.force + l.moment

end Load

namespace Tree

variable {α : Type} [Scalar α] (t : Tree α)

def jointAxes (frames : Placement α t.size) (level : Quat α) : List (JointAxis α t.size) :=
  t.joints.zipIdx.filterMap fun (segment, coordinate) =>
    match (t.segment segment).joint.kind with
    | .revolute axis => some {
        coordinate, segment
        axis := level.rotate ((frames.get segment).rotation.rotate axis)
        origin := level.rotate (frames.get segment).origin }
    | _ => none

def moves (c : Nat) (i : Fin t.size) : Bool := (t.segment i).jointPath.contains c

def momentBeyond (joint : JointAxis α t.size) (loads : List (Load α t.size)) : Vec3 α :=
  Vec3.sum ((loads.filter fun l => t.moves joint.coordinate l.segment).map
    fun l => l.momentAbout joint.origin)

def jointTorque (loads : List (Load α t.size)) (joint : JointAxis α t.size) : α :=
  -joint.axis.dot (t.momentBeyond joint loads)

end Tree

end Multirotor
