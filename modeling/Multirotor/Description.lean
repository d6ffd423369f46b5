import Multirotor.Text.Words
import Multirotor.Tree

/-!
# Robot descriptions

A description lists links and the joints between them. Every link becomes a
segment, attached by the first joint that has it as its child; a link that is
no joint's child is a root, with a floating joint of its own.
-/

namespace Multirotor

inductive JointMotion where
  | revolute
  | continuous
  | prismatic
  | fixed
  | floating
  | planar
  | spherical
deriving DecidableEq

namespace JointMotion

def name : JointMotion → String
  | revolute => "revolute"
  | continuous => "continuous"
  | prismatic => "prismatic"
  | fixed => "fixed"
  | floating => "floating"
  | planar => "planar"
  | spherical => "spherical"

def all : List JointMotion := [revolute, continuous, prismatic, fixed, floating, planar, spherical]

def ofName? (name : String) : Option JointMotion := all.find? fun m => m.name == name

end JointMotion

structure LinkRecord (α : Type) where
  name : String
  inertia : Inertia α

structure JointRecord (α : Type) where
  name : String
  motion : JointMotion
  parent : String
  child : String
  origin : Frame α
  axis : Vec3 α

structure Description (α : Type) where
  links : List (LinkRecord α)
  joints : List (JointRecord α)

namespace JointRecord

variable {α : Type} [Scalar α] (j : JointRecord α)

/-- Whether a joint that turns carries a rotor: its name says so. -/
def carriesRotor : Bool := Text.occurs "rotor".toList j.name.toList

/-- Axes not longer than this have no direction. -/
def leastAxis : α := 1e-12

/-- What the joint is in a tree. A joint that turns needs an axis, and one that slides or has more
than one axis is not supported. -/
def kind : Except (ModelError α) (JointKind α) :=
  match j.motion with
  | .revolute | .continuous =>
    match j.axis.direction? leastAxis with
    | none => .error (.tree (.zeroAxis j.name))
    | some axis => .ok (if j.carriesRotor then .rotor axis else .revolute axis)
  | .fixed => .ok .fixed
  | .floating => .ok .floating
  | .prismatic | .planar | .spherical => .error (.unsupportedJoint j.name j.motion.name)

end JointRecord

namespace Description

variable {α : Type} [Scalar α] (d : Description α)

/-- The joint that carries a link: the first one that has it as its child. -/
def carrier? (link : String) : Option (JointRecord α) := d.joints.find? fun j => j.child == link

def segment (link : LinkRecord α) : Except (ModelError α) (SegmentRecord α) :=
  match d.carrier? link.name with
  | some j => do
    return {
      name := link.name
      parent := some j.parent
      offset := j.origin
      joint := ⟨j.name, ← j.kind⟩
      inertia := link.inertia }
  | none =>
    .ok {
      name := link.name
      parent := none
      offset := Frame.identity
      joint := ⟨link.name ++ "_root", .floating⟩
      inertia := link.inertia }

def segments : Except (ModelError α) (List (SegmentRecord α)) := d.links.mapM d.segment

def tree : Except (ModelError α) (Tree α) := do Tree.ofRecords (← d.segments)

end Description

end Multirotor
