import Multirotor.Frame

/-!
# Rigid-body inertia

The mass of a body, its centre of gravity, and its rotational inertia about
the origin of the frame it is given in. Inertias in one frame add; one given
in another frame is referred to this one first (`transformed`).
-/

namespace Multirotor

/-- Inertia of a rigid body, in the axes of a frame and about its origin. -/
structure Inertia (α : Type) where
  mass : α
  cog : Vec3 α
  aboutOrigin : Mat3 α

namespace Inertia

variable {α : Type} [Scalar α]

def zero : Inertia α := ⟨0, 0, 0⟩

instance : Zero (Inertia α) := ⟨zero⟩

/-- The parallel-axis term `m (|c|² E - c cᵀ)`. -/
def parallelAxis (mass : α) (c : Vec3 α) : Mat3 α :=
  ((Mat3.identity : Mat3 α) * c.normSq - Mat3.outer c c) * mass

/-- The body whose rotational inertia is given about its own centre of gravity. -/
def ofCog (mass : α) (cog : Vec3 α) (aboutCog : Mat3 α) : Inertia α :=
  ⟨mass, cog, aboutCog + parallelAxis mass cog⟩

def pointMass (mass : α) (position : Vec3 α) : Inertia α := ofCog mass position 0

def aboutCog (i : Inertia α) : Mat3 α := i.aboutOrigin - parallelAxis i.mass i.cog

/-- The same body seen from where `frame` is given. -/
def transformed (i : Inertia α) (frame : Frame α) : Inertia α :=
  let r := frame.rotation.toMatrix
  ofCog i.mass (frame.point i.cog) (r * i.aboutCog * r.transpose)

/-- The body whose tensor is given in an inertial frame of its own, with the centre of gravity
at the origin of that frame. -/
def ofInertialFrame (mass : α) (frame : Frame α) (tensor : Mat3 α) : Inertia α :=
  (ofCog mass 0 tensor).transformed frame

/-- The same body about the point `p`, axes kept. -/
def aboutPoint (i : Inertia α) (p : Vec3 α) : Inertia α := ofCog i.mass (i.cog - p) i.aboutCog

/-- The two bodies as one. Without mass there is no centre of gravity, and it is put at the origin. -/
def add (a b : Inertia α) : Inertia α :=
  let mass := a.mass + b.mass
  { mass
    cog := if 0 < mass then (a.cog * a.mass + b.cog * b.mass) / mass else 0
    aboutOrigin := a.aboutOrigin + b.aboutOrigin }

instance : Add (Inertia α) := ⟨add⟩

end Inertia

end Multirotor
