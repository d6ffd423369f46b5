import Multirotor.Coordinates

/-!
# Placement

Where every segment is, seen from the root, for given joint angles.
-/

namespace Multirotor

/-- The frame of every segment in the root's frame. -/
abbrev Placement (α : Type) (n : Nat) := Vector (Frame α) n

namespace Tree

variable {α : Type} [Scalar α] (t : Tree α)

def jointMotion (q : Coordinates α) (i : Fin t.size) : Frame α :=
  match (t.segment i).joint.kind with
  | .revolute axis => .ofRotation (.ofAxisAngle axis ((t.segment i).coordinate?.elim 0 q.get))
  | _ => .identity

def placeOne (q : Coordinates α) (frames : Placement α t.size) (i : Fin t.size) :
    Placement α t.size :=
  match (t.segment i).parent with
  | some p => Ancestry.assign frames i ((frames.get p) * (t.segment i).offset * t.jointMotion q i)
  | none => frames

/-- The frames of all segments, parents before children; the root is at the identity. -/
def place (q : Coordinates α) : Except (ModelError α) (Placement α t.size) :=
  if q.values.length = t.jointCount then
    .ok (t.order.foldl (t.placeOne q) (Vector.replicate t.size .identity))
  else .error (.dimensionMismatch t.jointCount q.values.length)

end Tree

end Multirotor
