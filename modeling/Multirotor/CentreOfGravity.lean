import Multirotor.ExtraModule
import Multirotor.Placement

/-!
# Centre of gravity

The whole robot as one body: the groups, with the modules they carry, each
at its current frame. The axes at the centre of gravity are those of the
base link turned back by the desired orientation.
-/

namespace Multirotor

structure CentreOfGravity (α : Type) where
  /-- Pose of the centre of gravity in the root's frame. -/
  frame : Frame α
  mass : α
  /-- Rotational inertia about the centre of gravity, in its axes. -/
  inertia : Mat3 α
  /-- Pose of the base link seen from the centre of gravity. -/
  toBaselink : Frame α

namespace CentreOfGravity

variable {α : Type} [Scalar α]

/-- Takes vectors of the root's frame into the axes at the centre of gravity. -/
def level (c : CentreOfGravity α) : Quat α := c.frame.rotation.inverse

def position (c : CentreOfGravity α) : Vec3 α := c.frame.origin

/-- The centre of gravity in the level frame, which has the root's origin. -/
def levelPosition (c : CentreOfGravity α) : Vec3 α := c.level.rotate c.position

def ofBody (body : Inertia α) (baselink : Frame α) (desired : Quat α) :
    Except (ModelError α) (CentreOfGravity α) := do
  unless Scalar.isFinite body.mass ∧ 0 < body.mass do throw (.tree (.totalMass body.mass))
  unless body.cog.isFinite do throw (.tree .centreNotFinite)
  let rotation := baselink.rotation * desired.inverse
  let frame : Frame α := ⟨body.cog, rotation⟩
  let r := rotation.toMatrix
  pure {
    frame
    mass := body.mass
    inertia := r.transpose * body.aboutCog * r
    toBaselink := frame.inverse * baselink }

end CentreOfGravity

namespace InertiaGroup

variable {α : Type} [Scalar α] {n : Nat}

def load (groups : List (InertiaGroup α n)) (loaded : List (Inertia α)) (m : ExtraModule α) :
    Except (ModelError α) (List (Inertia α)) :=
  match index? groups m.parent with
  | some g => .ok (loaded.modify g (· + m.localInertia))
  | none => .error (.unknownSegment m.parent)

def loaded (groups : List (InertiaGroup α n)) (payload : Payload α) :
    Except (ModelError α) (List (Inertia α)) :=
  payload.modules.foldlM (load groups) (groups.map (·.inertia))

def total (groups : List (InertiaGroup α n)) (loaded : List (Inertia α))
    (frames : Placement α n) : Inertia α :=
  (groups.zip loaded).foldl (fun sum (g, i) => sum + i.transformed (frames.get g.base)) 0

def aggregate (groups : List (InertiaGroup α n)) (payload : Payload α) (frames : Placement α n)
    (baselink : Fin n) (desired : Quat α) :
    Except (ModelError α) (CentreOfGravity α × List (Inertia α)) := do
  let loaded ← loaded groups payload
  let cog ← CentreOfGravity.ofBody (total groups loaded frames) (frames.get baselink) desired
  pure (cog, loaded)

end InertiaGroup

end Multirotor
