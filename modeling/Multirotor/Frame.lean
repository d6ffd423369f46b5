import Multirotor.Rotation

/-!
# Frames

A frame is the pose of one body's axes in another's: the place of the
origin and a rotation. `a * b` is the pose of `b`, given in `a`, seen from
where `a` is given.
-/

namespace Multirotor

structure Frame (α : Type) where
  origin : Vec3 α
  rotation : Quat α

namespace Frame

variable {α : Type} [Scalar α]

def identity : Frame α := ⟨0, Quat.identity⟩

instance : Mul (Frame α) :=
  ⟨fun a b => ⟨a.origin + a.rotation.rotate b.origin, a.rotation * b.rotation⟩⟩

def inverse (a : Frame α) : Frame α :=
  ⟨a.rotation.inverse.rotate (-a.origin), a.rotation.inverse⟩

/-- A point given in the frame, seen from where the frame is given. -/
def point (a : Frame α) (p : Vec3 α) : Vec3 α := a.origin + a.rotation.rotate p

def ofRotation (q : Quat α) : Frame α := ⟨0, q⟩

end Frame

end Multirotor
