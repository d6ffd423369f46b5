import Multirotor.Vec3

/-!
# Wrenches

A force and a torque at one point, read as six numbers: the force along x,
y, z, then the torque about x, y, z. A strategy says which of the six the
rotors are asked to balance.
-/

namespace Multirotor

structure Wrench (α : Type) where
  force : Vec3 α
  torque : Vec3 α

namespace Wrench

variable {α : Type} [Scalar α]

instance : Zero (Wrench α) := ⟨⟨0, 0⟩⟩
instance : Add (Wrench α) := ⟨fun a b => ⟨a.force + b.force, a.torque + b.torque⟩⟩
instance : HMul (Wrench α) α (Wrench α) := ⟨fun a s => ⟨a.force * s, a.torque * s⟩⟩

def get (w : Wrench α) : Fin 6 → α
  | 0 => w.force.x
  | 1 => w.force.y
  | 2 => w.force.z
  | 3 => w.torque.x
  | 4 => w.torque.y
  | 5 => w.torque.z

def ofFn (f : Fin 6 → α) : Wrench α := ⟨⟨f 0, f 1, f 2⟩, ⟨f 3, f 4, f 5⟩⟩

/-- Gravity on a body at its centre of gravity, with z pointing up. -/
def gravity (mass acceleration : α) : Wrench α := ⟨⟨0, 0, -mass * acceleration⟩, 0⟩

end Wrench

inductive Strategy where
  /-- The force along z and the three torques. -/
  | underActuated
  | fullyActuated
deriving DecidableEq

namespace Strategy

def axes : Strategy → List (Fin 6)
  | underActuated => [2, 3, 4, 5]
  | fullyActuated => [0, 1, 2, 3, 4, 5]

end Strategy

end Multirotor
