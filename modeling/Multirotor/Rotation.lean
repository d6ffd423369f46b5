import Multirotor.Mat3

/-!
# Rotations

Rotations as unit quaternions `w + x i + y j + z k`. Nothing in the type
says that the norm is one: what a user hands in is tested (`isUnit`) and
normalised once, and products of unit quaternions stay unit.
-/

namespace Multirotor

structure Quat (α : Type) where
  w : α
  x : α
  y : α
  z : α

namespace Quat

variable {α : Type} [Scalar α]

def identity : Quat α := ⟨1, 0, 0, 0⟩

def vector (q : Quat α) : Vec3 α := ⟨q.x, q.y, q.z⟩

/-- The reverse rotation of a unit quaternion. -/
def inverse (q : Quat α) : Quat α := ⟨q.w, -q.x, -q.y, -q.z⟩

instance : Mul (Quat α) := ⟨fun a b =>
  ⟨a.w * b.w - a.x * b.x - a.y * b.y - a.z * b.z,
    a.w * b.x + a.x * b.w + a.y * b.z - a.z * b.y,
    a.w * b.y - a.x * b.z + a.y * b.w + a.z * b.x,
    a.w * b.z + a.x * b.y - a.y * b.x + a.z * b.w⟩⟩

def normSq (q : Quat α) : α := q.x * q.x + q.y * q.y + q.z * q.z + q.w * q.w

/-- The quaternion over its norm, whatever the norm is. -/
def normalize (q : Quat α) : Quat α :=
  let n := Scalar.sqrt q.normSq
  ⟨q.w / n, q.x / n, q.y / n, q.z / n⟩

def unitTolerance : α := 1e-6

/-- Whether a quaternion is close enough to a rotation; never so with an undefined component. -/
def isUnit (q : Quat α) : Bool := decide (Scalar.abs (1 - q.normSq) ≤ (unitTolerance : α))

/-- The rotated vector `v + 2 w (u × v) + 2 u × (u × v)`, where `u` is the part in space. -/
def rotate (q : Quat α) (v : Vec3 α) : Vec3 α :=
  let t : Vec3 α := q.vector.cross v * (2.0 : α)
  t * q.w + q.vector.cross t + v

def toMatrix (q : Quat α) : Mat3 α :=
  let ww := q.w * q.w
  let xx := q.x * q.x
  let yy := q.y * q.y
  let zz := q.z * q.z
  let xy := q.x * q.y * 2.0
  let wz := q.w * q.z * 2.0
  let wy := q.w * q.y * 2.0
  let xz := q.x * q.z * 2.0
  let yz := q.y * q.z * 2.0
  let wx := q.w * q.x * 2.0
  ⟨⟨ww + xx - yy - zz, xy - wz, wy + xz⟩, ⟨wz + xy, ww - xx + yy - zz, yz - wx⟩,
    ⟨xz - wy, wx + yz, ww - xx - yy + zz⟩⟩

def ofAxisAngle (axis : Vec3 α) (angle : α) : Quat α :=
  let half := angle / 2.0
  let s := Scalar.sin half
  ⟨Scalar.cos half, axis.x * s, axis.y * s, axis.z * s⟩

/-- The turn about x by `roll`, then about the fixed y by `pitch`, then about the fixed z by `yaw`. -/
def ofRollPitchYaw (roll pitch yaw : α) : Quat α :=
  let sr := Scalar.sin (roll * 0.5)
  let cr := Scalar.cos (roll * 0.5)
  let sp := Scalar.sin (pitch * 0.5)
  let cp := Scalar.cos (pitch * 0.5)
  let sy := Scalar.sin (yaw * 0.5)
  let cy := Scalar.cos (yaw * 0.5)
  ⟨cr * cp * cy + sr * sp * sy, sr * cp * cy - cr * sp * sy,
    cr * sp * cy + sr * cp * sy, cr * cp * sy - sr * sp * cy⟩

end Quat

end Multirotor
