import Multirotor.Scalar

/-!
# Vectors in space

Vectors with three components, their sums, products and lengths, each
operation written out component by component.
-/

namespace Multirotor

structure Vec3 (α : Type) where
  x : α
  y : α
  z : α

namespace Vec3

variable {α : Type} [Scalar α]

def zero : Vec3 α := ⟨0, 0, 0⟩

instance : Zero (Vec3 α) := ⟨zero⟩
instance : Add (Vec3 α) := ⟨fun a b => ⟨a.x + b.x, a.y + b.y, a.z + b.z⟩⟩
instance : Sub (Vec3 α) := ⟨fun a b => ⟨a.x - b.x, a.y - b.y, a.z - b.z⟩⟩
instance : Neg (Vec3 α) := ⟨fun a => ⟨-a.x, -a.y, -a.z⟩⟩
instance : HMul (Vec3 α) α (Vec3 α) := ⟨fun a s => ⟨a.x * s, a.y * s, a.z * s⟩⟩
instance : HDiv (Vec3 α) α (Vec3 α) := ⟨fun a s => ⟨a.x / s, a.y / s, a.z / s⟩⟩

def unitX : Vec3 α := ⟨1, 0, 0⟩
def unitY : Vec3 α := ⟨0, 1, 0⟩
def unitZ : Vec3 α := ⟨0, 0, 1⟩

def unit : Fin 3 → Vec3 α
  | 0 => unitX
  | 1 => unitY
  | 2 => unitZ

def get (a : Vec3 α) : Fin 3 → α
  | 0 => a.x
  | 1 => a.y
  | 2 => a.z

def toList (a : Vec3 α) : List α := [a.x, a.y, a.z]

def dot (a b : Vec3 α) : α := a.x * b.x + a.y * b.y + a.z * b.z

def cross (a b : Vec3 α) : Vec3 α :=
  ⟨a.y * b.z - a.z * b.y, a.z * b.x - a.x * b.z, a.x * b.y - a.y * b.x⟩

def normSq (a : Vec3 α) : α := a.dot a

def norm (a : Vec3 α) : α := Scalar.sqrt a.normSq

/-- The vector over its length, whatever the length is. -/
def normalize (a : Vec3 α) : Vec3 α := a / a.norm

/-- The direction of a vector; a vector of length zero has none and gives zero. -/
def direction (a : Vec3 α) : Vec3 α :=
  let n := a.norm
  if n ≤ 0 then 0 else a / n

/-- The direction of a vector whose length exceeds `bound`. -/
def direction? (a : Vec3 α) (bound : α) : Option (Vec3 α) :=
  if bound * bound < a.normSq then some (a / Scalar.sqrt a.normSq) else none

def isFinite (a : Vec3 α) : Bool :=
  Scalar.isFinite a.x && Scalar.isFinite a.y && Scalar.isFinite a.z

def sum (vs : List (Vec3 α)) : Vec3 α := vs.foldl (· + ·) 0

end Vec3

end Multirotor
