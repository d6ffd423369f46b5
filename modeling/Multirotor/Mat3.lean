import Multirotor.Vec3

/-!
# Matrices in space

Three rows of three numbers: rotation matrices and inertia tensors.
-/

namespace Multirotor

structure Mat3 (α : Type) where
  row₀ : Vec3 α
  row₁ : Vec3 α
  row₂ : Vec3 α

namespace Mat3

variable {α : Type} [Scalar α]

def zero : Mat3 α := ⟨0, 0, 0⟩

def identity : Mat3 α := ⟨⟨1, 0, 0⟩, ⟨0, 1, 0⟩, ⟨0, 0, 1⟩⟩

instance : Zero (Mat3 α) := ⟨zero⟩
instance : Add (Mat3 α) := ⟨fun a b => ⟨a.row₀ + b.row₀, a.row₁ + b.row₁, a.row₂ + b.row₂⟩⟩
instance : Sub (Mat3 α) := ⟨fun a b => ⟨a.row₀ - b.row₀, a.row₁ - b.row₁, a.row₂ - b.row₂⟩⟩
instance : Neg (Mat3 α) := ⟨fun a => ⟨-a.row₀, -a.row₁, -a.row₂⟩⟩
instance : HMul (Mat3 α) α (Mat3 α) := ⟨fun a s => ⟨a.row₀ * s, a.row₁ * s, a.row₂ * s⟩⟩
instance : HDiv (Mat3 α) α (Mat3 α) := ⟨fun a s => ⟨a.row₀ / s, a.row₁ / s, a.row₂ / s⟩⟩

def col₀ (a : Mat3 α) : Vec3 α := ⟨a.row₀.x, a.row₁.x, a.row₂.x⟩
def col₁ (a : Mat3 α) : Vec3 α := ⟨a.row₀.y, a.row₁.y, a.row₂.y⟩
def col₂ (a : Mat3 α) : Vec3 α := ⟨a.row₀.z, a.row₁.z, a.row₂.z⟩

def col (a : Mat3 α) : Fin 3 → Vec3 α
  | 0 => a.col₀
  | 1 => a.col₁
  | 2 => a.col₂

def transpose (a : Mat3 α) : Mat3 α := ⟨a.col₀, a.col₁, a.col₂⟩

def apply (a : Mat3 α) (v : Vec3 α) : Vec3 α := ⟨a.row₀.dot v, a.row₁.dot v, a.row₂.dot v⟩

instance : Mul (Mat3 α) :=
  ⟨fun a b => (⟨a.apply b.col₀, a.apply b.col₁, a.apply b.col₂⟩ : Mat3 α).transpose⟩

/-- The product `a bᵀ` of a column and a row. -/
def outer (a b : Vec3 α) : Mat3 α :=
  ⟨⟨a.x * b.x, a.x * b.y, a.x * b.z⟩, ⟨a.y * b.x, a.y * b.y, a.y * b.z⟩,
    ⟨a.z * b.x, a.z * b.y, a.z * b.z⟩⟩

/-- The matrix of `v × ·`. -/
def skew (v : Vec3 α) : Mat3 α := ⟨⟨0, -v.z, v.y⟩, ⟨v.z, 0, -v.x⟩, ⟨-v.y, v.x, 0⟩⟩

def symmetric (xx xy xz yy yz zz : α) : Mat3 α := ⟨⟨xx, xy, xz⟩, ⟨xy, yy, yz⟩, ⟨xz, yz, zz⟩⟩

def isFinite (a : Mat3 α) : Bool := a.row₀.isFinite && a.row₁.isFinite && a.row₂.isFinite

end Mat3

end Multirotor
