/-!
# Scalars

A robot is computed with numbers of one type `α`. `Scalar α` lists what the
computation asks of them and nothing about their laws, so the same
definitions run on floats and can be read over the reals.
-/

namespace Multirotor

/-- The numbers of a model: arithmetic, order, and the functions of a rotation. -/
class Scalar (α : Type) extends Zero α, One α, Add α, Sub α, Mul α, Neg α, Div α, NatCast α,
    OfScientific α, LT α, LE α, BEq α where
  decidableLT : DecidableLT α
  decidableLE : DecidableLE α
  sqrt : α → α
  sin : α → α
  cos : α → α
  exp : α → α
  abs : α → α
  /-- Neither infinite nor undefined. -/
  isFinite : α → Bool
  /-- Stands for a quantity without bound, such as the least of no numbers. -/
  unbounded : α

attribute [reducible, instance] Scalar.decidableLT Scalar.decidableLE

instance : Scalar Float where
  zero := 0.0
  one := 1.0
  natCast := Float.ofNat
  decidableLT := inferInstance
  decidableLE := inferInstance
  sqrt := Float.sqrt
  sin := Float.sin
  cos := Float.cos
  exp := Float.exp
  abs := Float.abs
  isFinite := Float.isFinite
  unbounded := 1.0 / 0.0

namespace Scalar

variable {α : Type} [Scalar α]

/-- The undefined result of an operation is the one value that differs from itself. -/
def isUndefined (x : α) : Bool := !(x == x)

/-- The larger of two numbers; an undefined one gives way to the other. -/
def larger (x y : α) : α :=
  if y < x ∨ isUndefined y then x else y

def smaller (x y : α) : α :=
  if x < y ∨ isUndefined y then x else y

/-- The least of the numbers that are defined, without bound if there is none. -/
def least (xs : List α) : α :=
  match xs.filter fun x => !isUndefined x with
  | [] => unbounded
  | x :: rest => rest.foldl smaller x

def sum (xs : List α) : α := xs.foldl (· + ·) 0

end Scalar

end Multirotor
