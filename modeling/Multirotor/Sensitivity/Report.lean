import Multirotor.Sensitivity.Analytic
import Multirotor.Sensitivity.Difference

/-!
# Comparing sensitivities

Two sets of Jacobians agree in a quantity if its matrices have one shape and
differ nowhere by the tolerance or more.
-/

namespace Multirotor

structure QuantityReport (α : Type) where
  quantity : Quantity
  /-- Without bound if the shapes differ. -/
  maxDifference : α
  passed : Bool

structure Report (α : Type) where
  tolerance : α
  quantities : List (QuantityReport α)

namespace Report

variable {α : Type}

def passed (r : Report α) : Bool := r.quantities.all (·.passed)

def get? (r : Report α) (q : Quantity) : Option (QuantityReport α) :=
  r.quantities.find? fun report => report.quantity == q

end Report

namespace Jacobian

variable {α : Type} [Scalar α]

def sameShape (a b : Jacobian α) : Bool :=
  a.rows == b.rows && a.columns.length == b.columns.length

def maxDifference (a b : Jacobian α) : α :=
  if a.sameShape b then
    (a.columns.flatten.zipWith (fun x y => Scalar.abs (x - y)) b.columns.flatten).foldl
      Scalar.larger 0
  else Scalar.unbounded

end Jacobian

namespace Sensitivity

variable {α : Type} [Scalar α]

def compareQuantity (tolerance : α) (a b : Sensitivity α) (q : Quantity) : QuantityReport α :=
  let difference := (a.get q).maxDifference (b.get q)
  ⟨q, difference, decide (difference < tolerance)⟩

def compare (tolerance : α) (a b : Sensitivity α) : Report α :=
  ⟨tolerance, Quantity.all.map (compareQuantity tolerance a b)⟩

end Sensitivity

def Robot.selfCheck {α : Type} [Scalar α] [SingularValues α] (r : Robot α)
    (nominal : HoverState α r.tree.size) : Trial α (Report α) := do
  let analytic ← r.analytic nominal
  let numerical ← r.numerical nominal
  pure (Sensitivity.compare r.config.difference.tolerance analytic numerical)

end Multirotor
