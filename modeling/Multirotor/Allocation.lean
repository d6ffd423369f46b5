import Multirotor.Error
import Multirotor.LinearSystem.Elimination
import Multirotor.LinearSystem.SingularValues
import Multirotor.Rotor

/-!
# Allocation

The wrench of a set of rotors is linear in their thrusts. The static thrust
balances a given wrench on the controlled axes: the one solution if there
are as many rotors as axes, else the shortest of the many. Where the rotors
do not determine it, it is refused.
-/

namespace Multirotor

/-- The wrench of each rotor per thrust: the columns of the map from thrusts to wrenches. -/
structure Allocation (α : Type) where
  columns : List (Wrench α)

structure StaticThrust (α : Type) where
  thrust : List α
  condition : α

namespace Allocation

variable {α : Type} [Scalar α]

def ofRotors (rotors : List (Rotor α)) : Allocation α := ⟨rotors.map Rotor.wrench⟩

def rotorCount (a : Allocation α) : Nat := a.columns.length

def forces (a : Allocation α) : List (Vec3 α) := a.columns.map Wrench.force

def torques (a : Allocation α) : List (Vec3 α) := a.columns.map Wrench.torque

def wrench (a : Allocation α) (thrust : List α) : Wrench α :=
  ((a.columns.zip thrust).map fun (w, t) => w * t).foldl (· + ·) 0

def controlled (a : Allocation α) (s : Strategy) : Dense α s.axes.length a.rotorCount :=
  Dense.ofFn fun i j => (a.columns.get j).get (s.axes.get i)

/-- What the rotors have to supply on the controlled axes to balance a load. -/
def demand (s : Strategy) (load : Wrench α) : Vector α s.axes.length :=
  Vector.ofFn fun i => -load.get (s.axes.get i)

def solveSquare? {m n : Nat} (q : Dense α m n) (b : Vector α m) (h : n = m) :
    Option (Vector α n) :=
  (Dense.solve? (Dense.ofFn fun i (j : Fin m) => q.entry i (j.cast h.symm)) b).map (·.cast h.symm)

/-- The shortest solution of fewer equations than unknowns, `qᵀ (q qᵀ)⁻¹ b`. -/
def solveShortest? {m n : Nat} (q : Dense α m n) (b : Vector α m) : Option (Vector α n) :=
  (Dense.solvePositive? q.gram b).map q.transpose.apply

variable [SingularValues α]

def staticThrust (a : Allocation α) (s : Strategy) (conditionLimit : α) (load : Wrench α) :
    Except (ModelError α) (StaticThrust α) :=
  let q := a.controlled s
  let b := demand s load
  let (rank, condition) := q.rankAndCondition
  let required := s.axes.length
  let refused : ModelError α := .underconstrained rank required condition
  if a.rotorCount < required ∨ rank < required ∨ conditionLimit < condition then .error refused
  else
    let solution := if h : a.rotorCount = required then solveSquare? q b h else solveShortest? q b
    match solution with
    | some thrust => .ok ⟨thrust.toList, condition⟩
    | none => .error refused

end Allocation

end Multirotor
