import Multirotor.Tree

/-!
# Coordinates

One angle per revolute joint. Angles are set all at once, or by the names of
their joints in batches that are taken as a whole or not at all.
-/

namespace Multirotor

structure Coordinates (α : Type) where
  values : List α

namespace Coordinates

variable {α : Type} [Scalar α]

def zeros (t : Tree α) : Coordinates α := ⟨List.replicate t.jointCount 0⟩

def get (q : Coordinates α) (c : Nat) : α := q.values[c]?.getD 0

def ofList (t : Tree α) (values : List α) : Except (ModelError α) (Coordinates α) := do
  if values.length ≠ t.jointCount then throw (.dimensionMismatch t.jointCount values.length)
  match (t.jointNames.zip values).find? fun (_, v) => !Scalar.isFinite v with
  | some (joint, v) => throw (.notFiniteCoordinate joint v)
  | none => pure ⟨values⟩

/-- Sets the named joints, later pairs over earlier ones, and gives back the names that no joint
has. A value that is not finite for a joint of the tree refuses the whole batch. -/
def apply (t : Tree α) (q : Coordinates α) :
    List (String × α) → Except (ModelError α) (Coordinates α × List String)
  | [] => .ok (q, [])
  | (name, v) :: rest => match t.coordinate? name with
    | none => do
      let (q', unknown) ← apply t q rest
      .ok (q', name :: unknown)
    | some c =>
      if Scalar.isFinite v then apply t ⟨q.values.set c v⟩ rest
      else .error (.notFiniteCoordinate name v)

/-- Sets the named joints in place and gives back the names that no joint has. A refused batch leaves
the coordinates as they are. -/
def assign (t : Tree α) (batch : List (String × α)) :
    ExceptT (ModelError α) (StateM (Coordinates α)) (List String) := do
  let q ← MonadState.get
  let (q', unknown) ← q.apply t batch
  set q'
  pure unknown

def toNamed (t : Tree α) (q : Coordinates α) : List (String × α) := t.jointNames.zip q.values

def shifted (q : Coordinates α) (c : Nat) (step : α) : Coordinates α :=
  ⟨q.values.set c (q.get c + step)⟩

end Coordinates

end Multirotor
