import Multirotor.Scalar

/-!
# Dense matrices

Matrices of any size, stored row by row. Every operation tabulates its
entries once.
-/

namespace Multirotor

abbrev Dense (α : Type) (m n : Nat) := Vector (Vector α n) m

namespace Dense

variable {α : Type} {m n k : Nat}

def ofFn (f : Fin m → Fin n → α) : Dense α m n := Vector.ofFn fun i => Vector.ofFn fun j => f i j

def entry (a : Dense α m n) (i : Fin m) (j : Fin n) : α := (a.get i).get j

def transpose (a : Dense α m n) : Dense α n m := ofFn fun i j => a.entry j i

def cons (x : α) (v : Vector α n) : Vector α (n + 1) :=
  Vector.ofFn (Fin.cases (motive := fun _ => α) x v.get)

variable [Scalar α]

def sum (f : Fin n → α) : α := (List.finRange n).foldl (fun s i => s + f i) 0

def apply (a : Dense α m n) (v : Vector α n) : Vector α m :=
  Vector.ofFn fun i => sum fun j : Fin n => a.entry i j * v.get j

def mul (a : Dense α m n) (b : Dense α n k) : Dense α m k :=
  ofFn fun i j => sum fun l : Fin n => a.entry i l * b.entry l j

/-- The matrix of the inner products of the rows. -/
def gram (a : Dense α m n) : Dense α m m := a.mul a.transpose

def unit (j : Fin n) : Vector α n := Vector.ofFn fun i => if i = j then 1 else 0

def add (v w : Vector α n) : Vector α n := Vector.ofFn fun i => v.get i + w.get i

def sub (v w : Vector α n) : Vector α n := Vector.ofFn fun i => v.get i - w.get i

def isFinite (a : Dense α m n) : Bool := a.all fun row => row.all Scalar.isFinite

end Dense

end Multirotor
