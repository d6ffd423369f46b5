import Multirotor.LinearSystem.Dense

/-!
# Elimination

Square systems are solved by elimination: a row with a largest first entry
clears the first column of the other rows, which leaves a smaller system. A
positive definite system is solved with the square root of its first entry
in the same way, without a choice of row.
-/

namespace Multirotor

namespace Dense

variable {α : Type} [Scalar α]

def pivotRow {n : Nat} (a : Dense α (n + 1) (n + 1)) : Fin (n + 1) :=
  (List.finRange (n + 1)).foldl
    (fun best i => if Scalar.abs (a.entry best 0) < Scalar.abs (a.entry i 0) then i else best) 0

/-- The rows other than `p`: the first row stands in for `p`, the others keep their places. -/
def otherRow {n : Nat} (p : Fin (n + 1)) (i : Fin n) : Fin (n + 1) :=
  if i.succ = p then 0 else i.succ

/-- The system without its first unknown: each other row less the multiple of row `p` that clears
its first entry. -/
def reduced {n : Nat} (a : Dense α (n + 1) (n + 1)) (p : Fin (n + 1)) : Dense α n n :=
  ofFn fun i j => a.entry (otherRow p i) j.succ -
    a.entry (otherRow p i) 0 / a.entry p 0 * a.entry p j.succ

def reducedRight {n : Nat} (a : Dense α (n + 1) (n + 1)) (b : Vector α (n + 1))
    (p : Fin (n + 1)) : Vector α n :=
  Vector.ofFn fun i => b.get (otherRow p i) - a.entry (otherRow p i) 0 / a.entry p 0 * b.get p

/-- The solution of `a x = b`, if every elimination finds an entry other than zero. -/
def solve? : {n : Nat} → Dense α n n → Vector α n → Option (Vector α n)
  | 0, _, b => some b
  | n + 1, a, b =>
    let p := pivotRow a
    let pivot := a.entry p 0
    if pivot == 0 then none
    else (solve? (reduced a p) (reducedRight a b p)).map fun x =>
      cons ((b.get p - sum fun j : Fin n => a.entry p j.succ * x.get j) / pivot) x

/-- The solution of `a x = b` for a symmetric `a`, if every elimination finds a positive entry. -/
def solvePositive? : {n : Nat} → Dense α n n → Vector α n → Option (Vector α n)
  | 0, _, b => some b
  | n + 1, a, b =>
    let corner := a.entry 0 0
    if 0 < corner then
      let d := Scalar.sqrt corner
      let l := Vector.ofFn fun i : Fin n => a.entry i.succ 0 / d
      let minor := ofFn fun (i j : Fin n) => a.entry i.succ j.succ - l.get i * l.get j
      let y := b.get 0 / d
      let rest := Vector.ofFn fun i : Fin n => b.get i.succ - l.get i * y
      (solvePositive? minor rest).map fun x =>
        cons ((y - sum fun i : Fin n => l.get i * x.get i) / d) x
    else none

def inverse? {n : Nat} (a : Dense α n n) : Option (Dense α n n) :=
  ((Vector.finRange n).mapM fun j => solve? a (unit j)).map transpose

end Dense

end Multirotor
