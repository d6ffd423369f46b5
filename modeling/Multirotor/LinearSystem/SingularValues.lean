import Multirotor.LinearSystem.Dense

/-!
# Singular values

The rank and the condition number of a matrix are read off its singular
values, which a `SingularValues` instance supplies. On floats they are found
by rotating pairs of rows until all rows are orthogonal: their lengths are
then the singular values.
-/

namespace Multirotor

class SingularValues (α : Type) where
  /-- The `min m n` singular values, in any order. -/
  singularValues {m n : Nat} (a : Dense α m n) : List α

namespace Dense

variable {α : Type} [Scalar α] [SingularValues α] {m n : Nat}

/-- The distance from one to the next larger float, `2⁻⁵²`. -/
def roundoff : α := 2220446049250313080847263336181640625e-52

/-- Numerical rank and condition number. A matrix that is not finite has rank zero and no bound on
its condition number. -/
def rankAndCondition (a : Dense α m n) : Nat × α :=
  if a.isFinite then
    match SingularValues.singularValues a with
    | [] => (0, Scalar.unbounded)
    | s :: rest =>
      let top := rest.foldl Scalar.larger s
      let bottom := rest.foldl Scalar.smaller s
      let tolerance := top * (max m n : Nat) * roundoff
      ((s :: rest).countP fun x => decide (tolerance < x),
        if 0 < bottom then top / bottom else Scalar.unbounded)
  else (0, Scalar.unbounded)

end Dense

namespace Orthogonalize

abbrev Row := List Float

def dot (a b : Row) : Float := (a.zipWith (· * ·) b).foldl (· + ·) 0

/-- Two rows turned in their plane so that they become orthogonal, and whether that was needed. -/
def turnPair (a b : Row) : Row × Row × Bool :=
  let aa := dot a a
  let bb := dot b b
  let ab := dot a b
  if ab.abs ≤ 1e-16 * (aa * bb).sqrt then (a, b, false)
  else
    let z := (bb - aa) / (2 * ab)
    let t := (if z < 0 then -1 else 1) / (z.abs + (1 + z * z).sqrt)
    let c := 1 / (1 + t * t).sqrt
    let s := c * t
    (a.zipWith (fun x y => c * x - s * y) b, a.zipWith (fun x y => s * x + c * y) b, true)

def turnAgainst (a : Row) : List Row → Row × List Row × Bool
  | [] => (a, [], false)
  | b :: rest =>
    let (a, b, turned) := turnPair a b
    let (a, rest, more) := turnAgainst a rest
    (a, b :: rest, turned || more)

/-- Every pair of rows once; `count` is the number of rows. -/
def sweep : Nat → List Row → List Row × Bool
  | count + 1, a :: rest =>
    let (a, rest, turned) := turnAgainst a rest
    let (rest, more) := sweep count rest
    (a :: rest, turned || more)
  | _, rows => (rows, false)

/-- Sweeps until nothing turns, at most `limit` times. -/
def sweeps : Nat → List Row → List Row
  | 0, rows => rows
  | limit + 1, rows =>
    let (rows, turned) := sweep rows.length rows
    if turned then sweeps limit rows else rows

/-- The lengths of orthogonal rows with the same singular values. The rows are first scaled to
entries of at most one. -/
def lengths (rows : List Row) : List Float :=
  let scale := (rows.flatten.map Float.abs).foldl Scalar.larger 0
  if scale == 0 then rows.map fun _ => 0
  else (sweeps 60 (rows.map (·.map (· / scale)))).map fun a => (dot a a).sqrt * scale

end Orthogonalize

instance : SingularValues Float where
  singularValues {m n} a :=
    let rows := if m ≤ n then a.toList.map (·.toList) else a.transpose.toList.map (·.toList)
    Orthogonalize.lengths rows

end Multirotor
