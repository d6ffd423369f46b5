import Multirotor.Allocation

/-!
# Margins

The forces, or torques, that thrusts within their bounds can produce form a
zonotope. Each pair of generators that is not parallel spans two of its
faces. The distance from a required vector to every face is how much is left
in that direction, and the least distance is the margin. A smooth variant
of the distances, never above them, can be differentiated.
-/

namespace Multirotor

structure ThrustRange (α : Type) where
  min : α
  max : α
  sharpness : α

/-- How much a generator reaches beyond a face, per unit of thrust. -/
inductive Support where
  | exact
  /-- A smooth function below the positive part. -/
  | smooth
deriving DecidableEq

structure Margins (α : Type) where
  /-- The generators that span each face, by their numbers. -/
  pairs : List (Nat × Nat)
  exact : List α
  smooth : List α
  exactMargin : α
  smoothMargin : α
  /-- The generators do not span space, and the margins are zero. -/
  degenerate : Bool

section Faces

variable {α : Type} [Scalar α]

/-- Directions whose cross product is no longer than this are parallel. -/
def parallelTolerance : α := 1e-6

/-- Directions none of whose triple products reaches this do not span space. -/
def degenerateTolerance : α := 1e-9

def greatestVolume (u : Vec3 α) : List (Vec3 α) → α → α
  | [], volume => volume
  | v :: rest, volume =>
    let c := u.cross v
    greatestVolume u rest
      (rest.foldl (fun largest w => Scalar.larger largest (Scalar.abs (c.dot w))) volume)

def spannedVolume : List (Vec3 α) → α → α
  | [], volume => volume
  | u :: rest, volume => spannedVolume rest (greatestVolume u rest volume)

/-- The ordered pairs of generators that are not parallel, if the generators span space. Only
their directions count, and a zero generator has none. -/
def facePairs? (generators : List (Vec3 α)) : Option (List (Nat × Nat)) :=
  let units := generators.map Vec3.direction
  if spannedVolume units 0 < degenerateTolerance then none
  else
    let indexed := units.zipIdx
    some (indexed.flatMap fun (u, i) =>
      (indexed.filter fun (v, j) =>
        i != j && decide (parallelTolerance < (u.cross v).norm)).map fun (_, j) => (i, j))

def generator (generators : List (Vec3 α)) (i : Nat) : Vec3 α := generators.getD i 0

def offFace {β : Type} (items : List β) (pair : Nat × Nat) : List β :=
  (items.zipIdx.filter fun (_, k) => k != pair.1 && k != pair.2).map (·.1)

def logistic (x : α) : α := 1 / (1 + Scalar.exp (-x))

end Faces

namespace ThrustRange

variable {α : Type} [Scalar α] (r : ThrustRange α)

def ofConfig (c : Config α) : ThrustRange α := ⟨c.thrustMin, c.thrustMax, c.sharpness⟩

def span : α := r.max - r.min

def support (s : Support) (x : α) : α :=
  match s with
  | .exact => Scalar.larger x 0
  | .smooth => x * logistic (r.sharpness * x)

/-- The distance from `required` to the face spanned by a pair, along the normal of the pair. -/
def faceDistance (s : Support) (generators : List (Vec3 α)) (required : Vec3 α)
    (pair : Nat × Nat) : α :=
  let normal := ((generator generators pair.1).cross (generator generators pair.2)).normalize
  let reach := (offFace generators pair).map fun g =>
    let x := normal.dot g
    r.min * x + r.span * r.support s x
  Scalar.sum reach - normal.dot required

def faceDistances (s : Support) (generators : List (Vec3 α)) (pairs : List (Nat × Nat))
    (required : Vec3 α) : List α :=
  pairs.map (r.faceDistance s generators required)

def margins (generators : List (Vec3 α)) (required : Vec3 α) : Margins α :=
  match facePairs? generators with
  | none => ⟨[], [], [], 0, 0, true⟩
  | some pairs =>
    let exact := r.faceDistances .exact generators pairs required
    let smooth := r.faceDistances .smooth generators pairs required
    ⟨pairs, exact, smooth, Scalar.least exact, Scalar.least smooth, false⟩

/-- The largest distance between a positive part and its smooth variant, times the sharpness. -/
def smoothGap : α := 0.2785

/-- A bound on how far the smooth distances of `count` generators stay below the exact ones. -/
def smoothBound (count : Nat) : α := r.span * (count - 2 : Nat) * smoothGap / r.sharpness

/-- The rate of the smooth distance to a face, while generator `k` changes at rate `rates[k]`. -/
def faceRate (generators rates : List (Vec3 α)) (required : Vec3 α) (pair : Nat × Nat) : α :=
  let a := generator generators pair.1
  let b := generator generators pair.2
  let c := a.cross b
  let norm := c.norm
  let n : Vec3 α := c / norm
  let dc := (-Mat3.skew b).apply (generator rates pair.1)
    + (Mat3.skew a).apply (generator rates pair.2)
  let dn : Vec3 α := (Mat3.identity - Mat3.outer n n).apply dc / norm
  (offFace (generators.zip rates) pair).foldl (fun total (g, dg) =>
    let x := n.dot g
    let s := logistic (r.sharpness * x)
    let slope := s + r.sharpness * x * s * (1 - s)
    total + (g.dot dn + n.dot dg) * (r.min + r.span * slope)) (-required.dot dn)

end ThrustRange

structure HoverMargins (α : Type) where
  force : Margins α
  torque : Margins α

def hoverForce {α : Type} [Scalar α] (mass gravity : α) : Vec3 α := ⟨0, 0, mass * gravity⟩

def ThrustRange.hoverMargins {α : Type} [Scalar α] (r : ThrustRange α) (a : Allocation α)
    (mass gravity : α) : HoverMargins α where
  force := r.margins a.forces (hoverForce mass gravity)
  torque := r.margins a.torques 0

end Multirotor
