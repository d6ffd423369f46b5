import Multirotor.CentreOfGravity
import Multirotor.Config

/-!
# Rotors

Rotors are segments found by their numbered names. A rotor pushes along its
axis and, by its lever arm and its drag, turns the robot about the centre of
gravity.
-/

namespace Multirotor

structure Rotor (α : Type) where
  origin : Vec3 α
  axis : Vec3 α
  /-- Direction of rotation, `+1` or `-1`. -/
  direction : α
  dragRatio : α

namespace Rotor

variable {α : Type} [Scalar α]

def drag (r : Rotor α) : α := r.dragRatio * r.direction

/-- Torque per thrust: lever arm and drag. -/
def torque (r : Rotor α) : Vec3 α := r.origin.cross r.axis + r.axis * r.drag

def wrench (r : Rotor α) : Wrench α := ⟨r.axis, r.torque⟩

end Rotor

structure PlacedRotor (α : Type) (n : Nat) extends Rotor α where
  /-- Counted from one. -/
  number : Nat
  segment : Fin n

structure RotorLayout (α : Type) (n : Nat) where
  segments : List (Fin n)
  directions : List α
  dragRatio : α

namespace RotorLayout

variable {α : Type} [Scalar α]

def rotorName (thrustLink : String) (number : Nat) : String := thrustLink ++ toString number

/-- The segments of the rotors `1`, `2`, … up to the first number that is missing. A tree with `n`
segments has at most `n` of them. -/
def numbered (t : Tree α) (thrustLink : String) : List (Fin t.size) :=
  let found := (List.range t.size).map fun i => t.find? (rotorName thrustLink (i + 1))
  (found.takeWhile (·.isSome)).filterMap id

/-- The rotor segments: as many as are expected, or all that are numbered. -/
def resolve (t : Tree α) (thrustLink : String) (count : Option Nat) :
    Except (ModelError α) (List (Fin t.size)) := do
  let all := numbered t thrustLink
  let chosen ← match count with
    | none => pure all
    | some k =>
      if k ≤ all.length then pure (all.take k)
      else throw (.rotorNotFound (rotorName thrustLink (all.length + 1)))
  if chosen.isEmpty then throw (.rotorNotFound (rotorName thrustLink 1))
  pure chosen

/-- Rotors whose joint axis points down rotate the other way. -/
def axisDirection (t : Tree α) (i : Fin t.size) : α :=
  match (t.segment i).joint.kind with
  | .rotor axis => if axis.z < 0 then -1 else 1
  | _ => 1

def ofConfig (t : Tree α) (c : Config α) : Except (ModelError α) (RotorLayout α t.size) := do
  let segments ← resolve t c.thrustLink c.rotorCount
  let directions ← match c.rotorDirections with
    | none => pure (segments.map (axisDirection t))
    | some given =>
      if given.length = segments.length then pure given
      else throw (.dimensionMismatch segments.length given.length)
  pure { segments, directions, dragRatio := c.dragRatio }

/-- The rotors at their current frames; a rotor pushes along the z axis of its segment. -/
def extract {n : Nat} (l : RotorLayout α n) (frames : Placement α n) (cog : CentreOfGravity α) :
    List (PlacedRotor α n) :=
  (l.segments.zip l.directions).zipIdx.map fun ((segment, direction), i) =>
    let relative := cog.frame.inverse * (frames.get segment)
    { number := i + 1
      segment
      origin := relative.origin
      axis := relative.rotation.rotate Vec3.unitZ
      direction
      dragRatio := l.dragRatio }

end RotorLayout

end Multirotor
