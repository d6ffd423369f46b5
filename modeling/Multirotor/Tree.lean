import Multirotor.Ancestry
import Multirotor.Error
import Multirotor.Segment

/-!
# Segment trees

Records whose parents exist and all descend from one root make a tree.
Segments keep the order in which they are declared; the revolute joints are
numbered as coordinates in breadth-first order.
-/

namespace Multirotor

structure Segment (α : Type) (n : Nat) where
  name : String
  parent : Option (Fin n)
  children : List (Fin n)
  /-- Joint frame in the parent's frame. -/
  offset : Frame α
  joint : Joint α
  inertia : Inertia α
  /-- The coordinates that move the segment, from the root down. -/
  jointPath : List Nat

namespace Segment

variable {α : Type} {n : Nat}

def coordinate? (s : Segment α n) : Option Nat :=
  if s.joint.kind.isRevolute then s.jointPath.getLast? else none

end Segment

/-! ## Numbering -/

/-- The segments while their joints are numbered. -/
structure Numbering (α : Type) (n : Nat) where
  segments : Vector (Segment α n) n
  /-- The segments of the joints numbered so far, in the order of their coordinates. -/
  joints : List (Fin n)

namespace Numbering

variable {α : Type} {n : Nat} (s : Numbering α n)

/-- The parent of a segment takes it as its last child. -/
def adopt (i : Fin n) : Vector (Segment α n) n :=
  match (s.segments.get i).parent with
  | none => s.segments
  | some p =>
    let parent := s.segments.get p
    Ancestry.assign s.segments p { parent with children := parent.children ++ [i] }

def pathAbove (i : Fin n) : List Nat :=
  match (s.segments.get i).parent with
  | none => []
  | some p => (s.segments.get p).jointPath

/-- A segment goes to its parent and takes over the parent's joint path. If its joint is revolute,
it has the next coordinate, and the path goes on with it. -/
def visit (i : Fin n) : Numbering α n :=
  let segments := s.adopt i
  let path := s.pathAbove i
  let segment := segments.get i
  if segment.joint.kind.isRevolute then
    let coordinate := s.joints.length
    { segments := Ancestry.assign segments i { segment with jointPath := path ++ [coordinate] }
      joints := s.joints ++ [i] }
  else
    { segments := Ancestry.assign segments i { segment with jointPath := path }
      joints := s.joints }

end Numbering

structure Tree (α : Type) where
  size : Nat
  segments : Vector (Segment α size) size
  root : Fin size
  /-- Every segment, breadth first from the root. -/
  order : List (Fin size)
  /-- The segments of the revolute joints, in the order of their coordinates. -/
  joints : List (Fin size)

namespace Tree

section Build

variable {α : Type} (records : List (SegmentRecord α))

def repeated? : List String → List String → Option String
  | _, [] => none
  | seen, name :: rest => if seen.contains name then some name else repeated? (name :: seen) rest

def index? (name : String) : Option (Fin records.length) :=
  records.findFinIdx? fun r => r.name == name

def missingParent? : Option String :=
  (records.filterMap (·.parent)).find? fun p => (index? records p).isNone

def parentOf (i : Fin records.length) : Option (Fin records.length) :=
  (records.get i).parent.bind (index? records)

/-- A segment as it is declared, without children and without a joint path. -/
def declared (parent : Fin records.length → Option (Fin records.length)) (i : Fin records.length) :
    Segment α records.length where
  name := (records.get i).name
  parent := parent i
  children := []
  offset := (records.get i).offset
  joint := (records.get i).joint
  inertia := (records.get i).inertia
  jointPath := []

def numbering (parent : Fin records.length → Option (Fin records.length))
    (order : List (Fin records.length)) : Numbering α records.length :=
  order.foldl Numbering.visit ⟨Vector.ofFn (declared records parent), []⟩

/-- The tree below a root, its joints numbered breadth first. -/
def below (parent : Fin records.length → Option (Fin records.length))
    (root : Fin records.length) : Tree α :=
  let order := Ancestry.breadthFirst parent root
  let numbered := numbering records parent order
  { size := records.length, segments := numbered.segments, root, order, joints := numbered.joints }

/-- The tree of the records. The records must be some, have different names and one root; every
parent must be declared and every segment reach the root. -/
def ofRecords : Except (ModelError α) (Tree α) := do
  if records.isEmpty then throw (.tree .empty)
  if let some name := repeated? [] (records.map (·.name)) then throw (.tree (.duplicate name))
  match (List.finRange records.length).filter fun i => (records.get i).parent.isNone with
  | [] => throw (.tree .noRoot)
  | a :: b :: _ => throw (.tree (.manyRoots (records.get a).name (records.get b).name))
  | [root] =>
    if let some parent := missingParent? records then throw (.unknownSegment parent)
    let parents := Vector.ofFn (parentOf records)
    let tree := below records (fun i => parents.get i) root
    if tree.order.length ≠ records.length then throw (.tree .unreachable)
    pure tree

end Build

variable {α : Type} (t : Tree α)

def segment (i : Fin t.size) : Segment α t.size := t.segments.get i

def find? (name : String) : Option (Fin t.size) := t.segments.findFinIdx? fun s => s.name == name

def require (name : String) : Except (ModelError α) (Fin t.size) :=
  match t.find? name with
  | some i => .ok i
  | none => .error (.unknownSegment name)

def jointCount : Nat := t.joints.length

def jointNames : List String := t.joints.map fun i => (t.segment i).joint.name

/-- The coordinate of a joint; of joints with one name, the last. -/
def coordinate? (joint : String) : Option Nat :=
  t.jointNames.zipIdx.foldl (fun found (name, c) => if name == joint then some c else found) none

def rotorSegments : List (Fin t.size) :=
  (List.finRange t.size).filter fun i => (t.segment i).joint.kind.isRotor

end Tree

end Multirotor
