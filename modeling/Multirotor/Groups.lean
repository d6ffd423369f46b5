import Multirotor.Tree

/-!
# Inertia groups

The segments between revolute joints move as one body. A group is the root
or a revolute segment, its base, together with every descendant reached
without crossing another revolute joint; its inertia is in the base's frame.
-/

namespace Multirotor

structure InertiaGroup (α : Type) (n : Nat) where
  base : Fin n
  name : String
  inertia : Inertia α

namespace Tree

variable {α : Type} [Scalar α] (t : Tree α)

def isBase (i : Fin t.size) : Bool :=
  (t.segment i).parent.isNone || (t.segment i).joint.kind.isRevolute

def gathered (carried : Vector (Inertia α) t.size) (i : Fin t.size) : Inertia α :=
  (t.segment i).children.foldl
    (fun sum c => sum + (carried.get c).transformed (t.segment c).offset) (t.segment i).inertia

/-- A base keeps what is gathered as its group; any other segment hands it up. -/
def gather (i : Fin t.size)
    (state : Vector (Inertia α) t.size × List (InertiaGroup α t.size)) :
    Vector (Inertia α) t.size × List (InertiaGroup α t.size) :=
  let (carried, groups) := state
  let inertia := t.gathered carried i
  if t.isBase i then (carried, ⟨i, (t.segment i).name, inertia⟩ :: groups)
  else (Ancestry.assign carried i inertia, groups)

/-- The groups of a tree, bases in breadth-first order. Exactly one has to hold a root. -/
def groups : Except (ModelError α) (List (InertiaGroup α t.size)) :=
  let found := (t.order.foldr t.gather (Vector.replicate t.size 0, [])).2
  let roots := found.countP fun g => (t.segment g.base).parent.isNone
  if roots = 1 then .ok found else .error (.tree (.rootGroups roots))

end Tree

namespace InertiaGroup

variable {α : Type} {n : Nat}

def index? (groups : List (InertiaGroup α n)) (name : String) : Option Nat :=
  groups.findIdx? fun g => g.name == name

end InertiaGroup

end Multirotor
