/-!
# Ancestry

A parent function on `n` nodes: every node has at most one parent. From it
come the children of a node and the nodes below a root level by level. There
are at most `n` levels, since a way without repetition visits at most `n`
nodes.
-/

namespace Multirotor

namespace Ancestry

variable {n : Nat}

def children (parent : Fin n → Option (Fin n)) (p : Fin n) : List (Fin n) :=
  (List.finRange n).filter fun i => parent i == some p

/-- A level of nodes and the levels below it, `steps` levels in all. -/
def levels (parent : Fin n → Option (Fin n)) : Nat → List (Fin n) → List (Fin n)
  | 0, _ => []
  | _, [] => []
  | steps + 1, level => level ++ levels parent steps (level.flatMap (children parent))

def breadthFirst (parent : Fin n → Option (Fin n)) (root : Fin n) : List (Fin n) :=
  levels parent n [root]

def assign {β : Type} (values : Vector β n) (i : Fin n) (b : β) : Vector β n := values.set i b

end Ancestry

end Multirotor
