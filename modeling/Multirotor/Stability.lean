import Multirotor.Margin

/-!
# Stability

A hovering state is stable if both margins reach their thresholds and every
thrust is within its bounds. A degenerate set of generators has margin zero
and passes a threshold of zero or less.
-/

namespace Multirotor

structure StabilityCriteria (α : Type) where
  thrustMin : α
  thrustMax : α
  forceThreshold : α
  torqueThreshold : α

structure Verdict where
  force : Bool
  torque : Bool
  thrust : Bool
deriving DecidableEq

def Verdict.stable (v : Verdict) : Bool := v.force && v.torque && v.thrust

namespace StabilityCriteria

variable {α : Type} [Scalar α]

def ofConfig (c : Config α) : StabilityCriteria α :=
  ⟨c.thrustMin, c.thrustMax, c.forceThreshold, c.torqueThreshold⟩

def assess (c : StabilityCriteria α) (forceMargin torqueMargin : α) (thrust : List α) : Verdict where
  force := decide (c.forceThreshold ≤ forceMargin)
  torque := decide (c.torqueThreshold ≤ torqueMargin)
  thrust := thrust.all fun t => decide (c.thrustMin ≤ t) && decide (t ≤ c.thrustMax)

end StabilityCriteria

end Multirotor
