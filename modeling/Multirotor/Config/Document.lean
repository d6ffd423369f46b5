import Multirotor.Config
import Multirotor.Toml.Document

/-!
# Configurations as documents

A document gives settings by name. A setting that is not given keeps its
standard value, names of no setting are passed over, and two thresholds have
a short name besides.
-/

namespace Multirotor

namespace Toml.Value

def number? : Value → Option Float
  | .float x => some x
  | .integer n => some (if n < 0 then -Decimal.nearest n.natAbs 0 else Decimal.nearest n.natAbs 0)
  | _ => none

def text? : Value → Option String
  | .text s => some s
  | _ => none

def count? : Value → Option Nat
  | .integer n => if 0 ≤ n then some n.toNat else none
  | _ => none

def numbers? : Value → Option (List Float)
  | .array items => items.mapM number?
  | _ => none

/-- Four numbers `x, y, z, w`; what follows them is not looked at. -/
def quat? : Value → Option (Quat Float)
  | .array (x :: y :: z :: w :: _) => do return ⟨← w.number?, ← x.number?, ← y.number?, ← z.number?⟩
  | _ => none

def isVacant : Value → Bool
  | .array items => items.isEmpty
  | .table _ entries => entries.isEmpty
  | _ => false

end Toml.Value

namespace Toml.Entries

variable {β : Type}

/-- The setting under one of its names, or the standard value. Two names at once are refused. -/
def setting (entries : Entries) (names : List String) (decode : Value → Option β) (standard : β) :
    Option β :=
  match entries.filter fun (name, _) => names.contains name with
  | [] => some standard
  | [(_, value)] => decode value
  | _ => none

end Toml.Entries

namespace Strategy

def ofName? : String → Option Strategy
  | "under_actuated" => some underActuated
  | "fully_actuated" => some fullyActuated
  | _ => none

/-- The strategy of a name, or of the key of a vacant value: the only key of a table between
braces, or the first of another table. -/
def ofValue? : Toml.Value → Option Strategy
  | .text name => ofName? name
  | .table .inline [(name, v)] => if v.isVacant then ofName? name else none
  | .table .inline _ => none
  | .table _ ((name, v) :: _) => if v.isVacant then ofName? name else none
  | _ => none

end Strategy

namespace DifferenceConfig

def ofValue? : Toml.Value → Option (DifferenceConfig Float)
  | .table _ entries => do
    let number := fun name x => Toml.Entries.setting entries [name] (·.number?) x
    let perturbation ← number "perturbation" standard.perturbation
    let tolerance ← number "tolerance" standard.tolerance
    return { perturbation, tolerance }
  | .array [] => some standard
  | .array [perturbation] => do return { standard with perturbation := ← perturbation.number? }
  | .array (perturbation :: tolerance :: _) => do
    return { perturbation := ← perturbation.number?, tolerance := ← tolerance.number? }
  | _ => none

end DifferenceConfig

namespace Config

/-- The configuration of a document, if every setting has a value of its kind. -/
def ofEntries? (entries : Toml.Entries) : Option (Config Float) := do
  let d : Config Float := standard
  let number := fun (names : List String) (x : Float) => entries.setting names (·.number?) x
  return {
    baselink := ← entries.setting ["baselink"] (·.text?) d.baselink
    thrustLink := ← entries.setting ["thrust_link"] (·.text?) d.thrustLink
    rotorCount := ← entries.setting ["rotor_num"] (some <$> ·.count?) none
    rotorDirections := ← entries.setting ["rotor_directions"] (some <$> ·.numbers?) none
    strategy := ← entries.setting ["strategy"] Strategy.ofValue? d.strategy
    dragRatio := ← number ["m_f_rate"] d.dragRatio
    gravity := ← number ["gravity"] d.gravity
    thrustMin := ← number ["thrust_min"] d.thrustMin
    thrustMax := ← number ["thrust_max"] d.thrustMax
    forceThreshold := ← number ["force_margin_threshold", "fc_f_min_thre"] d.forceThreshold
    torqueThreshold := ← number ["torque_margin_threshold", "fc_t_min_thre"] d.torqueThreshold
    sharpness := ← number ["feasibility_epsilon"] d.sharpness
    desiredOrientation :=
      ← entries.setting ["cog_desire_orientation"] (·.quat?) d.desiredOrientation
    conditionLimit := ← number ["condition_limit"] d.conditionLimit
    difference := ← entries.setting ["jacobian"] DifferenceConfig.ofValue? d.difference }

end Config

end Multirotor
