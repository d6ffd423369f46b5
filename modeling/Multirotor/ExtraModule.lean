import Multirotor.Groups

/-!
# Extra modules

Payloads and sensors that are mounted on the base segment of a group and
taken off again. A request that is refused changes nothing.
-/

namespace Multirotor

structure ExtraModule (α : Type) where
  name : String
  parent : String
  position : Vec3 α
  /-- Mounting orientation as it was given. -/
  orientation : Quat α
  inertia : Inertia α

namespace ExtraModule

variable {α : Type} [Scalar α]

def offset (m : ExtraModule α) : Frame α := ⟨m.position, m.orientation.normalize⟩

def localInertia (m : ExtraModule α) : Inertia α := m.inertia.transformed m.offset

end ExtraModule

/-- The mounted modules, in increasing order of their names. -/
structure Payload (α : Type) where
  modules : List (ExtraModule α)

namespace Payload

variable {α : Type} [Scalar α] {n : Nat}

def empty : Payload α := ⟨[]⟩

def find? (p : Payload α) (name : String) : Option (ExtraModule α) :=
  p.modules.find? fun m => m.name == name

def insert (m : ExtraModule α) : List (ExtraModule α) → List (ExtraModule α)
  | [] => [m]
  | m' :: rest => if m.name < m'.name then m :: m' :: rest else m' :: insert m rest

/-- What a module has to satisfy, in the order in which it is tested. -/
def check (p : Payload α) (groups : List (InertiaGroup α n)) (m : ExtraModule α) :
    Except (ModuleError α) Unit := do
  if (p.find? m.name).isSome then throw (.duplicate m.name)
  if (InertiaGroup.index? groups m.parent).isNone then throw (.unknownParent m.parent)
  unless Scalar.isFinite m.inertia.mass ∧ 0 < m.inertia.mass do throw (.badMass m.inertia.mass)
  unless m.position.isFinite ∧ m.inertia.cog.isFinite ∧ m.inertia.aboutCog.isFinite do
    throw (.notFinite m.name)
  unless m.orientation.isUnit do throw (.orientationNotUnit m.orientation.normSq)

def add (p : Payload α) (groups : List (InertiaGroup α n)) (m : ExtraModule α) :
    Except (ModuleError α) (Payload α) := do
  p.check groups m
  pure ⟨insert m p.modules⟩

def remove (p : Payload α) (name : String) : Except (ModuleError α) (ExtraModule α × Payload α) :=
  match p.find? name with
  | some m => .ok (m, ⟨p.modules.filter fun m' => m'.name != name⟩)
  | none => .error (.notFound name)

/-- A request to mount a module or to take one off. -/
inductive Change (α : Type) where
  | mount (module : ExtraModule α)
  | dismount (name : String)

/-- Changes a payload in place, and gives back the module that is taken off. -/
def serve (groups : List (InertiaGroup α n)) :
    Change α → ExceptT (ModuleError α) (StateM (Payload α)) (Option (ExtraModule α))
  | .mount module => do
    let p ← get
    set (← p.add groups module)
    pure none
  | .dismount name => do
    let p ← get
    let (module, rest) ← p.remove name
    set rest
    pure (some module)

def reply (groups : List (InertiaGroup α n)) (p : Payload α) (change : Change α) :
    Except (ModuleError α) (Option (ExtraModule α)) := ((serve groups change).run p).1

def after (groups : List (InertiaGroup α n)) (p : Payload α) (change : Change α) : Payload α :=
  ((serve groups change).run p).2

def totalMass (p : Payload α) : α := Scalar.sum (p.modules.map (·.inertia.mass))

end Payload

end Multirotor
