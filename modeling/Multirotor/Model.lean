import Multirotor.Sensitivity.Report

/-!
# Model

A robot that is kept up to date by requests. The last complete solution is
published as a snapshot. A request works on the model in place: what it has
written by the time it fails stays written. What a request about modules or
orientation changes shows from the next update on.
-/

namespace Multirotor

structure Snapshot (α : Type) (n : Nat) where
  state : HoverState α n
  sensitivity : Sensitivity α

structure Model (α : Type) where
  robot : Robot α
  setup : Setup α
  /-- Coordinates of the last successful update. -/
  coordinates : Coordinates α
  snapshot : Snapshot α robot.tree.size

inductive RequestError (α : Type) where
  | model (cause : ModelError α)
  | module (cause : ModuleError α)
  | config (cause : ConfigError α)

inductive Request (α : Type) where
  | update (values : List (String × α))
  | mount (module : ExtraModule α)
  | dismount (name : String)
  | orient (desired : Quat α)
  | selfCheck

inductive Reply (α : Type) where
  | published
  | done
  | dismounted (module : ExtraModule α)
  | checked (report : Report α)

/-- Work on a model. A failure leaves the model as it is by then. -/
abbrev Service (α ε β : Type) := ExceptT ε (StateM (Model α)) β

namespace Model

variable {α : Type} [Scalar α] [SingularValues α]

def compute (r : Robot α) (setup : Setup α) (q : Coordinates α) :
    Except (ModelError α) (Snapshot α r.tree.size) := do
  let state ← r.solve setup q
  let sensitivity ← r.analytic state
  pure ⟨state, sensitivity⟩

/-- A model with a first solution at named joint values, the other joints at zero. -/
def start (tree : Tree α) (config : Config α) (values : List (String × α)) :
    Except (ModelError α) (Model α) := do
  let robot ← Robot.ofConfig tree config
  let (coordinates, _) ← (Coordinates.zeros robot.tree).apply robot.tree values
  let setup := robot.initialSetup
  let snapshot ← compute robot setup coordinates
  pure ⟨robot, setup, coordinates, snapshot⟩

def update (values : List (String × α)) : Service α (ModelError α) Unit := do
  let m ← get
  let (coordinates, _) ← m.coordinates.apply m.robot.tree values
  let snapshot ← compute m.robot m.setup coordinates
  set { m with coordinates, snapshot }

def mount (module : ExtraModule α) : Service α (ModuleError α) Unit := do
  let m ← get
  let payload ← m.setup.payload.add m.robot.groups module
  set { m with setup := { m.setup with payload } }

def dismount (name : String) : Service α (ModuleError α) (ExtraModule α) := do
  let m ← get
  let (module, payload) ← m.setup.payload.remove name
  set { m with setup := { m.setup with payload } }
  pure module

def orient (desired : Quat α) : Service α (ConfigError α) Unit := do
  unless desired.isUnit do throw .orientationNotUnit
  modify fun m => { m with setup := { m.setup with desired := desired.normalize } }

def onSetup {β : Type} (trial : Trial α β) : Service α (ModelError α) β := ExceptT.mk do
  let (result, setup) := trial.run (← get).setup
  modify fun m => { m with setup }
  pure result

def selfCheck : Service α (ModelError α) (Report α) := do
  let m ← get
  let nominal ← m.robot.solve m.setup m.coordinates
  onSetup (m.robot.selfCheck nominal)

def serve : Request α → Service α (RequestError α) (Reply α)
  | .update values => ((fun _ => .published) <$> update values).adapt .model
  | .mount module => ((fun _ => .done) <$> mount module).adapt .module
  | .dismount name => (.dismounted <$> dismount name).adapt .module
  | .orient desired => ((fun _ => .done) <$> orient desired).adapt .config
  | .selfCheck => (.checked <$> selfCheck).adapt .model

def reply (m : Model α) (request : Request α) : Except (RequestError α) (Reply α) :=
  ((serve request).run m).1

def after (m : Model α) (request : Request α) : Model α := ((serve request).run m).2

end Model

end Multirotor
