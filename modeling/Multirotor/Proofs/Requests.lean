import Mathlib.Tactic.Common
import Multirotor.Model
import Multirotor.Proofs.Outcome

/-!
# Runs of requests

A request does one of four things to a model (`Served`): an update that
succeeds writes coordinates and snapshot, a request about modules or
orientation that succeeds writes the setup, and a self-check or a request
that fails leaves the model as it was. `published_after_run`: after any run
the snapshot is what the setup at the last successful update gives at the
coordinates of the model.
-/

namespace Multirotor

/-! ## Trials -/

namespace Trial

variable {α β γ : Type}

/-- The trial overwrites at most the desired orientation. -/
def KeepsPayload (trial : Trial α β) : Prop :=
  ∀ setup, (trial.run setup).2.payload = setup.payload

theorem keepsPayload_pure (b : β) : KeepsPayload (pure b : Trial α β) := fun _ => rfl

theorem keepsPayload_lift (x : Except (ModelError α) β) : KeepsPayload (liftM x : Trial α β) :=
  fun _ => rfl

theorem keepsPayload_push (desired : Quat α) : KeepsPayload (push desired) := fun _ => rfl

theorem KeepsPayload.bind {trial : Trial α β} {next : β → Trial α γ} (h : KeepsPayload trial)
    (hn : ∀ b, KeepsPayload (next b)) : KeepsPayload (trial >>= next) := by
  intro setup
  have hs := h setup
  rw [run_bind]
  generalize trial.run setup = out at hs ⊢
  rcases out with ⟨_ | b, setup'⟩
  · exact hs
  · exact (hn b setup').trans hs

theorem KeepsPayload.mapM {f : γ → Trial α β} (h : ∀ c, KeepsPayload (f c)) :
    ∀ l : List γ, KeepsPayload (l.mapM f)
  | [] => keepsPayload_pure []
  | c :: l => by
    rw [List.mapM_cons]
    exact (h c).bind fun b => (KeepsPayload.mapM h l).bind fun bs => keepsPayload_pure (b :: bs)

theorem KeepsPayload.restoring_run {trial : Trial α β} (h : KeepsPayload trial) (setup : Setup α) :
    (restoring trial).run setup = ((trial.run setup).1, setup) := by
  change ((trial.run setup).1, (⟨(trial.run setup).2.payload, setup.desired⟩ : Setup α)) = _
  rw [h setup]

end Trial

namespace Robot

variable {α : Type} [Scalar α] [SingularValues α] (r : Robot α) (nominal : HoverState α r.tree.size)

theorem solveNow_run (q : Coordinates α) (setup : Setup α) :
    (r.solveNow q).run setup = (r.solve setup q, setup) := by
  rw [solveNow, run_bind, run_get]
  rfl

theorem keepsPayload_solveNow (q : Coordinates α) : (r.solveNow q).KeepsPayload := by
  intro setup
  rw [solveNow_run]

theorem keepsPayload_turned (axis : Fin 3) (step : α) :
    (r.turned nominal axis step).KeepsPayload :=
  (Trial.keepsPayload_push _).bind fun _ => r.keepsPayload_solveNow _

theorem keepsPayload_bent (coordinate : Nat) (step : α) :
    (r.bent nominal coordinate step).KeepsPayload :=
  (Trial.keepsPayload_lift _).bind fun _ =>
    (Trial.keepsPayload_push _).bind fun _ => r.keepsPayload_solveNow _

theorem keepsPayload_differenceRates (delta : α) (m : Motion) :
    (r.differenceRates nominal delta m).KeepsPayload := by
  cases m with
  | shift axis => exact Trial.keepsPayload_pure _
  | turn axis =>
    exact (r.keepsPayload_turned nominal axis _).bind fun _ =>
      (r.keepsPayload_turned nominal axis _).bind fun _ => Trial.keepsPayload_pure _
  | bend c =>
    exact (r.keepsPayload_bent nominal c _).bind fun _ =>
      (r.keepsPayload_bent nominal c _).bind fun _ => Trial.keepsPayload_pure _

/-- The setup comes back as it was, wherever among the perturbed solves a failure occurs. -/
theorem numerical_run (setup : Setup α) : ((r.numerical nominal).run setup).2 = setup := by
  have h : Trial.KeepsPayload (do
      let rates ← r.tree.motions.mapM (r.differenceRates nominal r.config.difference.perturbation)
      pure (Sensitivity.ofRates nominal rates)) :=
    (Trial.KeepsPayload.mapM (r.keepsPayload_differenceRates nominal _) _).bind fun _ =>
      Trial.keepsPayload_pure _
  exact congrArg Prod.snd (h.restoring_run setup)

theorem selfCheck_run (setup : Setup α) : ((r.selfCheck nominal).run setup).2 = setup := by
  rw [selfCheck, run_bind, run_lift]
  rcases r.analytic nominal with _ | analytic
  · rfl
  · have h := r.numerical_run nominal setup
    dsimp only
    rw [run_bind]
    generalize (r.numerical nominal).run setup = out at h ⊢
    rcases out with ⟨_ | _, setup'⟩ <;> exact h

end Robot

namespace Model

variable {α : Type} [Scalar α] [SingularValues α]

/-! ## What a request does -/

inductive Served (m : Model α) :
    Request α → Except (RequestError α) (Reply α) → Model α → Prop where
  | published {values : List (String × α)} {q : Coordinates α} {unknown : List String}
      {snapshot : Snapshot α m.robot.tree.size} :
      m.coordinates.apply m.robot.tree values = .ok (q, unknown) →
      compute m.robot m.setup q = .ok snapshot →
      Served m (.update values) (.ok .published) { m with coordinates := q, snapshot }
  | mounted {module : ExtraModule α} {payload : Payload α} :
      m.setup.payload.add m.robot.groups module = .ok payload →
      Served m (.mount module) (.ok .done) { m with setup := { m.setup with payload } }
  | dismounted {name : String} {module : ExtraModule α} {payload : Payload α} :
      m.setup.payload.remove name = .ok (module, payload) →
      Served m (.dismount name) (.ok (.dismounted module))
        { m with setup := { m.setup with payload } }
  | oriented {desired : Quat α} : desired.isUnit = true →
      Served m (.orient desired) (.ok .done)
        { m with setup := { m.setup with desired := desired.normalize } }
  | checked {report : Report α} : Served m .selfCheck (.ok (.checked report)) m
  | refused {request : Request α} {e : RequestError α} : Served m request (.error e) m

/-- The answer to an update reads robot, setup and coordinates, and no snapshot. -/
theorem reply_update (m : Model α) (values : List (String × α)) : m.reply (.update values) =
    ((m.coordinates.apply m.robot.tree values >>= fun applied =>
      compute m.robot m.setup applied.1).map fun _ => .published).mapError .model := by
  simp only [reply, serve, run_adapt, run_map, update, run_bind, run_get, run_lift]
  cases m.coordinates.apply m.robot.tree values with
  | error cause => rfl
  | ok applied =>
    change _ = ((compute m.robot m.setup applied.1).map fun _ => Reply.published).mapError _
    dsimp only
    cases compute m.robot m.setup applied.1 <;> rfl

theorem served_update (m : Model α) (values : List (String × α)) :
    Served m (.update values) (m.reply (.update values)) (m.after (.update values)) := by
  simp only [reply, after, serve, run_adapt, run_map, update, run_bind, run_get, run_lift]
  cases ha : m.coordinates.apply m.robot.tree values with
  | error e => exact .refused
  | ok applied =>
    dsimp only
    cases hc : compute m.robot m.setup applied.1 with
    | error e => exact .refused
    | ok snapshot => exact .published ha hc

theorem served_mount (m : Model α) (module : ExtraModule α) :
    Served m (.mount module) (m.reply (.mount module)) (m.after (.mount module)) := by
  simp only [reply, after, serve, run_adapt, run_map, mount, run_bind, run_get, run_lift]
  cases h : m.setup.payload.add m.robot.groups module with
  | error e => exact .refused
  | ok payload => exact .mounted h

theorem served_dismount (m : Model α) (name : String) :
    Served m (.dismount name) (m.reply (.dismount name)) (m.after (.dismount name)) := by
  simp only [reply, after, serve, run_adapt, run_map, dismount, run_bind, run_get, run_lift]
  cases h : m.setup.payload.remove name with
  | error e => exact .refused
  | ok removed => exact .dismounted h

theorem served_orient (m : Model α) (desired : Quat α) :
    Served m (.orient desired) (m.reply (.orient desired)) (m.after (.orient desired)) := by
  simp only [reply, after, serve, run_adapt, run_map, orient]
  cases h : desired.isUnit with
  | true => exact .oriented h
  | false => exact .refused

omit [Scalar α] [SingularValues α] in
theorem onSetup_run {β : Type} (trial : Trial α β) (m : Model α) :
    (onSetup trial).run m =
      ((trial.run m.setup).1, { m with setup := (trial.run m.setup).2 }) := rfl

theorem served_selfCheck (m : Model α) :
    Served m .selfCheck (m.reply .selfCheck) (m.after .selfCheck) := by
  simp only [reply, after, serve, run_adapt, run_map, selfCheck, run_bind, run_get, run_lift]
  cases m.robot.solve m.setup m.coordinates with
  | error e => exact .refused
  | ok nominal =>
    simp only [onSetup_run, m.robot.selfCheck_run nominal]
    cases ((m.robot.selfCheck nominal).run m.setup).1 with
    | error e => exact .refused
    | ok report => exact .checked

theorem served (m : Model α) (request : Request α) :
    Served m request (m.reply request) (m.after request) := by
  cases request with
  | update values => exact served_update m values
  | mount module => exact served_mount m module
  | dismount name => exact served_dismount m name
  | orient desired => exact served_orient m desired
  | selfCheck => exact served_selfCheck m

/-! ## Runs -/

def afterAll (m : Model α) (requests : List (Request α)) : Model α := requests.foldl after m

def publishes (m : Model α) : Request α → Bool
  | .update values => (m.reply (.update values)).isOk
  | _ => false

/-- The setup at the last successful update of a run; `setup` before the first. -/
def publishedSetup : Model α → Setup α → List (Request α) → Setup α
  | _, setup, [] => setup
  | m, setup, request :: rest =>
    publishedSetup (m.after request) (if m.publishes request then m.setup else setup) rest

theorem compute_coordinates {r : Robot α} {setup : Setup α} {q : Coordinates α}
    {snapshot : Snapshot α r.tree.size} (h : compute r setup q = .ok snapshot) :
    snapshot.state.coordinates = q := by
  obtain ⟨state, hs, h⟩ := bind_eq_ok.1 h
  obtain ⟨sensitivity, -, h⟩ := bind_eq_ok.1 h
  cases h
  obtain ⟨frames, -, hs⟩ := bind_eq_ok.1 hs
  obtain ⟨body, -, hs⟩ := bind_eq_ok.1 hs
  obtain ⟨thrust, -, hs⟩ := bind_eq_ok.1 hs
  cases hs
  rfl

def Shows (m : Model α) (setup : Setup α) : Prop :=
  compute m.robot setup m.coordinates = .ok m.snapshot

theorem shows_start {tree : Tree α} {config : Config α} {values : List (String × α)} {m : Model α}
    (h : start tree config values = .ok m) : m.Shows m.setup := by
  obtain ⟨robot, -, h⟩ := bind_eq_ok.1 h
  obtain ⟨applied, -, h⟩ := bind_eq_ok.1 h
  obtain ⟨snapshot, hc, h⟩ := bind_eq_ok.1 h
  cases h
  exact hc

theorem Shows.after {m : Model α} {setup : Setup α} (h : m.Shows setup) (request : Request α) :
    (m.after request).Shows (if m.publishes request then m.setup else setup) := by
  have hs := m.served request
  generalize hr : m.reply request = answer at hs
  generalize m.after request = m' at hs ⊢
  cases hs with
  | published _ hc => simpa [publishes, hr, Except.isOk, Except.toBool, Shows] using hc
  | mounted | dismounted | oriented | checked => simpa [publishes, Shows] using h
  | refused =>
    cases request <;> simpa [publishes, hr, Except.isOk, Except.toBool, Shows] using h

theorem Shows.afterAll {m : Model α} {setup : Setup α} (h : m.Shows setup)
    (requests : List (Request α)) :
    (m.afterAll requests).Shows (m.publishedSetup setup requests) := by
  induction requests generalizing m setup with
  | nil => exact h
  | cons request rest ih => exact ih (h.after request)

theorem after_of_error {m : Model α} {request : Request α} {e : RequestError α}
    (h : m.reply request = .error e) : m.after request = m := by
  have hs := m.served request
  rw [h] at hs
  generalize m.after request = m' at hs ⊢
  cases hs
  rfl

theorem after_selfCheck (m : Model α) : m.after .selfCheck = m := by
  have hs := m.served .selfCheck
  generalize m.reply .selfCheck = answer at hs
  generalize m.after .selfCheck = m' at hs ⊢
  cases hs <;> rfl

theorem after_of_not_publishes {m : Model α} {request : Request α}
    (h : m.publishes request = false) : ∃ setup, m.after request = { m with setup } := by
  have hs := m.served request
  generalize hr : m.reply request = answer at hs
  generalize m.after request = m' at hs ⊢
  cases hs with
  | published => simp [publishes, hr, Except.isOk, Except.toBool] at h
  | mounted | dismounted | oriented => exact ⟨_, rfl⟩
  | checked | refused => exact ⟨m.setup, rfl⟩

/-- What holds of a model between two requests, if its last successful update found `setup`. -/
structure Settled (m : Model α) (setup : Setup α) : Prop where
  /-- The snapshot is complete and belongs to the coordinates. -/
  snapshot : compute m.robot setup m.coordinates = .ok m.snapshot
  coordinates : m.snapshot.state.coordinates = m.coordinates
  /-- A request that fails changes nothing. -/
  refused : ∀ request e, m.reply request = .error e → m.after request = m
  /-- A self-check changes nothing, whether it answers or fails. -/
  checked : m.after .selfCheck = m
  /-- Only a successful update writes coordinates or snapshot. -/
  unpublished : ∀ request, m.publishes request = false →
    ∃ setup', m.after request = { m with setup := setup' }

/-- After any run of requests the model is settled for the setup at the last successful update. -/
theorem published_after_run {tree : Tree α} {config : Config α} {values : List (String × α)}
    {m : Model α} (h : start tree config values = .ok m) (requests : List (Request α)) :
    (m.afterAll requests).Settled (m.publishedSetup m.setup requests) := by
  have shows := (shows_start h).afterAll requests
  exact ⟨shows, compute_coordinates shows, fun _ _ => after_of_error, after_selfCheck _,
    fun _ => after_of_not_publishes⟩

end Model

/-! ## A robot with four rotors -/

section

def quadRotor (name : String) (x y axis : Float) : SegmentRecord Float where
  name
  parent := some "fc"
  offset := ⟨⟨x, y, 0⟩, Quat.identity⟩
  joint := ⟨name ++ "_joint", .rotor ⟨0, 0, axis⟩⟩
  inertia := 0

def quad : List (SegmentRecord Float) :=
  [{ name := "fc", parent := none, offset := Frame.identity, joint := ⟨"fc_root", .floating⟩,
     inertia := Inertia.pointMass 1 0 },
    quadRotor "thrust1" 1 0 1, quadRotor "thrust2" 0 1 (-1), quadRotor "thrust3" (-1) 0 1,
    quadRotor "thrust4" 0 (-1) (-1)]

theorem start_quad :
    (Tree.ofRecords quad >>= fun tree => Model.start tree .standard []).isOk = true := by
  decide +kernel

/-- The quad tilted, checked, asked to take off a module that it does not carry, and updated. -/
theorem published_after_run_quad : ∃ tree m,
    Tree.ofRecords quad = .ok tree ∧ Model.start tree .standard [] = .ok m ∧
    (m.afterAll [.orient ⟨0.6, 0.8, 0, 0⟩, .selfCheck, .dismount "gripper", .update []]).Settled
      (m.publishedSetup m.setup
        [.orient ⟨0.6, 0.8, 0, 0⟩, .selfCheck, .dismount "gripper", .update []]) := by
  have h := start_quad
  generalize hs : Tree.ofRecords quad >>= (fun tree => Model.start tree .standard []) = out at h
  cases out with
  | error e => cases h
  | ok m =>
    obtain ⟨tree, ht, hm⟩ := bind_eq_ok.1 hs
    exact ⟨tree, m, ht, hm, Model.published_after_run hm _⟩

end

end Multirotor
