import Multirotor.Proofs.ExtraModule
import Multirotor.Proofs.Requests

/-!
# History

An update reads the robot, the mounted modules, the desired orientation and
the coordinates of a model. Of the requests before it nothing else is left:
two models of one robot that agree in these answer every update alike and
publish the same snapshot (`updates_history_independent`), on any scalars,
with every operation rounded or not.
-/

namespace Multirotor

namespace Model

variable {α : Type} [Scalar α] [SingularValues α] {m m' : Model α}

/-- Both models give every update the same answer, and are the same once one is published. -/
structure UpdateAlike (m m' : Model α) : Prop where
  reply : ∀ values, m.reply (.update values) = m'.reply (.update values)
  after : ∀ values, m.publishes (.update values) = true →
    m.after (.update values) = m'.after (.update values)

theorem updateAlike_of_eq (hr : m.robot = m'.robot) (hs : m.setup = m'.setup)
    (hq : m.coordinates = m'.coordinates) : UpdateAlike m m' := by
  obtain ⟨robot, setup, q, snapshot⟩ := m
  obtain ⟨robot', setup', q', snapshot'⟩ := m'
  cases hr
  cases hs
  cases hq
  -- The snapshots, which may differ, are not read.
  refine ⟨fun values => ?_, fun values hp => ?_⟩
  · rw [reply_update, reply_update]
  · simp only [publishes, Model.reply, Model.after, serve, run_adapt, run_map, update, run_bind,
      run_get, run_lift] at hp ⊢
    cases ha : q.apply robot.tree values with
    | error e => simp [ha, Except.isOk, Except.toBool, Except.map, Except.mapError] at hp
    | ok applied =>
      cases hc : compute robot setup applied.1 with
      | error e => simp [ha, hc, Except.isOk, Except.toBool, Except.map, Except.mapError] at hp
      | ok snapshot => simp only [hc]; rfl

theorem eq_of_shows (hr : m.robot = m'.robot) (hs : m.setup = m'.setup)
    (hq : m.coordinates = m'.coordinates) (h : m.Shows m.setup) (h' : m'.Shows m'.setup) :
    m = m' := by
  obtain ⟨robot, setup, q, snapshot⟩ := m
  obtain ⟨robot', setup', q', snapshot'⟩ := m'
  cases hr
  cases hs
  cases hq
  cases Except.ok.inj (h.symm.trans h')
  rfl

/-! ## What requests keep -/

theorem robot_after (m : Model α) (request : Request α) : (m.after request).robot = m.robot := by
  have hs := m.served request
  generalize m.reply request = answer at hs
  generalize m.after request = m' at hs ⊢
  cases hs <;> rfl

theorem robot_afterAll (m : Model α) (requests : List (Request α)) :
    (m.afterAll requests).robot = m.robot := by
  induction requests generalizing m with
  | nil => rfl
  | cons request rest ih => exact (ih (m.after request)).trans (m.robot_after request)

theorem ordered_after (h : m.setup.payload.Ordered) (request : Request α) :
    (m.after request).setup.payload.Ordered := by
  have hs := m.served request
  generalize m.reply request = answer at hs
  generalize m.after request = m' at hs ⊢
  cases hs with
  | mounted hp => exact h.add hp
  | dismounted hp => exact h.remove hp
  | published | oriented | checked | refused => exact h

theorem ordered_afterAll (h : m.setup.payload.Ordered) (requests : List (Request α)) :
    (m.afterAll requests).setup.payload.Ordered := by
  induction requests generalizing m with
  | nil => exact h
  | cons request rest ih => exact ih (ordered_after h request)

theorem setup_after_update (m : Model α) (values : List (String × α)) :
    (m.after (.update values)).setup = m.setup := by
  have hs := m.served (.update values)
  generalize m.reply (.update values) = answer at hs
  generalize m.after (.update values) = m' at hs ⊢
  cases hs <;> rfl

theorem setup_updates (m : Model α) (batches : List (List (String × α))) :
    (m.afterAll (batches.map .update)).setup = m.setup := by
  induction batches generalizing m with
  | nil => rfl
  | cons values rest ih => exact (ih (m.after (.update values))).trans (m.setup_after_update values)

theorem coordinates_after_update_nil (m : Model α) :
    (m.after (.update [])).coordinates = m.coordinates := by
  have hs := m.served (.update [])
  generalize m.reply (.update []) = answer at hs
  generalize m.after (.update []) = m' at hs ⊢
  cases hs with
  | published ha _ =>
    cases ha
    rfl
  | refused => rfl

theorem coordinates_after_of_not_publishes (request : Request α)
    (h : m.publishes request = false) : (m.after request).coordinates = m.coordinates := by
  obtain ⟨setup, hafter⟩ := after_of_not_publishes h
  rw [hafter]

theorem afterAll_append (m : Model α) (requests rest : List (Request α)) :
    m.afterAll (requests ++ rest) = (m.afterAll requests).afterAll rest := List.foldl_append

section
variable {tree : Tree α} {config : Config α} {values values' : List (String × α)}

theorem start_eq_ok (h : start tree config values = .ok m) :
    Robot.ofConfig tree config = .ok m.robot ∧ m.setup = m.robot.initialSetup := by
  obtain ⟨robot, hr, h⟩ := bind_eq_ok.1 h
  obtain ⟨applied, -, h⟩ := bind_eq_ok.1 h
  obtain ⟨snapshot, -, h⟩ := bind_eq_ok.1 h
  cases h
  exact ⟨hr, rfl⟩

theorem ordered_start (h : start tree config values = .ok m) : m.setup.payload.Ordered := by
  rw [(start_eq_ok h).2]
  exact .nil

end

/-! ## A module on and off -/

/-- Mounts a module, updates with it, takes it off and updates without it. -/
def excursion (m : Model α) (x : ExtraModule α) (carrying bare : List (List (String × α))) :
    Model α :=
  m.afterAll (.mount x :: carrying.map .update ++ .dismount x.name :: bare.map .update)

theorem coordinates_excursion_idle (m : Model α) (x : ExtraModule α) :
    (m.excursion x [[]] [[]]).coordinates = m.coordinates := by
  have hmount : (m.after (.mount x)).coordinates = m.coordinates :=
    coordinates_after_of_not_publishes (.mount x) rfl
  have hdismount : ∀ n : Model α, (n.after (.dismount x.name)).coordinates = n.coordinates :=
    fun n => coordinates_after_of_not_publishes (.dismount x.name) rfl
  unfold excursion afterAll
  simp only [List.map_cons, List.map_nil, List.cons_append, List.nil_append, List.foldl_cons,
    List.foldl_nil, coordinates_after_update_nil, hdismount, hmount]

/-- `n` is `m` again, or will be once it is updated to the coordinates of `m`. -/
structure Restores (m n : Model α) : Prop where
  setup : n.setup = m.setup
  updates : n.coordinates = m.coordinates → UpdateAlike n m
  published : m.Shows m.setup → ∀ values, n.publishes (.update values) = true →
    (n.after (.update values)).coordinates = m.coordinates → n.after (.update values) = m

theorem setup_excursion {x : ExtraModule α} (hx : m.reply (.mount x) = .ok .done)
    (carrying bare : List (List (String × α))) : (m.excursion x carrying bare).setup = m.setup := by
  have hmount := m.served (.mount x)
  rw [hx] at hmount
  obtain ⟨hnone, hsetup⟩ : m.setup.payload.find? x.name = none ∧ (m.after (.mount x)).setup =
      ⟨⟨Payload.insert x m.setup.payload.modules⟩, m.setup.desired⟩ := by
    generalize m.after (.mount x) = m' at hmount ⊢
    cases hmount with
    | mounted hp =>
      refine ⟨Payload.find?_of_add hp, ?_⟩
      rw [← (Payload.add_eq_ok hp).2]
  let carried := (m.after (.mount x)).afterAll (carrying.map .update)
  have hcarried : carried.setup = _ := (setup_updates _ carrying).trans hsetup
  have hdismount := carried.served (.dismount x.name)
  have hbare : (carried.after (.dismount x.name)).setup = m.setup := by
    have hremove : carried.setup.payload.remove x.name = .ok (x, m.setup.payload) := by
      rw [hcarried]
      exact Payload.remove_insert hnone
    have hreply : carried.reply (.dismount x.name) = .ok (.dismounted x) := by
      simp only [Model.reply, serve, run_adapt, run_map, dismount, run_bind, run_get, run_lift,
        hremove]
      rfl
    rw [hreply] at hdismount
    generalize carried.after (.dismount x.name) = m' at hdismount ⊢
    cases hdismount with
    | dismounted hp =>
      cases Except.ok.inj (hremove.symm.trans hp)
      rw [hcarried]
  unfold excursion
  rw [List.cons_append, ← List.singleton_append, afterAll_append, afterAll_append]
  exact (setup_updates _ bare).trans hbare

theorem restores_excursion {setup : Setup α} (hm : m.Shows setup) {x : ExtraModule α}
    (hx : m.reply (.mount x) = .ok .done) (carrying bare : List (List (String × α))) :
    Restores m (m.excursion x carrying bare) := by
  have hrobot : (m.excursion x carrying bare).robot = m.robot := robot_afterAll _ _
  have hsetup := setup_excursion hx carrying bare
  refine ⟨hsetup, updateAlike_of_eq hrobot hsetup, fun hshows values hp hq => ?_⟩
  have hshown := (hm.afterAll (.mount x :: carrying.map .update ++
    .dismount x.name :: bare.map .update)).after (.update values)
  rw [show m.afterAll _ = m.excursion x carrying bare from rfl, if_pos hp] at hshown
  have hafter := setup_after_update (m.excursion x carrying bare) values
  rw [← hafter] at hshown
  exact eq_of_shows ((robot_after _ _).trans hrobot) (hafter.trans hsetup) hq hshown hshows

section
variable {tree : Tree α} {config : Config α} {values values' : List (String × α)}

theorem updates_history_independent (h : start tree config values = .ok m)
    (h' : start tree config values' = .ok m') (requests requests' : List (Request α)) :
    ((∀ x, x ∈ (m.afterAll requests).setup.payload.modules ↔
        x ∈ (m'.afterAll requests').setup.payload.modules) →
      (m.afterAll requests).setup.desired = (m'.afterAll requests').setup.desired →
      (m.afterAll requests).coordinates = (m'.afterAll requests').coordinates →
      UpdateAlike (m.afterAll requests) (m'.afterAll requests')) ∧
    ∀ x carrying bare, (m.afterAll requests).reply (.mount x) = .ok .done →
      Restores (m.afterAll requests) ((m.afterAll requests).excursion x carrying bare) := by
  refine ⟨fun hmem hdesired hq => ?_, fun x carrying bare hx =>
    restores_excursion ((shows_start h).afterAll requests) hx carrying bare⟩
  have hrobot : m.robot = m'.robot :=
    Except.ok.inj ((start_eq_ok h).1.symm.trans (start_eq_ok h').1)
  have hpayload := (ordered_afterAll (ordered_start h) requests).eq_of_mem_iff
    (ordered_afterAll (ordered_start h') requests') hmem
  have hsetup : (m.afterAll requests).setup = (m'.afterAll requests').setup := by
    generalize (m.afterAll requests).setup = s at hpayload hdesired ⊢
    generalize (m'.afterAll requests').setup = s' at hpayload hdesired ⊢
    cases s
    cases s'
    cases hpayload
    cases hdesired
    rfl
  exact updateAlike_of_eq
    ((robot_afterAll m requests).trans (hrobot.trans (robot_afterAll m' requests').symm)) hsetup hq

end

end Model

/-! ## A gripper -/

section

def gripper : ExtraModule Float :=
  ⟨"gripper", "fc", 0, .identity, .pointMass 0.5 0⟩

theorem mount_gripper : (Tree.ofRecords quad >>= fun tree => do
    let m ← Model.start tree .standard []
    (m.reply (.mount gripper)).mapError fun _ => .tree .empty).isOk = true := by
  decide +kernel

/-- A quad that carried a gripper for an update, beside one that was only checked. -/
theorem updates_history_independent_quad : ∃ tree m,
    Tree.ofRecords quad = .ok tree ∧ Model.start tree .standard [] = .ok m ∧
    m.reply (.mount gripper) = .ok .done ∧
    (m.excursion gripper [[]] [[]]).UpdateAlike (m.after .selfCheck) ∧
    m.Restores (m.excursion gripper [[]] [[]]) := by
  have h := mount_gripper
  generalize hs : (Tree.ofRecords quad >>= fun tree => do
    let m ← Model.start tree .standard []
    (m.reply (.mount gripper)).mapError fun _ => ModelError.tree .empty) = out at h
  cases out with
  | error e => cases h
  | ok answer =>
    obtain ⟨tree, ht, hs⟩ := bind_eq_ok.1 hs
    obtain ⟨m, hm, hs⟩ := bind_eq_ok.1 hs
    have hmount : m.reply (.mount gripper) = .ok .done := by
      have hserved := m.served (.mount gripper)
      generalize m.reply (.mount gripper) = given at hserved hs
      generalize m.after (.mount gripper) = m' at hserved
      cases hserved with
      | mounted => rfl
      | refused => cases hs
    have hsetup := m.setup_excursion hmount [[]] [[]]
    have hq : (m.excursion gripper [[]] [[]]).coordinates = (m.after .selfCheck).coordinates := by
      rw [Model.coordinates_excursion_idle, Model.after_selfCheck]
    have hindependent := Model.updates_history_independent hm hm
      (.mount gripper :: [[]].map .update ++ .dismount gripper.name :: [[]].map .update)
      [.selfCheck]
    rw [show m.afterAll _ = m.excursion gripper [[]] [[]] from rfl,
      show m.afterAll _ = m.after .selfCheck from rfl] at hindependent
    have hrestores := (Model.updates_history_independent hm hm [] []).2 gripper [[]] [[]] hmount
    refine ⟨tree, m, ht, hm, hmount, hindependent.1 (fun x => ?_) ?_ hq, hrestores⟩
    · rw [hsetup, Model.after_selfCheck]
    · rw [hsetup, Model.after_selfCheck]

end

end Multirotor
