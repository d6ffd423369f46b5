import Multirotor.Proofs.Hover
import Multirotor.Proofs.Requests
import Multirotor.Sensitivity.Analytic

/-!
# Displacements

The states from which differences are taken have postures at every step,
also where no thrust is found for them. Along such postures a point that is
fixed in a segment moves as the velocity field of the nominal state says
(`exists_path`), whatever desired orientations the steps push.
-/

namespace Multirotor

theorem Vec3.normSq_unit (k : Fin 3) : (Vec3.unit k : Vec3 ℝ).normSq = 1 := by
  fin_cases k <;> simp [Vec3.unit, Vec3.unitX, Vec3.unitY, Vec3.unitZ, Vec3.normSq_eq, Vec3.dot_eq]

theorem Coordinates.shifted_zero (q : Coordinates ℝ) (c : Nat) : q.shifted c 0 = q := by
  unfold shifted get
  rw [add_zero]
  by_cases hc : c < q.values.length
  · simp [hc]
  · rw [List.set_eq_of_length_le (not_lt.mp hc)]

namespace Motion

/-- The place of the motion among the columns of a Jacobian. -/
def column : Motion → Nat
  | shift k => k
  | turn k => 3 + k
  | bend c => 6 + c

/-- The axes at the centre of gravity turn with the root, and are held while a joint moves. -/
noncomputable def levelAt (level : Quat ℝ) : Motion → ℝ → Quat ℝ
  | turn k, step => level * .ofAxisAngle (Vec3.unit k) step
  | _, _ => level

noncomputable def coordinatesAt (q : Coordinates ℝ) : Motion → ℝ → Coordinates ℝ
  | bend c, step => q.shifted c step
  | _, _ => q

variable (m : Motion) {level : Quat ℝ} {q : Coordinates ℝ}

theorem levelAt_zero : m.levelAt level 0 = level := by
  cases m with
  | turn k => rw [levelAt, Quat.ofAxisAngle_zero, Quat.mul_identity]
  | shift | bend => rfl

theorem coordinatesAt_zero : m.coordinatesAt q 0 = q := by
  cases m with
  | bend c => exact q.shifted_zero c
  | shift | turn => rfl

theorem unit_levelAt (h : level.Unit) (step : ℝ) : (m.levelAt level step).Unit := by
  cases m with
  | turn k => exact h.mul (Quat.unit_ofAxisAngle (Vec3.normSq_unit k) step)
  | shift | bend => exact h

theorem place_coordinatesAt_isOk {t : Tree ℝ} {frames : Placement ℝ t.size}
    (h : t.place q = .ok frames) (step : ℝ) :
    ∃ frames', t.place (m.coordinatesAt q step) = .ok frames' := by
  cases m with
  | bend c => exact Tree.place_shifted_isOk h c step
  | shift | turn => exact ⟨frames, h⟩

end Motion

theorem Tree.getElem?_motions {t : Tree ℝ} {m : Motion} (h : m ∈ t.motions) :
    t.motions[m.column]? = some m := by
  cases m with
  | shift k => fin_cases k <;> rfl
  | turn k => fin_cases k <;> rfl
  | bend c =>
    have hc : c < t.jointCount := by simpa [motions] using h
    have hlen : ((List.finRange 3).map Motion.shift ++ (List.finRange 3).map Motion.turn).length = 6 := rfl
    rw [motions, Motion.column, List.getElem?_append_right (hlen ▸ Nat.le_add_right 6 c), hlen,
      Nat.add_sub_cancel_left, List.getElem?_map, List.getElem?_range hc]
    rfl

theorem Tree.shift_mem_motions {α : Type} (t : Tree α) (k : Fin 3) : .shift k ∈ t.motions := by
  simp [motions]

theorem Tree.turn_mem_motions {α : Type} (t : Tree α) (k : Fin 3) : .turn k ∈ t.motions := by
  simp [motions]

theorem Tree.getElem?_columns {β γ : Type} {t : Tree ℝ} {m : Motion} (h : m ∈ t.motions)
    (rates : Motion → β) (f : β → γ) :
    ((t.motions.map rates).map f)[m.column]? = some (f (rates m)) := by
  rw [List.getElem?_map, List.getElem?_map, getElem?_motions h]
  rfl

namespace Robot

/-! ## Points along the postures -/

section
variable {r : Robot ℝ} {s : HoverState ℝ r.tree.size}

theorem hinge?_velocities (hr : r.Assembled) (haxes : s.axes = r.axesAt s.posture) {c : Nat}
    {j : Fin r.tree.size} (hj : r.tree.joints[c]? = some j) (i : Fin r.tree.size) :
    (r.velocities s).hinge? c i = if r.tree.moves c i then
      some (r.tree.jointAxis s.frames s.cog.level c j) else none := by
  have haxis : s.axes[c]? = some (r.tree.jointAxis s.frames s.cog.level c j) := by
    rw [haxes, axesAt, Tree.getElem?_jointAxes hr.wellFormed hr.rooted, hj]
    rfl
  rw [← haxis]
  rfl

variable {path : ℝ → Posture r.tree.size} (hlevel : s.cog.level.Unit)
include hlevel

theorem hasRate_point_turn {k : Fin 3} (hframes : ∀ t, (path t).frames = s.frames)
    (hturn : ∀ t, (path t).cog.level = s.cog.level * .ofAxisAngle (Vec3.unit k) t)
    (i : Fin r.tree.size) (x : Vec3 ℝ) : Vec3.HasRate (fun t => (path t).point i x)
      ((r.velocities s).point (.turn k) i (s.posture.point i x)) := by
  have hpoint : ∀ t, (path t).point i x =
      s.cog.level.rotate ((Quat.ofAxisAngle (Vec3.unit k) t).rotate ((s.frames.get i).point x)) :=
    fun t => by
      rw [Posture.point, hturn, hframes,
        hlevel.mul_rotate (Quat.unit_ofAxisAngle (Vec3.normSq_unit k) t)]
  simp only [hpoint]
  refine ((Vec3.hasRate_turn _ _).rotate hlevel).congr_rate ?_
  rw [hlevel.rotate_cross, hlevel.rotate_eq (Vec3.unit k), Mat3.apply_unit]
  rfl

variable (hr : r.Assembled) (hroot : (r.tree.segment r.tree.root).joint.kind.isRevolute = false)
  (hq : r.tree.place s.coordinates = .ok s.frames) (haxes : s.axes = r.axesAt s.posture)
include hr hroot hq haxes

theorem hasRate_point_bend {c : Nat} (hc : c < r.tree.jointCount)
    (hframes : ∀ t, r.tree.place (s.coordinates.shifted c t) = .ok (path t).frames)
    (hheld : ∀ t, (path t).cog.level = s.cog.level) (i : Fin r.tree.size) (x : Vec3 ℝ) :
    Vec3.HasRate (fun t => (path t).point i x)
      ((r.velocities s).point (.bend c) i (s.posture.point i x)) := by
  obtain ⟨j, hj⟩ : ∃ j, r.tree.joints[c]? = some j := ⟨_, List.getElem?_eq_getElem hc⟩
  set o := (s.frames.get j).origin with ho
  set a := (s.frames.get j).rotation.rotate (r.tree.segment j).joint.kind.hinge with ha
  set y := (s.frames.get i).point x with hy
  have hrigid := hr.rigid.place hq
  have hnorm : a.normSq = 1 :=
    ((hrigid j).normSq_rotate _).trans (Tree.normSq_hinge hr.wellFormed hr.rooted hr.rigid hj)
  have hget := fun t => Tree.get_shifted hr.wellFormed hr.rooted hr.rigid hroot hq (hframes t) hj i
  unfold VelocityField.point
  simp only [hinge?_velocities hr haxes hj]
  -- Beyond the joint the point turns about its axis, elsewhere it stands still.
  by_cases hm : r.tree.moves c i = true
  · have hpoint : ∀ t, (path t).point i x =
        s.cog.level.rotate (o + (Quat.ofAxisAngle a t).rotate (y - o)) := fun t => by
      rw [Posture.point, hheld, hget, if_pos hm, (Frame.rigid_turn hnorm).mul_point (hrigid i),
        Frame.turn_point]
    simp only [hpoint, if_pos hm]
    refine (((Vec3.hasRate_const o).add (Vec3.hasRate_turn a (y - o))).rotate hlevel).congr_rate ?_
    rw [zero_add, hlevel.rotate_cross, Quat.rotate_sub]
    rfl
  · have hpoint : ∀ t, (path t).point i x = s.posture.point i x := fun t => by
      rw [Posture.point, hheld, hget, if_neg hm]
      rfl
    simp only [hpoint, if_neg hm]
    exact Vec3.hasRate_const _

end

variable [SingularValues ℝ] (r : Robot ℝ) (s : HoverState ℝ r.tree.size)

/-! ## Trials and their postures -/

/-- The trials at a step along a motion. A shift of the root needs none. -/
inductive Displaces : Motion → (ℝ → Trial ℝ (HoverState ℝ r.tree.size)) → Prop
  | turn (k : Fin 3) : Displaces (.turn k) (r.turned s k)
  | bend {c : Nat} (h : c < r.tree.jointCount) : Displaces (.bend c) (r.bent s c)

/-- What a step along a motion pushes: the base link as it is then, seen along the level axes. -/
noncomputable def setupAt (payload : Payload ℝ) (m : Motion) (step : ℝ)
    (frames : Placement ℝ r.tree.size) : Setup ℝ :=
  ⟨payload, m.levelAt s.cog.level step * (frames.get r.baselink).rotation⟩

/-- The postures at which the trials solve, from any setup with the same modules. -/
structure Traces (payload : Payload ℝ) (m : Motion)
    (trial : ℝ → Trial ℝ (HoverState ℝ r.tree.size)) (path : ℝ → Posture r.tree.size) : Prop where
  start : path 0 = s.posture
  posture : ∀ step, r.posture (r.setupAt s payload m step (path step).frames)
    (m.coordinatesAt s.coordinates step) = .ok (path step)
  run : ∀ step setup, setup.payload = payload → (trial step).run setup =
    (r.solve (r.setupAt s payload m step (path step).frames) (m.coordinatesAt s.coordinates step),
      r.setupAt s payload m step (path step).frames)
  solved : ∀ step setup s', setup.payload = payload → ((trial step).run setup).1 = .ok s' →
    s'.posture = path step
  level : ∀ step, (path step).cog.level = m.levelAt s.cog.level step

/-- The posture changes at first order as the velocity field of the state says. -/
structure Moves (m : Motion) (path : ℝ → Posture r.tree.size) : Prop where
  start : path 0 = s.posture
  sound : ∀ step, (path step).Sound r.groups
  loaded : ∀ step, (path step).loaded = s.loaded
  mass : ∀ step, (path step).cog.mass = s.cog.mass
  point : ∀ i x, Vec3.HasRate (fun t => (path t).point i x)
    ((r.velocities s).point m i (s.posture.point i x))

variable {r s} {m : Motion} {trial : ℝ → Trial ℝ (HoverState ℝ r.tree.size)}

theorem Displaces.mem_motions (hd : r.Displaces s m trial) :
    m ∈ r.tree.motions := by
  cases hd with
  | turn k => exact r.tree.turn_mem_motions k
  | bend hc => simp [Tree.motions, hc]

theorem Traces.hovers {payload : Payload ℝ} {path : ℝ → Posture r.tree.size}
    (h : r.Traces s payload m trial path) {step : ℝ} {setup : Setup ℝ}
    {s' : HoverState ℝ r.tree.size} (hpay : setup.payload = payload)
    (hs : ((trial step).run setup).1 = .ok s') :
    ∃ setup' q, r.Hovers setup' q s' := by
  rw [h.run step setup hpay] at hs
  exact ⟨_, _, hovers_of_solve hs⟩

/-! ## One step -/

variable (r s) in
/-- The posture that a step along a motion leads to. -/
structure Displaced (payload : Payload ℝ) (m : Motion) (step : ℝ) (p : Posture r.tree.size) :
    Prop where
  posture : r.posture (r.setupAt s payload m step p.frames) (m.coordinatesAt s.coordinates step) =
    .ok p
  sound : p.Sound r.groups
  loaded : p.loaded = s.loaded
  mass : p.cog.mass = s.cog.mass
  level : p.cog.level = m.levelAt s.cog.level step

section
variable {payload : Payload ℝ} {step : ℝ} {p : Posture r.tree.size}

omit [SingularValues ℝ] in
theorem Displaced.place (h : r.Displaced s payload m step p) :
    r.tree.place (m.coordinatesAt s.coordinates step) = .ok p.frames :=
  (posture_eq_ok.mp h.posture).1

variable {setup : Setup ℝ} {q : Coordinates ℝ}

theorem Hovers.place (hs : r.Hovers setup q s) : r.tree.place s.coordinates = .ok s.frames := by
  rw [hs.coordinates]
  exact (posture_eq_ok.mp hs.posture).1

theorem Hovers.exists_displaced (hr : r.Assembled) (ha : r.Admits setup) (hs : r.Hovers setup q s)
    (m : Motion) (step : ℝ) : ∃ p, r.Displaced s setup.payload m step p := by
  obtain ⟨frames, hframes⟩ := m.place_coordinatesAt_isOk hs.place step
  have hrigid := hr.rigid.place hframes r.baselink
  have hadmits : r.Admits (r.setupAt s setup.payload m step frames) :=
    ⟨ha.payload, (m.unit_levelAt (hr.sound ha hs.posture).level step).mul hrigid⟩
  have hpayload : (r.setupAt s setup.payload m step frames).payload = setup.payload := rfl
  obtain ⟨p, hp, rfl, hloaded, hmass⟩ := hr.posture_isOk ha hs.posture hpayload hframes
  exact ⟨p, hp, hr.sound hadmits hp, hloaded, hmass, level_of_posture hrigid rfl hp⟩

theorem Displaced.eq_start (hr : r.Assembled) (hs : r.Hovers setup q s)
    (h : r.Displaced s setup.payload m 0 p) : p = s.posture := by
  have hplace := h.place
  rw [m.coordinatesAt_zero] at hplace
  -- The state was solved for the orientation that its own frames give back.
  have hsetup : r.setupAt s setup.payload m 0 p.frames = setup := by
    rw [setupAt, m.levelAt_zero, ← Except.ok.inj (hs.place.symm.trans hplace)]
    exact congrArg (Setup.mk setup.payload)
      (desired_of_posture (hr.rigid.place hs.place _) hs.posture)
  have hposture := h.posture
  rw [hsetup, m.coordinatesAt_zero, hs.coordinates] at hposture
  exact Except.ok.inj (hposture.symm.trans hs.posture)

/-- The trials push this setup, whatever was desired before. -/
theorem Displaced.run (hd : r.Displaces s m trial) (hq : r.tree.place s.coordinates = .ok s.frames)
    (h : r.Displaced s payload m step p) (setup : Setup ℝ) (hpay : setup.payload = payload) :
    (trial step).run setup = (r.solve (r.setupAt s payload m step p.frames)
      (m.coordinatesAt s.coordinates step), r.setupAt s payload m step p.frames) := by
  subst hpay
  have hplace := h.place
  cases hd with
  | turn k =>
    rw [← Except.ok.inj (hq.symm.trans hplace)]
    exact r.solveNow_run s.coordinates _
  | @bend c hc =>
    have hpush : (r.bent s c step).run setup = (r.solveNow (s.coordinates.shifted c step)).run
        (r.setupAt s setup.payload (.bend c) step p.frames) := by
      rw [bent, run_bind, run_lift]
      dsimp only [Motion.coordinatesAt] at hplace
      rw [hplace]
      rfl
    rw [hpush, solveNow_run]
    rfl

end

/-! ## All steps -/

/-- Along every motion there is a posture at each step, and it changes as the velocities say. -/
theorem exists_path {setup : Setup ℝ} {q : Coordinates ℝ} (hr : r.Assembled) (ha : r.Admits setup)
    (hroot : (r.tree.segment r.tree.root).joint.kind.isRevolute = false)
    (hs : r.Hovers setup q s) (hd : r.Displaces s m trial) :
    ∃ path, r.Traces s setup.payload m trial path ∧ r.Moves s m path := by
  -- A trial may find no thrust at a step, so the postures are chosen before any is run.
  choose path hpath using hs.exists_displaced hr ha m
  have hstart : path 0 = s.posture := (hpath 0).eq_start hr hs
  have hlevel : s.cog.level.Unit := (hr.sound ha hs.posture).level
  refine ⟨path, ⟨hstart, fun t => (hpath t).posture, fun t => (hpath t).run hd hs.place,
    fun t setup' s' hpay hok => ?_, fun t => (hpath t).level⟩, hstart, fun t => (hpath t).sound,
    fun t => (hpath t).loaded, fun t => (hpath t).mass, fun i x => ?_⟩
  · rw [(hpath t).run hd hs.place setup' hpay] at hok
    exact Except.ok.inj ((hovers_of_solve hok).posture.symm.trans (hpath t).posture)
  · cases hd with
    | turn k =>
      have hframes : ∀ t, (path t).frames = s.frames := fun t =>
        Except.ok.inj ((hpath t).place.symm.trans hs.place)
      exact hasRate_point_turn hlevel hframes (fun t => (hpath t).level) i x
    | bend hc =>
      exact hasRate_point_bend hlevel hr hroot hs.place hs.axes hc (fun t => (hpath t).place)
        (fun t => (hpath t).level) i x

end Robot

end Multirotor
