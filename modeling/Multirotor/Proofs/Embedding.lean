import Multirotor.Proofs.JointPath
import Multirotor.Proofs.Placement
import Multirotor.Robot

/-!
# Robots within robots

A robot can be part of a larger one whose further segments carry no joint of
their own. The number of a segment changes, where it is and what moves it
does not. If the groups of both weigh the same, both hover alike
(`Embeds.solve`).
-/

namespace Multirotor

variable {α : Type}

namespace Tree

/-- Each segment of `t` is one of `t'`, under the same parent and moved by the same coordinates. -/
structure Embeds (t t' : Tree α) (e : Fin t.size → Fin t'.size) : Prop where
  name : ∀ i, (t'.segment (e i)).name = (t.segment i).name
  parent : ∀ i, (t'.segment (e i)).parent = (t.segment i).parent.map e
  offset : ∀ i, (t'.segment (e i)).offset = (t.segment i).offset
  joint : ∀ i, (t'.segment (e i)).joint = (t.segment i).joint
  jointPath : ∀ i, (t'.segment (e i)).jointPath = (t.segment i).jointPath
  joints : t'.joints = t.joints.map e

section
variable {t t' : Tree α} {e : Fin t.size → Fin t'.size} (h : t.Embeds t' e)
include h

theorem Embeds.jointCount : t'.jointCount = t.jointCount := by
  unfold Tree.jointCount
  rw [h.joints, List.length_map]

theorem Embeds.moves (c : Nat) (i : Fin t.size) : t'.moves c (e i) = t.moves c i := by
  unfold Tree.moves
  rw [h.jointPath]

end

end Tree

/-! ## Data of other segments -/

section
variable {n n' : Nat} (e : Fin n → Fin n')

def PlacedRotor.map (r : PlacedRotor α n) : PlacedRotor α n' := { r with segment := e r.segment }

def JointAxis.map (j : JointAxis α n) : JointAxis α n' := { j with segment := e j.segment }

def Load.map (l : Load α n) : Load α n' := { l with segment := e l.segment }

def RotorLayout.map (l : RotorLayout α n) : RotorLayout α n' :=
  { l with segments := l.segments.map e }

/-- Both states are of one robot, which is all or a part. -/
structure HoverState.Within (s : HoverState α n) (s' : HoverState α n') : Prop where
  coordinates : s'.coordinates = s.coordinates
  frames : ∀ i, s'.frames.get (e i) = s.frames.get i
  cog : s'.cog = s.cog
  loaded : s'.loaded = s.loaded
  rotors : s'.rotors = s.rotors.map (PlacedRotor.map e)
  allocation : s'.allocation = s.allocation
  gravity : s'.gravity = s.gravity
  thrust : s'.thrust = s.thrust
  axes : s'.axes = s.axes.map (JointAxis.map e)
  jointTorque : s'.jointTorque = s.jointTorque
  margins : s'.margins = s.margins
  verdict : s'.verdict = s.verdict

end

namespace Robot

/-- The robot `r` is part of `r'`, up to the inertias of the groups. -/
structure Embeds (r r' : Robot α) (e : Fin r.tree.size → Fin r'.tree.size) : Prop where
  tree : r.tree.Embeds r'.tree e
  groups : r'.groups.map (fun g => (g.base, g.name)) = r.groups.map fun g => (e g.base, g.name)
  rotors : r'.rotors = r.rotors.map e
  baselink : r'.baselink = e r.baselink
  config : r'.config = r.config

section
variable {r r' : Robot α} {e : Fin r.tree.size → Fin r'.tree.size} (h : r.Embeds r' e)
include h

theorem Embeds.map_zip {β : Type} {f : InertiaGroup α r.tree.size × Inertia α → β}
    {f' : InertiaGroup α r'.tree.size × Inertia α → β}
    (hf : ∀ g g' b, g'.base = e g.base → f' (g', b) = f (g, b)) (loaded : List (Inertia α)) :
    (r'.groups.zip loaded).map f' = (r.groups.zip loaded).map f := by
  have hbases := congrArg (List.map Prod.fst) h.groups
  rw [List.map_map, List.map_map] at hbases
  generalize r.groups = groups at hbases ⊢
  generalize r'.groups = groups' at hbases ⊢
  induction groups generalizing groups' loaded with
  | nil =>
    obtain rfl := List.map_eq_nil_iff.mp hbases
    rfl
  | cons g groups ih =>
    obtain ⟨g', rest, rfl, hg, hrest⟩ := List.map_eq_cons_iff.mp hbases
    cases loaded with
    | nil => rfl
    | cons b loaded =>
      rw [List.zip_cons_cons, List.zip_cons_cons, List.map_cons, List.map_cons, hf g g' b hg,
        ih loaded rest hrest]

theorem Embeds.names : r'.groups.map (·.name) = r.groups.map (·.name) := by
  have hsecond := congrArg (List.map Prod.snd) h.groups
  rwa [List.map_map, List.map_map] at hsecond

theorem Embeds.range : r'.range = r.range := by
  unfold Robot.range
  rw [h.config]

theorem Embeds.criteria : r'.criteria = r.criteria := by
  unfold Robot.criteria
  rw [h.config]

end

end Robot

section
variable [Scalar α]

/-! ## Trees -/

namespace Tree

variable {t t' : Tree α} {e : Fin t.size → Fin t'.size} (h : t.Embeds t' e)
include h

theorem Embeds.jointMotion (q : Coordinates α) (i : Fin t.size) :
    t'.jointMotion q (e i) = t.jointMotion q i := by
  unfold Tree.jointMotion Segment.coordinate?
  rw [h.joint, h.jointPath]

theorem Embeds.place (hr : t.Rooted) (hw : t.WellFormed) (hw' : t'.WellFormed)
    (q : Coordinates α) : SameOutcome (fun frames frames' => ∀ i, frames'.get (e i) = frames.get i)
      (t.place q) (t'.place q) := by
  by_cases hlen : q.values.length = t.jointCount
  · obtain ⟨frames, hf⟩ : ∃ frames, t.place q = .ok frames := ⟨_, if_pos hlen⟩
    obtain ⟨frames', hf'⟩ : ∃ frames, t'.place q = .ok frames :=
      ⟨_, if_pos (hlen.trans h.jointCount.symm)⟩
    rw [hf, hf']
    refine .ok fun i => ?_
    obtain ⟨k, hk⟩ := hr.depth i
    exact get_map hw hw' hf hf' h.parent h.offset (h.jointMotion q) hr.parent_root hk
  · have hf : t.place q = .error (.dimensionMismatch t.jointCount q.values.length) := if_neg hlen
    have hf' : t'.place q = .error (.dimensionMismatch t.jointCount q.values.length) := by
      unfold Tree.place
      rw [h.jointCount, if_neg hlen]
    rw [hf, hf']
    exact .error _

theorem Embeds.jointAxes {frames : Placement α t.size} {frames' : Placement α t'.size}
    (hf : ∀ i, frames'.get (e i) = frames.get i) (level : Quat α) :
    t'.jointAxes frames' level = (t.jointAxes frames level).map (JointAxis.map e) := by
  unfold Tree.jointAxes
  rw [h.joints, List.zipIdx_map, List.filterMap_map, List.map_filterMap]
  refine List.filterMap_congr fun x _ => ?_
  dsimp only [Function.comp_apply, Prod.map_fst, Prod.map_snd, id_eq]
  rw [h.joint, hf]
  cases (t.segment x.1).joint.kind with
  | revolute axis => rfl
  | fixed | floating | rotor => rfl

theorem Embeds.jointTorque (loads : List (Load α t.size)) (joint : JointAxis α t.size) :
    t'.jointTorque (loads.map (Load.map e)) (joint.map e) = t.jointTorque loads joint := by
  unfold Tree.jointTorque Tree.momentBeyond
  rw [List.filter_map, List.map_map]
  have hmoves : ((fun l => t'.moves (joint.map e).coordinate l.segment) ∘ Load.map e) =
      fun l : Load α t.size => t.moves joint.coordinate l.segment :=
    funext fun l => h.moves _ l.segment
  rw [hmoves]
  rfl

end Tree

/-! ## Rotors -/

theorem RotorLayout.extract_map {n n' : Nat} {e : Fin n → Fin n'} (l : RotorLayout α n)
    {frames : Placement α n} {frames' : Placement α n'} (hf : ∀ i, frames'.get (e i) = frames.get i)
    (cog : CentreOfGravity α) :
    (l.map e).extract frames' cog = (l.extract frames cog).map (PlacedRotor.map e) := by
  unfold extract RotorLayout.map
  rw [List.zip_map_left, List.zipIdx_map, List.map_map, List.map_map]
  refine List.map_congr_left fun x _ => ?_
  simp only [Function.comp_apply, Prod.map_fst, Prod.map_snd, id_eq, hf]
  rfl

/-! ## Robots -/

namespace Robot

variable {r r' : Robot α} {e : Fin r.tree.size → Fin r'.tree.size}

section
variable (h : r.Embeds r' e) {frames : Placement α r.tree.size} {frames' : Placement α r'.tree.size}
  (hf : ∀ i, frames'.get (e i) = frames.get i)
include h hf

theorem Embeds.total (loaded : List (Inertia α)) :
    InertiaGroup.total r'.groups loaded frames' = InertiaGroup.total r.groups loaded frames := by
  have hmoved : (r'.groups.zip loaded).map (fun x => x.2.transformed (frames'.get x.1.base)) =
      (r.groups.zip loaded).map fun x => x.2.transformed (frames.get x.1.base) :=
    h.map_zip (fun g g' b hg => by simp only [hg, hf]) loaded
  have hsum := congrArg (List.foldl (· + ·) 0) hmoved
  rwa [List.foldl_map, List.foldl_map] at hsum

theorem Embeds.aggregate {p p' : Payload α}
    (hl : InertiaGroup.loaded r'.groups p' = InertiaGroup.loaded r.groups p) (desired : Quat α) :
    InertiaGroup.aggregate r'.groups p' frames' r'.baselink desired =
      InertiaGroup.aggregate r.groups p frames r.baselink desired := by
  unfold InertiaGroup.aggregate
  rw [hl, h.baselink, hf]
  simp only [h.total hf]

theorem Embeds.staticLoads (level : Quat α) (loaded : List (Inertia α))
    (rotors : List (PlacedRotor α r.tree.size)) (thrust : List α) :
    r'.staticLoads frames' level loaded (rotors.map (PlacedRotor.map e)) thrust =
      (r.staticLoads frames level loaded rotors thrust).map (Load.map e) := by
  unfold Robot.staticLoads
  rw [List.map_append, List.map_map, List.zip_map_left, List.map_map, List.map_map, h.config]
  refine congrArg₂ _ (h.map_zip (fun g g' b hg => ?_) loaded) (List.map_congr_left fun x _ => ?_)
  · simp only [Function.comp_apply, Load.map, groupPoint, hg, hf]
  · simp only [Function.comp_apply, Prod.map_fst, Prod.map_snd, id_eq, PlacedRotor.map, hf]
    rfl

end

theorem Embeds.solve [SingularValues α] (h : r.Embeds r' e) (hr : r.tree.Rooted)
    (hw : r.tree.WellFormed) (hw' : r'.tree.WellFormed) {p p' : Payload α}
    (hl : InertiaGroup.loaded r'.groups p' = InertiaGroup.loaded r.groups p) (desired : Quat α)
    (q : Coordinates α) :
    SameOutcome (HoverState.Within e) (r.solve ⟨p, desired⟩ q) (r'.solve ⟨p', desired⟩ q) := by
  unfold Robot.solve
  refine (h.tree.place hr hw hw' q).bind fun frames frames' hf => ?_
  rw [h.aggregate hf hl]
  refine (SameOutcome.of_eq rfl).bind fun x x' hx => ?_
  subst hx
  dsimp only
  have hrotors : ∀ rotors : List (PlacedRotor α r.tree.size),
      (rotors.map (PlacedRotor.map e)).map (·.toRotor) = rotors.map (·.toRotor) := fun rotors => by
    rw [List.map_map]
    rfl
  rw [h.config, h.rotors, RotorLayout.extract_map _ hf, h.tree.jointAxes hf, hrotors, h.range,
    h.criteria]
  refine (SameOutcome.of_eq rfl).bind fun thrust thrust' hthrust => ?_
  subst hthrust
  rw [h.staticLoads hf]
  refine .ok ⟨rfl, hf, rfl, rfl, rfl, rfl, rfl, rfl, rfl, ?_, rfl, rfl⟩
  rw [List.map_map]
  exact List.map_congr_left fun joint _ => h.tree.jointTorque _ joint

end Robot

end

end Multirotor
