import Multirotor.Proofs.JointNumbering

/-!
# Frames along the way from the root

The frame of a segment is the product of the offsets and joint motions on the
way to it from the root (`Way.get`). So only the coordinates in its joint path
matter to it (`get_congr`). Nothing here is about exact arithmetic: the
products are the same numbers, rounded or not.
-/

namespace Multirotor

namespace Tree

variable {α : Type} [Scalar α] {t : Tree α} {q q' : Coordinates α}
  {frames frames' : Placement α t.size} {a i : Fin t.size} {l : List (Fin t.size)}

/-- How its joint moves a segment: a revolute one turns it about its axis by its own coordinate. -/
inductive JointMoves (t : Tree α) (q : Coordinates α) (i : Fin t.size) : Frame α → Prop where
  | turned {axis : Vec3 α} {c : Nat} {angle : α} :
    (t.segment i).joint.kind = .revolute axis → (t.segment i).coordinate? = some c →
    q.values[c]? = some angle → JointMoves t q i (.ofRotation (.ofAxisAngle axis angle))
  | still : (t.segment i).joint.kind.isRevolute = false → JointMoves t q i .identity

/-- The frame at the end of a way that starts from frame `f`. -/
def along (t : Tree α) (q : Coordinates α) (f : Frame α) (l : List (Fin t.size)) : Frame α :=
  l.foldl (fun f j => f * (t.segment j).offset * t.jointMotion q j) f

theorem Way.get (hw : t.WellFormed) (h : t.place q = .ok frames) (hl : t.Way a l i) :
    frames.get i = t.along q (frames.get a) l := by
  induction hl with
  | here => rfl
  | child _ hp ih => rw [hw.get_of_parent h hp, ih, along, along, List.foldl_concat]

theorem jointMotion_congr
    (h : ∀ c, (t.segment i).coordinate? = some c → q'.values[c]? = q.values[c]?) :
    t.jointMotion q' i = t.jointMotion q i := by
  rw [jointMotion, jointMotion]
  cases hc : (t.segment i).coordinate? with
  | none => rfl
  | some c => simp only [Option.elim_some, Coordinates.get, h c hc]

section
variable (hw : t.WellFormed) (hr : t.Rooted)
include hw hr

/-- A joint never falls back on the angle that stands for a missing coordinate. -/
theorem jointMoves_jointMotion (hq : q.values.length = t.jointCount) (i : Fin t.size) :
    t.JointMoves q i (t.jointMotion q i) := by
  cases hk : (t.segment i).joint.kind with
  | fixed | floating | rotor =>
    have hstill := congrArg JointKind.isRevolute hk
    rw [jointMotion_of_still hstill]
    exact .still hstill
  | revolute axis =>
    obtain ⟨c, hi⟩ := exists_coordinate hw hr (congrArg JointKind.isRevolute hk)
    have hc := coordinate?_eq_some hw hr hi
    obtain ⟨hlt, -⟩ := List.getElem?_eq_some_iff.mp hi
    have hlt : c < q.values.length := hq ▸ hlt
    have hangle : q.values[c]? = some q.values[c] := List.getElem?_eq_getElem hlt
    simp only [jointMotion, hk, hc, Option.elim_some, Coordinates.get, hangle, Option.getD_some]
    exact .turned hk hc hangle

/-- Coordinates that agree on the joint path of a segment place it in one frame. -/
theorem get_congr (h : t.place q = .ok frames) (h' : t.place q' = .ok frames')
    (hagree : ∀ c ∈ (t.segment i).jointPath, q'.values[c]? = q.values[c]?) :
    frames'.get i = frames.get i := by
  obtain ⟨k, hk⟩ := hr.depth i
  induction hk with
  | root => rw [get_root h hr.parent_root, get_root h' hr.parent_root]
  | @child k p i hp _ ih =>
    have hparent : ∀ c ∈ (t.segment p).jointPath, q'.values[c]? = q.values[c]? := fun c hc =>
      hagree c (jointPath_child hr hp ▸ List.mem_append_left _ hc)
    have hown : ∀ c, (t.segment i).coordinate? = some c → q'.values[c]? = q.values[c]? :=
      fun c hc => hagree c
        (moves_iff.mp (moves_self hw hr ((coordinate?_segment_iff hw hr).mp hc)))
    rw [hw.get_of_parent h hp, hw.get_of_parent h' hp, ih hparent, jointMotion_congr hown]

end

/-- The frames are those that the joints make of the offsets, from the root down. -/
structure Chains (t : Tree α) (q : Coordinates α) (frames : Placement α t.size) : Prop where
  root : frames.get t.root = .identity
  child : ∀ i ≠ t.root, ∃ p, (t.segment i).parent = some p ∧
    frames.get i = frames.get p * (t.segment i).offset * t.jointMotion q i
  motion : ∀ i, t.JointMoves q i (t.jointMotion q i)
  product : ∀ i, ∃ l, t.Way t.root l i ∧ frames.get i = t.along q .identity l
  /-- Only the coordinates in its joint path matter to a segment. -/
  depends : ∀ q' frames', t.place q' = .ok frames' → ∀ i,
    (∀ c ∈ (t.segment i).jointPath, q'.values[c]? = q.values[c]?) → frames'.get i = frames.get i

theorem chains_of_place (hw : t.WellFormed) (hr : t.Rooted) (h : t.place q = .ok frames) :
    t.Chains q frames := by
  have hroot := get_root h hr.parent_root
  refine ⟨hroot, fun i hi => ?_, jointMoves_jointMotion hw hr (length_of_place h), fun i => ?_,
    fun q' frames' h' i => get_congr hw hr h h'⟩
  · obtain ⟨p, hp⟩ := Option.ne_none_iff_exists'.mp (mt hr.parent_eq_none_iff.mp hi)
    exact ⟨p, hp, hw.get_of_parent h hp⟩
  · obtain ⟨l, hl⟩ := hr.exists_way i
    exact ⟨l, hl, hroot ▸ hl.get hw h⟩

/-- An accepted tree is placed by every list of as many angles as it has joints, and by no other. -/
theorem place_of_ofRecords {records : List (SegmentRecord α)} (h : ofRecords records = .ok t)
    (q : Coordinates α) :
    (q.values.length = t.jointCount → ∃ frames, t.place q = .ok frames ∧ t.Chains q frames) ∧
      (q.values.length ≠ t.jointCount →
        t.place q = .error (.dimensionMismatch t.jointCount q.values.length)) := by
  refine ⟨fun hq => ?_, fun hq => by rw [place, if_neg hq]⟩
  obtain ⟨frames, hf⟩ := place_isOk hq
  exact ⟨frames, hf, chains_of_place (wellFormed_of_ofRecords h) (rooted_of_ofRecords h) hf⟩

/-- The finger takes two angles, and not one. -/
theorem place_finger : ∃ t frames, ofRecords finger = .ok t ∧
    t.place ⟨[Real.pi, 1]⟩ = .ok frames ∧ t.Chains ⟨[Real.pi, 1]⟩ frames ∧
    t.place ⟨[Real.pi]⟩ = .error (.dimensionMismatch 2 1) := by
  obtain ⟨t, h, hcount⟩ : ∃ t, ofRecords finger = .ok t ∧ t.jointCount = 2 := ⟨_, rfl, rfl⟩
  obtain ⟨frames, hf, hchains⟩ := (place_of_ofRecords h ⟨[Real.pi, 1]⟩).1 hcount.symm
  have hone : [Real.pi].length ≠ t.jointCount := by simp [hcount]
  exact ⟨t, frames, h, hf, hchains, hcount ▸ (place_of_ofRecords h ⟨[Real.pi]⟩).2 hone⟩

end Tree

end Multirotor
