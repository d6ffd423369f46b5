import Multirotor.Proofs.Exact.Rotation
import Multirotor.Proofs.Tree
import Multirotor.Placement

/-!
# Forward kinematics

Each segment of a well-formed tree is placed once, after its parent, so its
frame is its parent's frame moved by its offset and its joint. In a rigid
tree all frames are rigid.
-/

namespace Multirotor

namespace Tree

section
variable {α : Type} [Scalar α] {t : Tree α} {q : Coordinates α} {frames : Placement α t.size}

theorem place_eq_ok (h : t.place q = .ok frames) :
    t.order.foldl (t.placeOne q) (Vector.replicate t.size .identity) = frames := by
  rw [place] at h
  split at h
  · exact Except.ok.inj h
  · cases h

theorem place_isOk (hq : q.values.length = t.jointCount) : ∃ frames, t.place q = .ok frames :=
  ⟨_, if_pos hq⟩

theorem length_of_place (h : t.place q = .ok frames) : q.values.length = t.jointCount := by
  rw [place] at h
  split at h
  · assumption
  · cases h

theorem jointMotion_of_still {i : Fin t.size} (hk : (t.segment i).joint.kind.isRevolute = false) :
    t.jointMotion q i = .identity := by
  rw [Tree.jointMotion]
  split
  · rename_i axis hr
    rw [hr] at hk
    cases hk
  · rfl

theorem get_placeOne_of_ne {i j : Fin t.size} (h : j ≠ i) :
    (t.placeOne q frames i).get j = frames.get j := by
  rw [placeOne]
  split
  · exact Ancestry.get_assign_of_ne _ _ _ h
  · rfl

theorem get_placeOne_self {i p : Fin t.size} (hp : (t.segment i).parent = some p) :
    (t.placeOne q frames i).get i = frames.get p * (t.segment i).offset * t.jointMotion q i := by
  simp only [placeOne, hp, Ancestry.get_assign_self]

theorem get_placeOne_root {i j : Fin t.size} (hp : (t.segment j).parent = none) :
    (t.placeOne q frames i).get j = frames.get j := by
  by_cases hj : j = i
  · subst hj
    simp only [placeOne, hp]
  · exact get_placeOne_of_ne hj

theorem get_foldl_of_not_mem {l : List (Fin t.size)} {i : Fin t.size} (h : i ∉ l) :
    (l.foldl (t.placeOne q) frames).get i = frames.get i := by
  induction l generalizing frames with
  | nil => rfl
  | cons a l ih =>
    rw [List.mem_cons, not_or] at h
    rw [List.foldl_cons, ih h.2, get_placeOne_of_ne h.1]

theorem get_foldl_root {l : List (Fin t.size)} {i : Fin t.size}
    (hp : (t.segment i).parent = none) : (l.foldl (t.placeOne q) frames).get i = frames.get i := by
  induction l generalizing frames with
  | nil => rfl
  | cons a l ih => rw [List.foldl_cons, ih, get_placeOne_root hp]

/-- Along an order with parents first, a segment ends up where its parent's last frame takes it. -/
theorem get_foldl_of_parent (hself : ∀ i, (t.segment i).parent ≠ some i) {l : List (Fin t.size)}
    (hnd : l.Nodup) (hfirst : l.Pairwise fun a b => (t.segment a).parent ≠ some b)
    {i p : Fin t.size} (hi : i ∈ l) (hp : (t.segment i).parent = some p) :
    (l.foldl (t.placeOne q) frames).get i =
      (l.foldl (t.placeOne q) frames).get p * (t.segment i).offset * t.jointMotion q i := by
  induction l generalizing frames with
  | nil => cases hi
  | cons a l ih =>
    obtain ⟨ha, hnd⟩ := List.nodup_cons.mp hnd
    obtain ⟨hpa, hfirst⟩ := List.pairwise_cons.mp hfirst
    rw [List.foldl_cons]
    rcases List.mem_cons.mp hi with rfl | hi
    · have hne : p ≠ i := fun e => hself i (e ▸ hp)
      have hpl : p ∉ l := fun hm => hpa p hm hp
      rw [get_foldl_of_not_mem ha, get_foldl_of_not_mem hpl, get_placeOne_self hp,
        get_placeOne_of_ne hne]
    · exact ih hnd hfirst hi

theorem WellFormed.get_of_parent (hw : t.WellFormed) (h : t.place q = .ok frames)
    {i p : Fin t.size} (hp : (t.segment i).parent = some p) :
    frames.get i = frames.get p * (t.segment i).offset * t.jointMotion q i := by
  rw [← place_eq_ok h]
  exact get_foldl_of_parent hw.parent_ne_self hw.nodup hw.parent_first (hw.complete i) hp

theorem get_root (h : t.place q = .ok frames) {i : Fin t.size}
    (hp : (t.segment i).parent = none) : frames.get i = .identity := by
  rw [← place_eq_ok h, get_foldl_root hp]
  exact Vector.getElem_replicate _

/-- Segments that hang and move alike are placed alike, whatever their numbers. -/
theorem get_map {t' : Tree α} {q' : Coordinates α} {frames' : Placement α t'.size}
    {e : Fin t.size → Fin t'.size} (hw : t.WellFormed) (hw' : t'.WellFormed)
    (h : t.place q = .ok frames) (h' : t'.place q' = .ok frames')
    (hparent : ∀ i, (t'.segment (e i)).parent = (t.segment i).parent.map e)
    (hoffset : ∀ i, (t'.segment (e i)).offset = (t.segment i).offset)
    (hmotion : ∀ i, t'.jointMotion q' (e i) = t.jointMotion q i)
    (hroot : (t.segment t.root).parent = none) {k : Nat} {i : Fin t.size}
    (hk : Ancestry.Depth (fun i => (t.segment i).parent) t.root k i) :
    frames'.get (e i) = frames.get i := by
  induction hk with
  | root =>
    have hroot' := hparent t.root
    rw [hroot] at hroot'
    rw [get_root h hroot, get_root h' hroot']
  | @child k p i hp _ ih =>
    have hp' := hparent i
    rw [show (t.segment i).parent = some p from hp] at hp'
    rw [hw.get_of_parent h hp, hw'.get_of_parent h' hp', ih, hoffset, hmotion]

end

/-! ## Rigid trees -/

section
variable {t : Tree ℝ} {q : Coordinates ℝ} {frames : Placement ℝ t.size}

/-- Offsets turn by unit quaternions and joints about unit vectors, the only rotations and directions
that a record is made of. -/
structure Rigid (t : Tree ℝ) : Prop where
  offset : ∀ i, (t.segment i).offset.Rigid
  axis : ∀ {i axis}, (t.segment i).joint.kind = .revolute axis → axis.normSq = 1

theorem rigid_of_ofRecords {records : List (SegmentRecord ℝ)} (h : ofRecords records = .ok t)
    (hr : ∀ r ∈ records, r.offset.Rigid ∧
      ∀ axis, r.joint.kind = .revolute axis → axis.normSq = 1) : t.Rigid := by
  refine ⟨fun i => ?_, fun {i axis} hk => ?_⟩
  · obtain ⟨r, hmem, hoffset, -, -⟩ := exists_record h i
    exact hoffset ▸ (hr r hmem).1
  · obtain ⟨r, hmem, -, hjoint, -⟩ := exists_record h i
    exact (hr r hmem).2 axis (hjoint ▸ hk)

theorem Rigid.jointMotion (ht : t.Rigid) (q : Coordinates ℝ) (i : Fin t.size) :
    (t.jointMotion q i).Rigid := by
  rw [Tree.jointMotion]
  split
  · rename_i axis hk
    exact Quat.unit_ofAxisAngle (ht.axis hk) _
  · exact Frame.rigid_identity

theorem Rigid.placeOne (ht : t.Rigid) {frames : Placement ℝ t.size}
    (h : ∀ i, (frames.get i).Rigid) (i j : Fin t.size) : ((t.placeOne q frames i).get j).Rigid := by
  rw [Tree.placeOne]
  split
  · rename_i p hp
    by_cases hj : j = i
    · rw [hj, Ancestry.get_assign_self]
      exact ((h p).mul (ht.offset i)).mul (ht.jointMotion q i)
    · rw [Ancestry.get_assign_of_ne _ _ _ hj]
      exact h j
  · exact h j

theorem Rigid.place (ht : t.Rigid) (h : t.place q = .ok frames) (i : Fin t.size) :
    (frames.get i).Rigid := by
  rw [← place_eq_ok h]
  have hrun : ∀ (l : List (Fin t.size)) (frames : Placement ℝ t.size),
      (∀ i, (frames.get i).Rigid) → ∀ i, ((l.foldl (t.placeOne q) frames).get i).Rigid := by
    intro l
    induction l with
    | nil => exact fun _ h => h
    | cons a l ih => exact fun frames h => ih _ (ht.placeOne h a)
  refine hrun t.order _ (fun i => ?_) i
  have hget : (Vector.replicate t.size (Frame.identity : Frame ℝ)).get i = .identity :=
    Vector.getElem_replicate _
  rw [hget]
  exact Frame.rigid_identity

theorem WellFormed.get_of_fixed (hw : t.WellFormed) (h : t.place q = .ok frames)
    {i p : Fin t.size} (hp : (t.segment i).parent = some p)
    (hk : (t.segment i).joint.kind.isRevolute = false) :
    frames.get i = frames.get p * (t.segment i).offset := by
  rw [hw.get_of_parent h hp, jointMotion_of_still hk, Frame.mul_identity]

end

end Tree

end Multirotor
