import Multirotor.Proofs.CentreOfGravity
import Multirotor.Proofs.Floating

/-!
# Inertias that are not finite

What is not finite in a part shows in the whole: in its mass, or in its
rotational inertia about the origin (`Inherited`). So a total mass that passes
the check means that all masses are finite, and if the inertia of the robot is
finite, so is everything that it is made of (`aggregate_finite`). The inertia
itself is not checked.
-/

namespace Multirotor

/-! ## Vectors and matrices -/

namespace Vec3

variable {u v : Vec3 Float}

theorem isFinite_iff : v.isFinite = true ↔ Scalar.isFinite v.x = true ∧
    Scalar.isFinite v.y = true ∧ Scalar.isFinite v.z = true := by
  rw [isFinite, Bool.and_eq_true, Bool.and_eq_true, and_assoc]

theorem isFinite_of_entries {op : Float → Float → Float}
    (hop : ∀ {x y}, Scalar.isFinite (op x y) = true →
      Scalar.isFinite x = true ∧ Scalar.isFinite y = true)
    (h : (⟨op u.x v.x, op u.y v.y, op u.z v.z⟩ : Vec3 Float).isFinite = true) :
    u.isFinite = true ∧ v.isFinite = true := by
  obtain ⟨hx, hy, hz⟩ := isFinite_iff.mp h
  obtain ⟨hux, hvx⟩ := hop hx
  obtain ⟨huy, hvy⟩ := hop hy
  obtain ⟨huz, hvz⟩ := hop hz
  exact ⟨isFinite_iff.mpr ⟨hux, huy, huz⟩, isFinite_iff.mpr ⟨hvx, hvy, hvz⟩⟩

theorem isFinite_of_add (h : (u + v).isFinite = true) : u.isFinite = true ∧ v.isFinite = true :=
  isFinite_of_entries Scalar.isFinite_of_add h

theorem isFinite_of_sub (h : (u - v).isFinite = true) : u.isFinite = true ∧ v.isFinite = true :=
  isFinite_of_entries Scalar.isFinite_of_sub h

theorem isFinite_of_dot (h : Scalar.isFinite (u.dot v) = true) :
    u.isFinite = true ∧ v.isFinite = true := by
  obtain ⟨hxy, hz⟩ := Scalar.isFinite_of_add h
  obtain ⟨hx, hy⟩ := Scalar.isFinite_of_add hxy
  exact isFinite_of_entries Scalar.isFinite_of_mul (isFinite_iff.mpr ⟨hx, hy, hz⟩)

end Vec3

namespace Mat3

variable {a b : Mat3 Float}

theorem isFinite_iff : a.isFinite = true ↔ a.row₀.isFinite = true ∧
    a.row₁.isFinite = true ∧ a.row₂.isFinite = true := by
  rw [isFinite, Bool.and_eq_true, Bool.and_eq_true, and_assoc]

theorem isFinite_of_rows {op : Vec3 Float → Vec3 Float → Vec3 Float}
    (hop : ∀ {u v}, (op u v).isFinite = true → u.isFinite = true ∧ v.isFinite = true)
    (h : (⟨op a.row₀ b.row₀, op a.row₁ b.row₁, op a.row₂ b.row₂⟩ : Mat3 Float).isFinite = true) :
    a.isFinite = true ∧ b.isFinite = true := by
  obtain ⟨h₀, h₁, h₂⟩ := isFinite_iff.mp h
  obtain ⟨ha₀, hb₀⟩ := hop h₀
  obtain ⟨ha₁, hb₁⟩ := hop h₁
  obtain ⟨ha₂, hb₂⟩ := hop h₂
  exact ⟨isFinite_iff.mpr ⟨ha₀, ha₁, ha₂⟩, isFinite_iff.mpr ⟨hb₀, hb₁, hb₂⟩⟩

theorem isFinite_of_add (h : (a + b).isFinite = true) : a.isFinite = true ∧ b.isFinite = true :=
  isFinite_of_rows Vec3.isFinite_of_add h

theorem isFinite_of_sub (h : (a - b).isFinite = true) : a.isFinite = true ∧ b.isFinite = true :=
  isFinite_of_rows Vec3.isFinite_of_sub h

theorem isFinite_transpose : a.transpose.isFinite = a.isFinite := by
  rw [Bool.eq_iff_iff]
  simp only [isFinite_iff, Vec3.isFinite_iff, transpose, col₀, col₁, col₂]
  tauto

/-- Each entry of a factor takes part in an entry of the product. -/
theorem isFinite_of_mul (h : (a * b).isFinite = true) : a.isFinite = true ∧ b.isFinite = true := by
  have ht : (⟨a.apply b.col₀, a.apply b.col₁, a.apply b.col₂⟩ : Mat3 Float).isFinite = true :=
    isFinite_transpose.symm.trans h
  obtain ⟨h₀, h₁, h₂⟩ := isFinite_iff.mp ht
  obtain ⟨h₀₀, h₁₀, h₂₀⟩ := Vec3.isFinite_iff.mp h₀
  obtain ⟨hrow₀, hcol₀⟩ := Vec3.isFinite_of_dot h₀₀
  have hrow₁ := (Vec3.isFinite_of_dot h₁₀).1
  have hrow₂ := (Vec3.isFinite_of_dot h₂₀).1
  have hcol₁ := (Vec3.isFinite_of_dot (Vec3.isFinite_iff.mp h₁).1).2
  have hcol₂ := (Vec3.isFinite_of_dot (Vec3.isFinite_iff.mp h₂).1).2
  refine ⟨isFinite_iff.mpr ⟨hrow₀, hrow₁, hrow₂⟩, ?_⟩
  rw [← isFinite_transpose]
  exact isFinite_iff.mpr ⟨hcol₀, hcol₁, hcol₂⟩

end Mat3

/-! ## Bodies -/

namespace Inertia

/-- Mass, centre of gravity, and the rotational inertia about it are finite. -/
structure Finite (i : Inertia Float) : Prop where
  mass : Scalar.isFinite i.mass = true
  cog : i.cog.isFinite = true
  aboutCog : i.aboutCog.isFinite = true

theorem isFinite_of_parallelAxis {m : Float} {c : Vec3 Float}
    (h : (parallelAxis m c).isFinite = true) : Scalar.isFinite m = true ∧ c.isFinite = true := by
  obtain ⟨hentry, hm⟩ := Scalar.isFinite_of_mul (Vec3.isFinite_iff.mp (Mat3.isFinite_iff.mp h).1).1
  obtain ⟨hsq, -⟩ := Scalar.isFinite_of_sub hentry
  exact ⟨hm, (Vec3.isFinite_of_dot (Scalar.isFinite_of_mul hsq).2).1⟩

theorem isFinite_of_ofCog {m : Float} {c : Vec3 Float} {tensor : Mat3 Float}
    (h : (ofCog m c tensor).aboutOrigin.isFinite = true) :
    Scalar.isFinite m = true ∧ c.isFinite = true ∧ tensor.isFinite = true := by
  obtain ⟨htensor, haxis⟩ := Mat3.isFinite_of_add h
  obtain ⟨hm, hc⟩ := isFinite_of_parallelAxis haxis
  exact ⟨hm, hc, htensor⟩

theorem isFinite_of_point {frame : Frame Float} {p : Vec3 Float}
    (h : (frame.point p).isFinite = true) : p.isFinite = true :=
  (Vec3.isFinite_of_add (Vec3.isFinite_of_add h).2).2

theorem finite_of_transformed {i : Inertia Float} {frame : Frame Float}
    (h : (i.transformed frame).aboutOrigin.isFinite = true) : i.Finite := by
  obtain ⟨hm, hp, ht⟩ := isFinite_of_ofCog h
  exact ⟨hm, isFinite_of_point hp, (Mat3.isFinite_of_mul (Mat3.isFinite_of_mul ht).1).2⟩

section
variable {α : Type} [Scalar α]

/-- What holds of a whole only if it holds of the parts, in whatever frame they are given. -/
structure Inherited (P : Inertia α → Prop) : Prop where
  add : ∀ {a b}, P (a + b) → P a ∧ P b
  transformed : ∀ {i frame}, P (i.transformed frame) → P i

theorem Inherited.foldl {P : Inertia α → Prop} (hP : Inherited P) {β : Type} {f : β → Inertia α}
    {l : List β} {i : Inertia α} (h : P (l.foldl (fun sum x => sum + f x) i)) :
    P i ∧ ∀ x ∈ l, P (f x) := by
  induction l generalizing i with
  | nil => exact ⟨h, by simp⟩
  | cons x l ih =>
    obtain ⟨hsum, hl⟩ := ih h
    obtain ⟨hi, hx⟩ := hP.add hsum
    exact ⟨hi, List.forall_mem_cons.mpr ⟨hx, hl⟩⟩

end

theorem inherited_mass : Inherited fun i : Inertia Float => Scalar.isFinite i.mass = true :=
  ⟨Scalar.isFinite_of_add, id⟩

theorem inherited_aboutOrigin : Inherited fun i : Inertia Float => i.aboutOrigin.isFinite = true :=
  ⟨Mat3.isFinite_of_add, fun h => (Mat3.isFinite_of_sub (finite_of_transformed h).aboutCog).1⟩

end Inertia

/-- The inertia of the whole robot is that of its body, turned. -/
theorem CentreOfGravity.isFinite_of_ofBody {body : Inertia Float} {baselink : Frame Float}
    {desired : Quat Float} {cog : CentreOfGravity Float}
    (h : ofBody body baselink desired = .ok cog) (hfinite : cog.inertia.isFinite = true) : body.aboutOrigin.isFinite = true := by
  obtain ⟨-, -, -, hinertia⟩ := ofBody_eq_ok h
  rw [hinertia] at hfinite
  have hbody := (Mat3.isFinite_of_mul (Mat3.isFinite_of_mul hfinite).1).2
  exact (Mat3.isFinite_of_sub hbody).1

/-! ## Trees and groups -/

namespace Tree

variable {α : Type} [Scalar α] {t : Tree α} {P : Inertia α → Prop}

theorem inherited_gathered (hP : Inertia.Inherited P) {carried : Vector (Inertia α) t.size}
    {a : Fin t.size} (h : P (t.gathered carried a)) :
    P (t.segment a).inertia ∧ ∀ c ∈ (t.segment a).children, P (carried.get c) := by
  obtain ⟨hown, hchildren⟩ := hP.foldl h
  exact ⟨hown, fun c hc => hP.transformed (hchildren c hc)⟩

/-- A gathered segment is part of a group, or of what a segment without a gathered parent hands
up. -/
theorem inherited_foldr (hP : Inertia.Inherited P) (hw : t.WellFormed) {l : List (Fin t.size)}
    (hnd : l.Nodup) (hfirst : l.Pairwise fun a b => (t.segment a).parent ≠ some b)
    (hgroups : ∀ g ∈ (l.foldr t.gather (Vector.replicate t.size 0, [])).2, P g.inertia)
    (hcarried : ∀ i ∈ l, ¬t.isBase i = true → (∀ p ∈ l, (t.segment i).parent ≠ some p) →
      P ((l.foldr t.gather (Vector.replicate t.size 0, [])).1.get i)) :
    ∀ i ∈ l, P (t.segment i).inertia := by
  induction l with
  | nil => simp
  | cons a l ih =>
    obtain ⟨ha, hnd⟩ := List.nodup_cons.mp hnd
    obtain ⟨hpa, hfirst⟩ := List.pairwise_cons.mp hfirst
    rw [List.foldr_cons] at hgroups hcarried
    generalize l.foldr t.gather (Vector.replicate t.size 0, []) = state at ih hgroups hcarried
    by_cases hb : t.isBase a = true
    · rw [gather_of_isBase hb] at hgroups hcarried
      obtain ⟨hgroup, hgroups⟩ := List.forall_mem_cons.mp hgroups
      obtain ⟨hown, hchildren⟩ := inherited_gathered hP hgroup
      refine List.forall_mem_cons.mpr ⟨hown, ih hnd hfirst hgroups fun i hi hbi hp => ?_⟩
      by_cases hia : (t.segment i).parent = some a
      · exact hchildren i (hw.mem_children.mpr hia)
      · exact hcarried i (List.mem_cons_of_mem a hi) hbi (List.forall_mem_cons.mpr ⟨hia, hp⟩)
    · rw [gather_of_not_isBase hb] at hgroups hcarried
      have hgathered := hcarried a List.mem_cons_self hb
        (List.forall_mem_cons.mpr ⟨hw.parent_ne_self a, hpa⟩)
      rw [Ancestry.get_assign_self] at hgathered
      obtain ⟨hown, hchildren⟩ := inherited_gathered hP hgathered
      refine List.forall_mem_cons.mpr ⟨hown, ih hnd hfirst hgroups fun i hi hbi hp => ?_⟩
      by_cases hia : (t.segment i).parent = some a
      · exact hchildren i (hw.mem_children.mpr hia)
      · have hrest := hcarried i (List.mem_cons_of_mem a hi) hbi
          (List.forall_mem_cons.mpr ⟨hia, hp⟩)
        rwa [Ancestry.get_assign_of_ne _ _ _ (ne_of_mem_of_not_mem hi ha)] at hrest

theorem inherited_groups (hP : Inertia.Inherited P) (hw : t.WellFormed)
    {groups : List (InertiaGroup α t.size)} (hg : t.groups = .ok groups)
    (h : ∀ g ∈ groups, P g.inertia) (i : Fin t.size) : P (t.segment i).inertia := by
  obtain ⟨rfl, -⟩ := groups_eq_ok hg
  refine inherited_foldr hP hw hw.nodup hw.parent_first h (fun i _ hb hp => ?_) i (hw.complete i)
  cases hparent : (t.segment i).parent with
  | none => exact absurd (by simp [isBase, hparent]) hb
  | some p => exact absurd hparent (hp p (hw.complete p))

end Tree

namespace InertiaGroup

variable {α : Type} [Scalar α] {n : Nat} {groups : List (InertiaGroup α n)}
  {P : Inertia α → Prop}

theorem inherited_load (hP : Inertia.Inherited P) {m : ExtraModule α}
    {loads loads' : List (Inertia α)} (hl : load groups loads m = .ok loads') :
    loads'.length = loads.length ∧ ((∀ i ∈ loads', P i) → ∀ i ∈ loads, P i) := by
  rw [load] at hl
  split at hl
  · cases hl
    refine ⟨List.length_modify _ _ _, fun h i hi => ?_⟩
    obtain ⟨k, hk, rfl⟩ := List.getElem_of_mem hi
    have hmodified := h _ (List.getElem_mem (by simpa using hk))
    rw [List.getElem_modify] at hmodified
    split at hmodified
    · exact (hP.add hmodified).1
    · exact hmodified
  · cases hl

theorem inherited_foldlM (hP : Inertia.Inherited P) {ms : List (ExtraModule α)}
    {loads loads' : List (Inertia α)} (hl : ms.foldlM (load groups) loads = .ok loads') :
    loads'.length = loads.length ∧ ((∀ i ∈ loads', P i) → ∀ i ∈ loads, P i) := by
  induction ms generalizing loads with
  | nil =>
    cases hl
    exact ⟨rfl, id⟩
  | cons m ms ih =>
    rw [List.foldlM_cons] at hl
    obtain ⟨mid, hm, hms⟩ := bind_eq_ok.mp hl
    obtain ⟨hlen, hstep⟩ := inherited_load hP hm
    obtain ⟨hlen', hrest⟩ := ih hms
    exact ⟨hlen'.trans hlen, hstep ∘ hrest⟩

theorem inherited_loaded (hP : Inertia.Inherited P) {payload : Payload α} {loads : List (Inertia α)}
    (hl : loaded groups payload = .ok loads) :
    loads.length = groups.length ∧ ((∀ i ∈ loads, P i) → ∀ g ∈ groups, P g.inertia) := by
  obtain ⟨hlen, hback⟩ := inherited_foldlM hP hl
  exact ⟨by simpa using hlen, fun h => List.forall_mem_map.mp (hback h)⟩

theorem inherited_total (hP : Inertia.Inherited P) {loads : List (Inertia α)}
    {frames : Placement α n} (hlen : loads.length = groups.length)
    (h : P (total groups loads frames)) : ∀ i ∈ loads, ∃ frame, P (i.transformed frame) := by
  intro i hi
  have hall := (hP.foldl h).2
  obtain ⟨k, hk, rfl⟩ := List.getElem_of_mem hi
  have hk' : k < groups.length := hlen ▸ hk
  have hmem : (groups[k], loads[k]) ∈ groups.zip loads :=
    List.mem_iff_getElem.mpr ⟨k, by simpa using ⟨hk', hk⟩, by simp⟩
  exact ⟨_, hall _ hmem⟩

/-! ## The whole robot -/

section
variable {records : List (SegmentRecord Float)} {t : Tree Float}
  {groups : List (InertiaGroup Float t.size)} {payload : Payload Float}
  {loads : List (Inertia Float)} {frames : Placement Float t.size}

/-- From the whole robot to its groups, with the modules they carry, and to its segments. -/
theorem inherited_parts {P : Inertia Float → Prop} (hP : Inertia.Inherited P)
    (hr : Tree.ofRecords records = .ok t) (hg : t.groups = .ok groups)
    (hl : loaded groups payload = .ok loads) (h : P (total groups loads frames)) :
    (∀ i ∈ loads, ∃ frame, P (i.transformed frame)) ∧ ∀ r ∈ records, P r.inertia := by
  obtain ⟨hlen, hback⟩ := inherited_loaded hP hl
  have hloads := inherited_total hP hlen h
  have hgroups := hback fun i hi => hP.transformed (hloads i hi).choose_spec
  refine ⟨hloads, fun r hmem => ?_⟩
  obtain ⟨i, hi⟩ := Tree.exists_segment hr hmem
  rw [← hi]
  exact Tree.inherited_groups hP (Tree.wellFormed_of_ofRecords hr) hg hgroups i

theorem aggregate_eq (hl : loaded groups payload = .ok loads) (baselink : Fin t.size)
    (desired : Quat Float) : aggregate groups payload frames baselink desired =
      (CentreOfGravity.ofBody (total groups loads frames) (frames.get baselink) desired).map
        (·, loads) := by
  rw [aggregate, hl]
  rfl

/-- A mass that is not finite is refused. Of a robot that is not refused the mass and the centre of
gravity are finite, and so are all masses. Its inertia is not checked, and if that is finite, so is
the rest, down to the segments. -/
theorem aggregate_finite (hr : Tree.ofRecords records = .ok t) (hg : t.groups = .ok groups)
    (hp : payload.Filled groups) (frames : Placement Float t.size) (baselink : Fin t.size)
    (desired : Quat Float) :
    ((∃ r ∈ records, Scalar.isFinite r.inertia.mass = false) →
      ∃ mass, aggregate groups payload frames baselink desired = .error (.tree (.totalMass mass)) ∧
        Scalar.isFinite mass = false) ∧
    (∀ e, aggregate groups payload frames baselink desired = .error e →
      (∃ mass, e = .tree (.totalMass mass)) ∨ e = .tree .centreNotFinite) ∧
    ∀ cog loads, aggregate groups payload frames baselink desired = .ok (cog, loads) →
      (Scalar.isFinite cog.mass = true ∧ cog.position.isFinite = true ∧
        ∀ i ∈ loads, Scalar.isFinite i.mass = true) ∧
      (cog.inertia.isFinite = true → (∀ i ∈ loads, i.Finite) ∧
        ∀ r ∈ records, ∀ mass centre tensor, r.inertia = .ofCog mass centre tensor →
          Scalar.isFinite mass = true ∧ centre.isFinite = true ∧ tensor.isFinite = true) := by
  obtain ⟨loads, hl⟩ := loaded_isOk hp
  refine ⟨fun ⟨r, hmem, hmass⟩ => ?_, fun e he => ?_, fun cog loads' h => ?_⟩
  · have htotal : Scalar.isFinite (total groups loads frames).mass = false := by
      by_contra h
      have hparts := inherited_parts Inertia.inherited_mass hr hg hl (Bool.not_eq_false _ ▸ h)
      rw [hparts.2 r hmem] at hmass
      cases hmass
    rw [aggregate_eq hl, CentreOfGravity.ofBody_of_not_isFinite htotal]
    exact ⟨_, rfl, htotal⟩
  · rw [aggregate_eq hl, map_eq_error] at he
    exact (CentreOfGravity.ofBody_eq_error he).imp_left fun he => ⟨_, he⟩
  · rw [aggregate_eq hl, map_eq_ok] at h
    obtain ⟨cog, hbody, heq⟩ := h
    cases heq
    obtain ⟨hcm, hcp, -, -⟩ := CentreOfGravity.ofBody_eq_ok hbody
    obtain ⟨hmass, -, hposition⟩ := CentreOfGravity.checked_of_ofBody hbody
    have hmasses := (inherited_parts Inertia.inherited_mass hr hg hl hmass).1
    refine ⟨⟨hcm ▸ hmass, hcp ▸ hposition, fun i hi => (hmasses i hi).choose_spec⟩,
      fun hinertia => ?_⟩
    obtain ⟨hloads, hrecords⟩ := inherited_parts Inertia.inherited_aboutOrigin hr hg hl
      (CentreOfGravity.isFinite_of_ofBody hbody hinertia)
    refine ⟨fun i hi => Inertia.finite_of_transformed (hloads i hi).choose_spec,
      fun r hmem mass centre tensor he => Inertia.isFinite_of_ofCog ?_⟩
    rw [← he]
    exact hrecords r hmem

end

/-! ### A craft with two parts that weigh nothing -/

/-- An antenna and a strut without mass on a body of mass one, the centre of gravity of the antenna
at `x` and a moment of inertia of the body `y`. -/
def craft (x y : Float) : List (SegmentRecord Float) :=
  [⟨"antenna", none, .identity, ⟨"ground", .fixed⟩, .ofCog 0 ⟨x, 0, 0⟩ 0⟩,
   ⟨"strut", some "antenna", .identity, ⟨"strut_mount", .fixed⟩, .zero⟩,
   ⟨"body", some "antenna", .identity, ⟨"body_mount", .fixed⟩,
     .ofCog 1 0 ⟨⟨y, 0, 0⟩, ⟨0, 1, 0⟩, ⟨0, 0, 1⟩⟩⟩]

def craftTree (x y : Float) : Tree Float :=
  .below (craft x y) (fun i => (Vector.ofFn (Tree.parentOf (craft x y))).get i) (0 : Fin 3)

theorem ofRecords_craft (x y : Float) : Tree.ofRecords (craft x y) = .ok (craftTree x y) := rfl

/-- The craft in its only pose. -/
def outcome (x y : Float) :
    Except (ModelError Float) (CentreOfGravity Float × List (Inertia Float)) := do
  let groups ← (craftTree x y).groups
  let frames ← (craftTree x y).place (Coordinates.zeros (craftTree x y))
  aggregate groups .empty frames (craftTree x y).root .identity

theorem exists_of_outcome {x y : Float} {p : CentreOfGravity Float × List (Inertia Float) → Bool}
    (h : (outcome x y).toOption.any p = true) :
    ∃ groups frames cog loads, (craftTree x y).groups = .ok groups ∧
      (craftTree x y).place (Coordinates.zeros (craftTree x y)) = .ok frames ∧
      aggregate groups .empty frames (craftTree x y).root .identity = .ok (cog, loads) ∧
      p (cog, loads) = true := by
  cases ho : outcome x y with
  | error e =>
    rw [ho] at h
    cases h
  | ok a =>
    rw [ho] at h
    obtain ⟨groups, hg, ho⟩ := bind_eq_ok.mp ho
    obtain ⟨frames, hf, ho⟩ := bind_eq_ok.mp ho
    exact ⟨groups, frames, a.1, a.2, hg, hf, ho, h⟩

theorem aggregate_finite_craft : ∃ groups frames cog loads,
    Tree.ofRecords (craft 0 1) = .ok (craftTree 0 1) ∧ (craftTree 0 1).groups = .ok groups ∧
    (craftTree 0 1).place (Coordinates.zeros (craftTree 0 1)) = .ok frames ∧
    aggregate groups .empty frames (craftTree 0 1).root .identity = .ok (cog, loads) ∧
    cog.inertia.isFinite = true ∧ Scalar.isFinite cog.mass = true ∧
    cog.position.isFinite = true ∧ ∀ i ∈ loads, i.Finite := by
  obtain ⟨groups, frames, cog, loads, hg, hf, ha, hi⟩ :=
    exists_of_outcome (show (outcome 0 1).toOption.any (fun a => a.1.inertia.isFinite) = true by
      decide +kernel)
  have hfinite := aggregate_finite (ofRecords_craft 0 1) hg .empty frames (craftTree 0 1).root
    .identity
  obtain ⟨⟨hm, hp, -⟩, hparts⟩ := hfinite.2.2 cog loads ha
  exact ⟨groups, frames, cog, loads, ofRecords_craft 0 1, hg, hf, ha, hi, hm, hp, (hparts hi).1⟩

/-- The craft is not refused, and its inertia is not finite. -/
def Undetected (x y : Float) : Prop :=
  ∃ t groups frames cog loads, Tree.ofRecords (craft x y) = .ok t ∧ t.groups = .ok groups ∧
    t.place (Coordinates.zeros t) = .ok frames ∧
    aggregate groups .empty frames t.root .identity = .ok (cog, loads) ∧
    cog.inertia.isFinite = false ∧ ∃ i ∈ loads, i.aboutCog.isFinite = false

theorem undetected_of_outcome {x y : Float} (h : (outcome x y).toOption.any (fun a =>
    !a.1.inertia.isFinite && a.2.any fun i => !i.aboutCog.isFinite) = true) : Undetected x y := by
  obtain ⟨groups, frames, cog, loads, hg, hf, ha, hp⟩ := exists_of_outcome h
  simp only [Bool.and_eq_true, Bool.not_eq_true', List.any_eq_true] at hp
  exact ⟨craftTree x y, groups, frames, cog, loads, ofRecords_craft x y, hg, hf, ha, hp⟩

/-- Neither an undefined moment of inertia nor an undefined centre of gravity, of a part that weighs
nothing, is detected. -/
theorem undetected_craft : Undetected 0 (0.0 / 0.0) ∧ Undetected (0.0 / 0.0) 1 :=
  ⟨undetected_of_outcome (by decide +kernel), undetected_of_outcome (by decide +kernel)⟩

end InertiaGroup

end Multirotor
