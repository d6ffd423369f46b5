import Multirotor.Proofs.ExtraModule
import Multirotor.Proofs.Groups
import Multirotor.CentreOfGravity

/-!
# The robot as one body

Folding segments into groups, loading the groups with modules and adding the
groups up at their frames gives what placing every segment and every module
on its own gives (`aggregate_eq_sum`).
-/

namespace Multirotor

/-! ## Bodies at their frames -/

structure Body where
  inertia : Inertia ℝ
  frame : Frame ℝ

namespace Body

variable (b : Body)

noncomputable def centre : Vec3 ℝ := b.frame.point b.inertia.cog

/-- Rotational inertia about a point, in the axes the frame is given in. -/
noncomputable def about (p : Vec3 ℝ) : Mat3 ℝ :=
  b.frame.rotation.toMatrix * b.inertia.aboutCog * b.frame.rotation.toMatrix.transpose +
    Inertia.parallelAxis b.inertia.mass (b.centre - p)

noncomputable def moments : Moments := Moments.seen b.frame b.inertia.moments

theorem first_moments : b.moments.first = b.centre * b.inertia.mass := by
  rw [moments, Moments.seen_first, centre, Frame.point_eq, Vec3.add_mul_scale, ← Quat.rotate_mul]
  rfl

theorem about_moments (h : b.frame.Rigid) (p : Vec3 ℝ) : Moments.about p b.moments = b.about p := by
  rw [moments, ← Inertia.moments_transformed h, Inertia.about_moments, Inertia.transformed_eq,
    Inertia.aboutCog_ofCog]
  rfl

end Body

theorem Tree.seenAt_first {t : Tree ℝ} (frames : Placement ℝ t.size) (i : Fin t.size)
    (b : Inertia ℝ) : (seenAt frames i b).first = (frames.get i).point b.cog * b.mass :=
  (⟨b, frames.get i⟩ : Body).first_moments

/-! ## Sums of bodies -/

namespace Moments

theorem mass_sum (l : List Moments) : l.sum.mass = (l.map Moments.mass).sum :=
  map_list_sum (AddMonoidHom.mk' Moments.mass add_mass) l

theorem first_sum (l : List Moments) : l.sum.first = (l.map Moments.first).sum :=
  map_list_sum (AddMonoidHom.mk' Moments.first add_first) l

end Moments

theorem Inertia.eq_sum_bodies {i : Inertia ℝ} {bodies : List Body}
    (h : i.moments = (bodies.map Body.moments).sum) (hr : ∀ b ∈ bodies, b.frame.Rigid) :
    i.mass = (bodies.map fun b => b.inertia.mass).sum ∧
      (i.cog * i.mass : Vec3 ℝ) = (bodies.map fun b => (b.centre * b.inertia.mass : Vec3 ℝ)).sum ∧
      i.aboutCog = (bodies.map fun b => b.about i.cog).sum := by
  refine ⟨?_, ?_, ?_⟩
  · have hm := congrArg Moments.mass h
    rwa [Moments.mass_sum, List.map_map] at hm
  · have hf := congrArg Moments.first h
    rw [Moments.first_sum, List.map_map] at hf
    refine Eq.trans hf (congrArg List.sum (List.map_congr_left fun b _ => ?_))
    exact b.first_moments
  · rw [← about_cog_moments, h, map_list_sum, List.map_map]
    exact congrArg List.sum (List.map_congr_left fun b hb => b.about_moments (hr b hb) _)

/-! ## Loaded groups -/

namespace InertiaGroup

variable {t : Tree ℝ} {frames : Placement ℝ t.size} {groups : List (InertiaGroup ℝ t.size)}
  {loaded : List (Inertia ℝ)}

theorem index?_eq_some {α : Type} {n : Nat} {groups : List (InertiaGroup α n)} {name : String}
    {g : Nat} (h : index? groups name = some g) :
    ∃ group, groups[g]? = some group ∧ group.name = name := by
  obtain ⟨hlt, hname, -⟩ := List.findIdx?_eq_some_iff_getElem.mp h
  exact ⟨groups[g], List.getElem?_eq_getElem hlt, eq_of_beq hname⟩

structure Fits (groups : List (InertiaGroup ℝ t.size)) (loaded : List (Inertia ℝ)) : Prop where
  length : loaded.length = groups.length
  mass : ∀ i ∈ loaded, 0 ≤ i.mass

theorem Fits.modify (h : Fits groups loaded) {b : Inertia ℝ} (hb : 0 ≤ b.mass) (g : Nat) :
    Fits groups (loaded.modify g (· + b)) := by
  refine ⟨(List.length_modify _ _ _).trans h.length, fun i hi => ?_⟩
  obtain ⟨k, hk, rfl⟩ := List.getElem_of_mem hi
  rw [List.getElem_modify]
  split
  · exact add_nonneg (h.mass _ (List.getElem_mem _)) hb
  · exact h.mass _ (List.getElem_mem _)

noncomputable def heldLoaded (frames : Placement ℝ t.size) (groups : List (InertiaGroup ℝ t.size))
    (loaded : List (Inertia ℝ)) : Moments :=
  ((groups.zip loaded).map fun x => Tree.seenAt frames x.1.base x.2).sum

theorem heldLoaded_map : heldLoaded frames groups (groups.map (·.inertia)) =
    Tree.held frames groups := by
  induction groups with
  | nil => rfl
  | cons group groups ih =>
    simp only [heldLoaded, Tree.held, List.map_cons, List.zip_cons_cons, List.sum_cons] at ih ⊢
    rw [ih]

theorem heldLoaded_modify {g : Nat} {group : InertiaGroup ℝ t.size} {b : Inertia ℝ}
    (hg : groups[g]? = some group) (hfit : Fits groups loaded) (hb : 0 ≤ b.mass) :
    heldLoaded frames groups (loaded.modify g (· + b)) =
      heldLoaded frames groups loaded + Tree.seenAt frames group.base b := by
  induction groups generalizing loaded g with
  | nil => simp at hg
  | cons first groups ih =>
    obtain ⟨hlen, hm⟩ := hfit
    cases loaded with
    | nil => simp at hlen
    | cons i loaded =>
      obtain ⟨hi, hm⟩ := List.forall_mem_cons.mp hm
      cases g with
      | zero =>
        rw [List.getElem?_cons_zero, Option.some.injEq] at hg
        simp only [List.modify_zero_cons, heldLoaded, List.zip_cons_cons, List.map_cons,
          List.sum_cons, Tree.seenAt, hg, Inertia.moments_add hi hb, map_add]
        abel
      | succ g =>
        rw [List.getElem?_cons_succ] at hg
        have hrest := ih hg ⟨Nat.succ.inj hlen, hm⟩
        simp only [heldLoaded] at hrest
        simp only [List.modify_succ_cons, heldLoaded, List.zip_cons_cons, List.map_cons,
          List.sum_cons, hrest]
        abel

/-- The additions of the groups, at the root. -/
noncomputable def joining (groups : List (InertiaGroup ℝ t.size)) (loaded : List (Inertia ℝ))
    (frames : Placement ℝ t.size) : List Addition :=
  Addition.running .identity (fun x => x.2.transformed (frames.get x.1.base)) 0
    (groups.zip loaded)

section
variable (hr : ∀ i, (frames.get i).Rigid)
include hr

theorem total_add_dropped : (total groups loaded frames).moments +
    Addition.droppedBy (joining groups loaded frames) = heldLoaded frames groups loaded := by
  have hsum := Addition.seen_foldl .identity
    (fun x : InertiaGroup ℝ t.size × Inertia ℝ => x.2.transformed (frames.get x.1.base)) (i := 0)
    (l := groups.zip loaded)
  simp only [Moments.seen_identity, Inertia.moments_zero, zero_add] at hsum
  refine Eq.trans hsum (congrArg List.sum (List.map_congr_left fun x _ => ?_))
  exact Inertia.moments_transformed (hr _) _

theorem moments_total (hm : ∀ i ∈ loaded, 0 ≤ i.mass) :
    (total groups loaded frames).moments = heldLoaded frames groups loaded := by
  have hdropped : Addition.droppedBy (joining groups loaded frames) = 0 :=
    Addition.droppedBy_running _ le_rfl fun x hx => hm x.2 (List.of_mem_zip hx).2
  rw [← total_add_dropped hr, hdropped, add_zero]

end

/-! ## Loading -/

theorem loaded_isOk {α : Type} [Scalar α] {n : Nat} {groups : List (InertiaGroup α n)}
    {payload : Payload α} (hp : payload.Filled groups) :
    ∃ loads, InertiaGroup.loaded groups payload = .ok loads := by
  have hrun : ∀ (ms : List (ExtraModule α)) (loads : List (Inertia α)),
      (∀ m ∈ ms, (index? groups m.parent).isSome) →
        ∃ loads', ms.foldlM (load groups) loads = .ok loads' := by
    intro ms
    induction ms with
    | nil => exact fun loads _ => ⟨loads, rfl⟩
    | cons m ms ih =>
      intro loads hparents
      obtain ⟨hm, hparents⟩ := List.forall_mem_cons.mp hparents
      obtain ⟨g, hg⟩ := Option.isSome_iff_exists.mp hm
      simp only [List.foldlM_cons, load, hg]
      exact ih _ hparents
  exact hrun _ _ fun m hm => (hp.passes hm).parent

/-- A module at the frame of the segment that carries it. -/
noncomputable def moduleBody? (t : Tree ℝ) (frames : Placement ℝ t.size) (m : ExtraModule ℝ) :
    Option Body :=
  (t.find? m.parent).map fun i => ⟨m.inertia, frames.get i * m.offset⟩

section
variable (hw : t.WellFormed) (hname : ∀ g ∈ groups, g.name = (t.segment g.base).name)
include hw hname

theorem moduleBody?_eq {m : ExtraModule ℝ} (hc : Payload.Carried groups m) :
    ∃ g group, index? groups m.parent = some g ∧ groups[g]? = some group ∧
      t.find? m.parent = some group.base := by
  obtain ⟨g, hg⟩ := Option.isSome_iff_exists.mp hc.parent
  obtain ⟨group, hgroup, hgname⟩ := index?_eq_some hg
  have hmem := hname group (List.mem_of_getElem? hgroup)
  exact ⟨g, group, hg, hgroup, hw.find?_eq_some_iff.mpr (hmem.symm.trans hgname)⟩

variable (hr : ∀ i, (frames.get i).Rigid)
include hr

theorem heldLoaded_foldlM {ms : List (ExtraModule ℝ)} (hc : ∀ m ∈ ms, Payload.Carried groups m)
    {loaded loaded' : List (Inertia ℝ)} (hfit : Fits groups loaded)
    (h : ms.foldlM (load groups) loaded = .ok loaded') :
    Fits groups loaded' ∧ heldLoaded frames groups loaded' = heldLoaded frames groups loaded +
      ((ms.filterMap (moduleBody? t frames)).map Body.moments).sum := by
  induction ms generalizing loaded with
  | nil =>
    cases h
    exact ⟨hfit, by simp⟩
  | cons m ms ih =>
    obtain ⟨hcm, hc⟩ := List.forall_mem_cons.mp hc
    obtain ⟨g, group, hg, hgroup, hfind⟩ := moduleBody?_eq hw hname hcm
    have hoff := ExtraModule.rigid_offset hcm.orientation
    have hlocal : 0 ≤ m.localInertia.mass := hcm.mass.le
    simp only [List.foldlM_cons, load, hg] at h
    obtain ⟨hfit', hheld⟩ := ih hc (hfit.modify hlocal g) h
    refine ⟨hfit', ?_⟩
    have hbody : moduleBody? t frames m = some ⟨m.inertia, frames.get group.base * m.offset⟩ := by
      rw [moduleBody?, hfind]
      rfl
    have hseen : Tree.seenAt frames group.base m.localInertia =
        Moments.seen (frames.get group.base * m.offset) m.inertia.moments := by
      rw [Tree.seenAt, ExtraModule.localInertia, ← Inertia.moments_transformed (hr _),
        Inertia.transformed_transformed (hr _) hoff, Inertia.moments_transformed ((hr _).mul hoff)]
    rw [hheld, heldLoaded_modify hgroup hfit hlocal, hseen, List.filterMap_cons_some hbody,
      List.map_cons, List.sum_cons, Body.moments, add_assoc]

end

end InertiaGroup

/-! ## The whole robot -/

namespace CentreOfGravity

section
variable {α : Type} [Scalar α] {body : Inertia α} {baselink : Frame α} {desired : Quat α}
  {cog : CentreOfGravity α}

theorem ofBody_eq_ok (h : ofBody body baselink desired = .ok cog) :
    cog.mass = body.mass ∧ cog.position = body.cog ∧
      cog.frame.rotation = baselink.rotation * desired.inverse ∧
      cog.inertia = cog.frame.rotation.toMatrix.transpose * body.aboutCog *
        cog.frame.rotation.toMatrix := by
  unfold ofBody at h
  obtain ⟨-, h⟩ := demand_eq_ok.mp h
  obtain ⟨-, h⟩ := demand_eq_ok.mp h
  cases h
  exact ⟨rfl, rfl, rfl, rfl⟩

theorem checked_of_ofBody (h : ofBody body baselink desired = .ok cog) :
    Scalar.isFinite body.mass = true ∧ 0 < body.mass ∧ body.cog.isFinite = true := by
  unfold ofBody at h
  obtain ⟨hmass, h⟩ := demand_eq_ok.mp h
  obtain ⟨hcog, -⟩ := demand_eq_ok.mp h
  exact ⟨hmass.1, hmass.2, hcog⟩

theorem mass_pos_of_ofBody (h : ofBody body baselink desired = .ok cog) : 0 < body.mass :=
  (checked_of_ofBody h).2.1

theorem ofBody_eq_error {e : ModelError α} (h : ofBody body baselink desired = .error e) :
    e = .tree (.totalMass body.mass) ∨ e = .tree .centreNotFinite := by
  simp only [ofBody] at h
  split at h
  · split at h
    · cases h
    · cases h
      exact .inr rfl
  · cases h
    exact .inl rfl

theorem ofBody_of_not_isFinite (h : Scalar.isFinite body.mass = false) :
    ofBody body baselink desired = .error (.tree (.totalMass body.mass)) := by
  simp only [ofBody, h, Bool.false_eq_true, false_and, if_false]
  rfl

end

theorem ofBody_isOk {body : Inertia ℝ} (h : 0 < body.mass) (baselink : Frame ℝ) (desired : Quat ℝ) :
    ∃ cog, ofBody body baselink desired = .ok cog := by
  have hfinite : body.cog.isFinite = true := by simp [Vec3.isFinite]
  simp only [ofBody, Scalar.isFinite_real, true_and, if_pos h, hfinite, if_true]
  exact ⟨_, rfl⟩

/-- The robot as one body is all of the bodies: the mass is the sum of theirs, the centre of gravity
the mean of theirs, and the inertia the sum of their inertias about it, in its axes. -/
structure IsSum (c : CentreOfGravity ℝ) (bodies : List Body) : Prop where
  mass : c.mass = (bodies.map fun b => b.inertia.mass).sum
  centre : (c.position * c.mass : Vec3 ℝ) =
    (bodies.map fun b => (b.centre * b.inertia.mass : Vec3 ℝ)).sum
  inertia : c.inertia = c.frame.rotation.toMatrix.transpose *
    (bodies.map fun b => b.about c.position).sum * c.frame.rotation.toMatrix

end CentreOfGravity

/-- All segments and all modules, each at its own frame. -/
noncomputable def Tree.bodies (t : Tree ℝ) (frames : Placement ℝ t.size) (payload : Payload ℝ) :
    List Body :=
  ((List.finRange t.size).map fun i => ⟨(t.segment i).inertia, frames.get i⟩) ++
    payload.modules.filterMap (InertiaGroup.moduleBody? t frames)

namespace InertiaGroup

variable {records : List (SegmentRecord ℝ)} {t : Tree ℝ} {q : Coordinates ℝ}
  {frames : Placement ℝ t.size} {groups : List (InertiaGroup ℝ t.size)} {payload : Payload ℝ}

theorem rigid_bodies (ht : t.Rigid) (hq : t.place q = .ok frames)
    (hp : payload.Filled groups) : ∀ b ∈ t.bodies frames payload, b.frame.Rigid := by
  intro b hb
  rcases List.mem_append.mp hb with hb | hb
  · obtain ⟨i, -, rfl⟩ := List.mem_map.mp hb
    exact ht.place hq i
  · obtain ⟨m, hm, hb⟩ := List.mem_filterMap.mp hb
    obtain ⟨i, -, rfl⟩ := Option.map_eq_some_iff.mp hb
    exact (ht.place hq i).mul (ExtraModule.rigid_offset (hp.carried hm).orientation)

section
variable (hw : t.WellFormed) (ht : t.Rigid) (hmass : ∀ i, 0 ≤ (t.segment i).inertia.mass)
  (hq : t.place q = .ok frames) (hg : t.groups = .ok groups) (hp : payload.Filled groups)
  {loads : List (Inertia ℝ)} (hl : loaded groups payload = .ok loads)
include hw ht hmass hq hg hp hl

theorem fits_loaded : Fits groups loads ∧
    heldLoaded frames groups loads = ((t.bodies frames payload).map Body.moments).sum := by
  obtain ⟨hheld, hgm, hname⟩ := Tree.moments_groups hmass hw ht hq hg
  have hfit : Fits groups (groups.map (·.inertia)) :=
    ⟨List.length_map _, by simpa using hgm⟩
  obtain ⟨hfit', hloaded⟩ := heldLoaded_foldlM hw hname (ht.place hq)
    (fun m hm => hp.carried hm) hfit hl
  refine ⟨hfit', ?_⟩
  rw [hloaded, heldLoaded_map, hheld, Tree.bodies, List.map_append, List.sum_append, List.map_map,
    Fin.sum_univ_def]
  rfl

theorem moments_loaded : (total groups loads frames).moments =
    ((t.bodies frames payload).map Body.moments).sum := by
  obtain ⟨hfit, hheld⟩ := fits_loaded hw ht hmass hq hg hp hl
  rw [moments_total (ht.place hq) hfit.mass, hheld]

end

/-- Aggregation over groups is a sum over all segments and modules, each at its own frame. -/
theorem aggregate_eq_sum (hr : Tree.ofRecords records = .ok t) (ht : t.Rigid)
    (hmass : ∀ i, 0 ≤ (t.segment i).inertia.mass) (hq : t.place q = .ok frames)
    (hg : t.groups = .ok groups) (hp : payload.Filled groups) {baselink : Fin t.size}
    {desired : Quat ℝ} {cog : CentreOfGravity ℝ} {loads : List (Inertia ℝ)}
    (h : aggregate groups payload frames baselink desired = .ok (cog, loads)) :
    (∀ m ∈ payload.modules, (t.find? m.parent).isSome) ∧
      cog.frame.rotation = (frames.get baselink).rotation * desired.inverse ∧
      cog.IsSum (t.bodies frames payload) := by
  have hw := Tree.wellFormed_of_ofRecords hr
  obtain ⟨-, -, hname⟩ := Tree.moments_groups hmass hw ht hq hg
  obtain ⟨loads', hl, h⟩ := bind_eq_ok.mp h
  obtain ⟨cog', hc, h⟩ := bind_eq_ok.mp h
  cases h
  obtain ⟨hcm, hcp, hcr, hci⟩ := CentreOfGravity.ofBody_eq_ok hc
  obtain ⟨hm, hf, ha⟩ := Inertia.eq_sum_bodies
    (moments_loaded hw ht hmass hq hg hp hl) (rigid_bodies ht hq hp)
  refine ⟨fun m hm => ?_, hcr, hcm.trans hm, ?_, ?_⟩
  · obtain ⟨_, _, _, _, hfind⟩ := moduleBody?_eq hw hname (hp.carried hm)
    rw [hfind]
    rfl
  · rw [hcp, hcm, hf]
  · rw [hci, ha, hcp]

theorem aggregate_isOk (hw : t.WellFormed) (ht : t.Rigid)
    (hmass : ∀ i, 0 ≤ (t.segment i).inertia.mass) (hq : t.place q = .ok frames)
    (hg : t.groups = .ok groups) (hp : payload.Filled groups)
    (hpos : 0 < ((t.bodies frames payload).map fun b => b.inertia.mass).sum)
    (baselink : Fin t.size) (desired : Quat ℝ) :
    ∃ cog loads, aggregate groups payload frames baselink desired = .ok (cog, loads) := by
  obtain ⟨loads, hl⟩ := loaded_isOk hp
  have hm := (Inertia.eq_sum_bodies (moments_loaded hw ht hmass hq hg hp hl)
    (rigid_bodies ht hq hp)).1
  obtain ⟨cog, hc⟩ := CentreOfGravity.ofBody_isOk (hm ▸ hpos) (frames.get baselink) desired
  exact ⟨cog, loads, bind_eq_ok.mpr ⟨loads, hl, bind_eq_ok.mpr ⟨cog, hc, rfl⟩⟩⟩

/-! ## A crane -/

/-- An arm that turns on a base, with a massless hook at its end. -/
noncomputable def crane : List (SegmentRecord ℝ) :=
  [⟨"base", none, .identity, ⟨"ground", .fixed⟩, .pointMass 1 0⟩,
    ⟨"arm", some "base", ⟨⟨0, 0, 1⟩, .identity⟩, ⟨"hinge", .revolute ⟨0, 1, 0⟩⟩,
      .pointMass 1 ⟨1, 0, 0⟩⟩,
    ⟨"hook", some "arm", ⟨⟨1, 0, 0⟩, .identity⟩, ⟨"weld", .fixed⟩, .pointMass 0 ⟨0, 0, 1⟩⟩]

noncomputable def craneTree : Tree ℝ :=
  .below crane (fun i => (Vector.ofFn (Tree.parentOf crane)).get i) ⟨0, Nat.succ_pos 2⟩

noncomputable def lamp : ExtraModule ℝ :=
  ⟨"lamp", "arm", ⟨1, 0, 0⟩, ⟨0, 1, 0, 0⟩, .pointMass 1 ⟨0, 0, 1⟩⟩

theorem ofRecords_crane : Tree.ofRecords crane = .ok craneTree := rfl

theorem valid_crane : ∀ r ∈ crane, (r.offset.Rigid ∧
    ∀ axis, r.joint.kind = .revolute axis → axis.normSq = 1) ∧ 0 ≤ r.inertia.mass := by
  intro r hr
  simp only [crane, List.mem_cons, List.not_mem_nil, or_false] at hr
  rcases hr with rfl | rfl | rfl
  · exact ⟨⟨Frame.rigid_identity, fun _ h => by simp at h⟩, zero_le_one⟩
  · refine ⟨⟨Quat.unit_identity, fun axis h => ?_⟩, zero_le_one⟩
    cases h
    norm_num [Vec3.normSq_eq, Vec3.dot_eq]
  · exact ⟨⟨Quat.unit_identity, fun _ h => by simp at h⟩, le_rfl⟩

theorem rigid_crane : craneTree.Rigid :=
  Tree.rigid_of_ofRecords ofRecords_crane fun r hr => (valid_crane r hr).1

theorem mass_crane (i : Fin craneTree.size) : 0 ≤ (craneTree.segment i).inertia.mass := by
  obtain ⟨r, hmem, -, -, hinertia⟩ := Tree.exists_record ofRecords_crane i
  exact hinertia ▸ (valid_crane r hmem).2

theorem groups_crane :
    ∃ groups, craneTree.groups = .ok groups ∧ (index? groups "arm").isSome = true :=
  ⟨_, rfl, rfl⟩

theorem place_crane (x : ℝ) : ∃ frames, craneTree.place ⟨[x]⟩ = .ok frames := ⟨_, rfl⟩

theorem add_lamp {n : Nat} {groups : List (InertiaGroup ℝ n)}
    (h : (index? groups "arm").isSome = true) : Payload.empty.add groups lamp = .ok ⟨[lamp]⟩ := by
  have hparent : (index? groups lamp.parent).isNone = false := by
    rw [Option.isNone_eq_false_iff]
    exact h
  have hfind : ((Payload.empty : Payload ℝ).find? lamp.name).isSome = false := rfl
  have hunit : lamp.orientation.isUnit = true := by
    norm_num [lamp, Quat.isUnit, Quat.normSq_eq, Quat.unitTolerance, Scalar.abs_real]
  have hmass : 0 < lamp.inertia.mass := zero_lt_one
  have hfinite : ∀ v : Vec3 ℝ, v.isFinite = true := fun v => by simp [Vec3.isFinite]
  have hfinite' : ∀ a : Mat3 ℝ, a.isFinite = true := fun a => by simp [Mat3.isFinite, hfinite]
  have hcheck : Payload.empty.check groups lamp = .ok () := by
    simp [Payload.check, hparent, hfind, hunit, hmass, hfinite, hfinite']
    rfl
  exact bind_eq_ok.mpr ⟨(), hcheck, rfl⟩

theorem filled_lamp {groups : List (InertiaGroup ℝ craneTree.size)}
    (h : (index? groups "arm").isSome = true) : Payload.Filled groups ⟨[lamp]⟩ :=
  .add .empty (add_lamp h)

theorem mass_bodies_crane (frames : Placement ℝ craneTree.size) :
    (craneTree.bodies frames ⟨[lamp]⟩).map (fun b => b.inertia.mass) = [1, 1, 0, 1] := by
  have hfind : craneTree.find? lamp.parent = some ⟨1, Nat.one_lt_succ_succ 1⟩ :=
    (Tree.wellFormed_of_ofRecords ofRecords_crane).find?_eq_some_iff.mpr rfl
  obtain ⟨f, hbody⟩ : ∃ f, moduleBody? craneTree frames lamp = some ⟨lamp.inertia, f⟩ := by
    rw [moduleBody?, hfind]
    exact ⟨_, rfl⟩
  rw [Tree.bodies, List.filterMap_cons_some hbody]
  rfl

theorem aggregate_eq_sum_crane :
    ∃ frames groups cog loads, craneTree.place ⟨[1]⟩ = .ok frames ∧
      craneTree.groups = .ok groups ∧ Payload.Filled groups ⟨[lamp]⟩ ∧
      aggregate groups ⟨[lamp]⟩ frames craneTree.root Quat.identity = .ok (cog, loads) ∧
      (∀ m ∈ [lamp], (craneTree.find? m.parent).isSome) ∧
      cog.frame.rotation = (frames.get craneTree.root).rotation * Quat.identity.inverse ∧
      cog.IsSum (craneTree.bodies frames ⟨[lamp]⟩) := by
  obtain ⟨frames, hq⟩ := place_crane 1
  obtain ⟨groups, hg, harm⟩ := groups_crane
  have hp := filled_lamp harm
  have hpos : 0 < ((craneTree.bodies frames ⟨[lamp]⟩).map fun b => b.inertia.mass).sum := by
    rw [mass_bodies_crane]
    norm_num
  obtain ⟨cog, loads, h⟩ := aggregate_isOk (Tree.wellFormed_of_ofRecords ofRecords_crane)
    rigid_crane mass_crane hq hg hp hpos craneTree.root Quat.identity
  exact ⟨frames, groups, cog, loads, hq, hg, hp, h,
    aggregate_eq_sum ofRecords_crane rigid_crane mass_crane hq hg hp h⟩

end InertiaGroup

end Multirotor
