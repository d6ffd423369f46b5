import Multirotor.Proofs.LinearSystem.SingularValues
import Multirotor.Proofs.LoadOrder
import Multirotor.Proofs.Posture
import Multirotor.Proofs.RotorNumbering
import Multirotor.Proofs.Sensitivity.Embedding

/-!
# Modules as segments

A module that is mounted on a group weighs and moves like a segment of its
inertia that is fixed to the base of the group. The robot with the module and
the robot with the segment hover alike and have one sensitivity
(`solve_asSegment`).
-/

namespace Multirotor

/-! ## Rotors -/

theorem Tree.Extends.find?_map {α : Type} {t t' : Tree α} {e : Fin t.size → Fin t'.size}
    {leaf : Fin t'.size} {p : Fin t.size} (h : t.Extends t' e leaf p) (hw : t.WellFormed)
    (hw' : t'.WellFormed) {name : String} (hname : (t'.segment leaf).name ≠ name) :
    t'.find? name = (t.find? name).map e :=
  hw.find?_map hw' h.name fun j hj => h.ancestry.exists_of_ne j fun he => hname (he ▸ hj)

namespace RotorLayout

section
variable {α : Type} {t t' : Tree α} {e : Fin t.size → Fin t'.size} {leaf : Fin t'.size}
  {p : Fin t.size} {link : String}

theorem Counts.map (hfind : ∀ i, t'.find? (rotorName link i) = (t.find? (rotorName link i)).map e)
    {i : Nat} {segments : List (Fin t.size)} (h : Counts t link i segments) :
    Counts t' link i (segments.map e) := by
  induction h with
  | stop hnone => exact .stop (by rw [hfind, hnone, Option.map_none])
  | next hs _ ih => exact .next (by rw [hfind, hs, Option.map_some]) ih

variable (h : t.Extends t' e leaf p) (hw : t.WellFormed) (hw' : t'.WellFormed)
include h hw hw'

theorem numbered_map (hlink : ∀ i, (t'.segment leaf).name ≠ rotorName link i) :
    numbered t' link = (numbered t link).map e := by
  have hfind : ∀ i, t'.find? (rotorName link i) = (t.find? (rotorName link i)).map e := fun i =>
    h.find?_map hw hw' (hlink i)
  exact (counts_numbered t' link).unique ((counts_numbered t link).map hfind)

theorem resolve_map (hlink : ∀ i, (t'.segment leaf).name ≠ rotorName link i) (count : Option Nat) :
    resolve t' link count = (resolve t link count).map (List.map e) := by
  cases count with
  | none =>
    rw [resolve_none, resolve_none, numbered_map h hw hw' hlink]
    cases numbered t link <;> rfl
  | some n =>
    rw [resolve_some, resolve_some, numbered_map h hw hw' hlink, List.length_map, ← List.map_take]
    split
    · rfl
    · split <;> rfl

variable [Scalar α]

omit hw hw' in
theorem directionsOf_map (c : Config α) (segments : List (Fin t.size)) :
    directionsOf t' c (segments.map e) = directionsOf t c segments := by
  have haxis : axisDirection t' ∘ e = axisDirection t := funext fun i => by
    rw [Function.comp_apply, axisDirection, axisDirection, h.joint]
  unfold directionsOf
  rw [List.map_map, List.length_map, haxis]

theorem ofConfig_map {c : Config α}
    (hlink : ∀ i, (t'.segment leaf).name ≠ rotorName c.thrustLink i) :
    ofConfig t' c = (ofConfig t c).map (RotorLayout.map e) := by
  rw [ofConfig_eq, ofConfig_eq, resolve_map h hw hw' hlink]
  cases resolve t c.thrustLink c.rotorCount with
  | error cause => rfl
  | ok segments =>
    change (directionsOf t' c (segments.map e)).map _ = ((directionsOf t c segments).map _).map _
    rw [directionsOf_map h]
    cases directionsOf t c segments <;> rfl

end

end RotorLayout

/-! ## Robots -/

namespace Robot

section
variable {α : Type} [Scalar α]

/-- The robot with one more leaf in the group of the base `p`. -/
def extended (r : Robot α) (t' : Tree α) (e : Fin r.tree.size → Fin t'.size) (p : Fin r.tree.size)
    (b : Inertia α) : Robot α where
  tree := t'
  groups := r.groups.map (·.extended e p b)
  rotors := r.rotors.map e
  baselink := e r.baselink
  config := r.config

variable {r : Robot α} {t' : Tree α} {e : Fin r.tree.size → Fin t'.size} {leaf : Fin t'.size}
  {p : Fin r.tree.size}

theorem embeds_extended (h : r.tree.Embeds t' e) (b : Inertia α) :
    r.Embeds (r.extended t' e p b) e := by
  refine ⟨h, ?_, rfl, rfl, rfl⟩
  unfold extended
  rw [List.map_map]
  rfl

theorem ofConfig_extended (h : r.tree.Extends t' e leaf p) (hw : r.tree.WellFormed)
    (hw' : t'.WellFormed) (hp : r.tree.isBase p = true)
    (hlink : ∀ i, (t'.segment leaf).name ≠ RotorLayout.rotorName r.config.thrustLink i)
    (hr : ofConfig r.tree r.config = .ok r) : ofConfig t' r.config = .ok
      (r.extended t' e p ((t'.segment leaf).inertia.transformed (t'.segment leaf).offset)) := by
  obtain ⟨tree, groups, rotors, baselink, config⟩ := r
  obtain ⟨_, _, _, hvalid, hbase, hgroups, hrotors, he⟩ := ofConfig_eq_ok hr
  cases he
  have hbase' : t'.require config.baselink = .ok (e baselink) := by
    have hname := Tree.name_of_find? (Tree.require_eq_ok.mp hbase)
    exact Tree.require_eq_ok.mpr (hw'.find?_eq_some_iff.mpr ((h.name baselink).trans hname))
  have hrotors' : RotorLayout.ofConfig t' config = .ok (rotors.map e) := by
    rw [RotorLayout.ofConfig_map h hw hw' hlink]
    exact congrArg (Except.map (RotorLayout.map e)) hrotors
  exact bind_eq_ok.mpr ⟨_, hvalid, bind_eq_ok.mpr ⟨_, hbase', bind_eq_ok.mpr
    ⟨_, h.groups hw hw' hp hgroups, bind_eq_ok.mpr ⟨_, hrotors', rfl⟩⟩⟩⟩

end

end Robot

/-! ## The module and the segment -/

/-- A segment of the inertia of a module, fixed where the module is mounted. -/
def ExtraModule.asSegment {α : Type} [Scalar α] (m : ExtraModule α) (name joint : String) :
    SegmentRecord α :=
  ⟨name, some m.parent, m.offset, ⟨joint, .fixed⟩, m.inertia⟩

namespace Robot

variable [SingularValues ℝ] {records : List (SegmentRecord ℝ)} {t : Tree ℝ} {config : Config ℝ}
  {r : Robot ℝ} {payload payload' : Payload ℝ} {m : ExtraModule ℝ} {name : String}

/-- Without the module, the robot `r'` with the segment does what `r` does with the module. -/
structure Replaces (r r' : Robot ℝ) (e : Fin r.tree.size → Fin r'.tree.size)
    (payload payload' : Payload ℝ) : Prop where
  number : ∀ i, (e i).val = i.val
  embeds : r.Embeds r' e
  filled : payload.Filled r'.groups
  solve : ∀ desired q, SameOutcome (fun s s' => s.Within e s' ∧ r'.analytic s' = r.analytic s)
    (r.solve ⟨payload', desired⟩ q) (r'.solve ⟨payload, desired⟩ q)

theorem solve_asSegment (ht : Tree.ofRecords records = .ok t)
    (hmass : ∀ x ∈ records, 0 ≤ x.inertia.mass) (hr : ofConfig t config = .ok r)
    (hp : payload.Filled r.groups) (hm : payload.add r.groups m = .ok payload')
    (hfresh : ∀ x ∈ records, x.name ≠ name)
    (hlink : ∀ i, name ≠ RotorLayout.rotorName config.thrustLink i) (joint : String) :
    ∃ t' r' e, Tree.ofRecords (records ++ [m.asSegment name joint]) = .ok t' ∧
      ofConfig t' config = .ok r' ∧ r.Replaces r' e payload payload' := by
  obtain ⟨rfl, rfl⟩ := eq_of_ofConfig hr
  have hgroups := groups_of_ofConfig hr
  have hw := Tree.wellFormed_of_ofRecords ht
  have hrooted := Tree.rooted_of_ofRecords ht
  obtain ⟨g, hg⟩ := Option.isSome_iff_exists.mp
    (Payload.carried_of_check (Payload.add_eq_ok hm).1).parent
  obtain ⟨group, hgroup, hname⟩ := InertiaGroup.index?_eq_some hg
  obtain ⟨hbase, hgname⟩ := Tree.base_of_mem hgroups (List.mem_of_getElem? hgroup)
  have hparent : (m.asSegment name joint).parent = some (r.tree.segment group.base).name :=
    congrArg some (hname.symm.trans hgname)
  obtain ⟨t', e, leaf, ht', hext, hnumber, hleaf⟩ := Tree.exists_extends ht hfresh hparent rfl
  have hw' := Tree.wellFormed_of_ofRecords ht'
  have hleafname : (t'.segment leaf).name = name := congrArg SegmentRecord.name hleaf
  have hinertia : (t'.segment leaf).inertia = m.inertia := congrArg SegmentRecord.inertia hleaf
  have hoffset : (t'.segment leaf).offset = m.offset := congrArg SegmentRecord.offset hleaf
  have hlocal : (t'.segment leaf).inertia.transformed (t'.segment leaf).offset =
      m.localInertia := by
    rw [hinertia, hoffset]
    rfl
  have hr' := ofConfig_extended hext hw hw' hbase (hleafname ▸ hlink) hr
  rw [hlocal] at hr'
  have hembeds : r.Embeds (r.extended t' e group.base m.localInertia) e :=
    embeds_extended (hext.embeds hrooted (Tree.rooted_of_ofRecords ht')) m.localInertia
  have hmasses : ∀ i, 0 ≤ (r.tree.segment i).inertia.mass := fun i => by
    obtain ⟨x, hx, -, -, hi⟩ := Tree.exists_record ht i
    exact hi ▸ hmass x hx
  have hloaded := InertiaGroup.loaded_extended (e := e) (Tree.nodup_bases hw hgroups)
    (Tree.mass_groups hmasses hgroups) hp hm hg hgroup
  refine ⟨t', _, e, ht', hr', hnumber, hembeds, hp.congr hembeds.names, fun desired q => ?_⟩
  exact (hembeds.solve hrooted hw hw' hloaded desired q).imp fun s s' hs =>
    ⟨hs, hembeds.analytic hs⟩

/-! ## A lamp on the arm -/

omit [SingularValues ℝ]

open SingularValues (descending)

theorem solve_asSegment_lamp :
    Tree.ofRecords hexarotorRecords = .ok hexarotorTree ∧
    (∀ x ∈ hexarotorRecords, 0 ≤ x.inertia.mass) ∧
    ofConfig hexarotorTree hexarotorConfig = .ok hexarotor ∧
    Payload.empty.Filled hexarotor.groups ∧
    Payload.empty.add hexarotor.groups InertiaGroup.lamp = .ok ⟨[InertiaGroup.lamp]⟩ ∧
    (∀ x ∈ hexarotorRecords, x.name ≠ "lamp") ∧
    (∀ i, "lamp" ≠ RotorLayout.rotorName hexarotorConfig.thrustLink i) ∧
    ∃ t' r' e, Tree.ofRecords (hexarotorRecords ++ [InertiaGroup.lamp.asSegment "lamp" "clamp"]) =
        .ok t' ∧ ofConfig t' hexarotorConfig = .ok r' ∧
      @Replaces descending hexarotor r' e .empty ⟨[InertiaGroup.lamp]⟩ := by
  have hmass : ∀ x ∈ hexarotorRecords, 0 ≤ x.inertia.mass := fun x hx => (valid_hexarotor x hx).2
  have hadd : Payload.empty.add hexarotor.groups InertiaGroup.lamp = .ok ⟨[InertiaGroup.lamp]⟩ :=
    InertiaGroup.add_lamp rfl
  have hfresh : ∀ x ∈ hexarotorRecords, x.name ≠ "lamp" := by
    have hnames : ∀ name ∈ hexarotorRecords.map (·.name), name ≠ "lamp" := by
      decide
    exact fun x hx => hnames _ (List.mem_map_of_mem hx)
  have hlink : ∀ i, "lamp" ≠ RotorLayout.rotorName hexarotorConfig.thrustLink i := by
    intro i h
    have hfirst := congrArg (fun s => s.toList.head?) h
    simp [RotorLayout.rotorName, hexarotorConfig, Config.standard] at hfirst
  exact ⟨ofRecords_hexarotor, hmass, ofConfig_hexarotor, .empty, hadd, hfresh, hlink,
    @solve_asSegment descending _ _ _ _ _ _ _ _ ofRecords_hexarotor hmass ofConfig_hexarotor .empty
      hadd hfresh hlink "clamp"⟩

end Robot

end Multirotor
