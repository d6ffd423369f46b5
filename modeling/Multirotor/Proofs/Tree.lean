import Multirotor.Proofs.Numbering
import Multirotor.Proofs.Outcome

/-!
# Well-formed trees

What the records of an accepted tree are tested for: the names differ, and
the breadth-first order goes through every segment once, parents first. So the
visits in this order number the joints (`numbered_below`), and the children of
a segment are all that have it as their parent (`children_below`).
-/

namespace Multirotor

namespace Tree

variable {α : Type}

structure WellFormed (t : Tree α) : Prop where
  nodup : t.order.Nodup
  complete : ∀ i, i ∈ t.order
  parent_first : t.order.Pairwise fun a b => (t.segment a).parent ≠ some b
  parent_ne_self : ∀ i, (t.segment i).parent ≠ some i
  children : ∀ p, (t.segment p).children = Ancestry.children (fun i => (t.segment i).parent) p
  name_injective : ∀ {i j}, (t.segment i).name = (t.segment j).name → i = j

section
variable {t : Tree α} (hw : t.WellFormed) {c p : Fin t.size}
include hw

theorem WellFormed.mem_children : c ∈ (t.segment p).children ↔ (t.segment c).parent = some p := by
  rw [hw.children, Ancestry.mem_children]

theorem WellFormed.nodup_children : (t.segment p).children.Nodup :=
  hw.children p ▸ Ancestry.nodup_children p

end

theorem repeated?_eq_none_iff {seen names : List String} :
    repeated? seen names = none ↔ names.Nodup ∧ ∀ name ∈ names, name ∉ seen := by
  induction names generalizing seen with
  | nil => simp [repeated?]
  | cons name names ih =>
    rw [repeated?]
    by_cases hseen : name ∈ seen
    · simp [hseen]
    · simp only [List.contains_iff_mem, hseen, if_false, ih, List.nodup_cons, List.mem_cons,
        forall_eq_or_imp, not_or]
      constructor
      · rintro ⟨hnd, hfresh⟩
        exact ⟨⟨fun hm => (hfresh name hm).1 rfl, hnd⟩, not_false, fun x hx => (hfresh x hx).2⟩
      · rintro ⟨⟨hnot, hnd⟩, -, hfresh⟩
        exact ⟨hnd, fun x hx => ⟨fun e => hnot (e ▸ hx), hfresh x hx⟩⟩

section
variable {records : List (SegmentRecord α)} {parent : Fin records.length → Option (Fin records.length)}
  {root : Fin records.length}

theorem get_declared (i : Fin records.length) :
    (Vector.ofFn (declared records parent)).get i = declared records parent i :=
  Vector.get_ofFn _ i

theorem declaration_below (i : Fin records.length) :
    ((below records parent root).segment i).declaration = declared records parent i :=
  (Numbering.declaration_foldl _ _ i).trans (congrArg Segment.declaration (get_declared i))

theorem name_below (i : Fin records.length) :
    ((below records parent root).segment i).name = (records.get i).name :=
  (congrArg Segment.name (declaration_below i) :)

theorem parent_below (i : Fin records.length) :
    ((below records parent root).segment i).parent = parent i :=
  (congrArg Segment.parent (declaration_below i) :)

theorem offset_below (i : Fin records.length) :
    ((below records parent root).segment i).offset = (records.get i).offset :=
  (congrArg Segment.offset (declaration_below i) :)

theorem joint_below (i : Fin records.length) :
    ((below records parent root).segment i).joint = (records.get i).joint :=
  (congrArg Segment.joint (declaration_below i) :)

theorem inertia_below (i : Fin records.length) :
    ((below records parent root).segment i).inertia = (records.get i).inertia :=
  (congrArg Segment.inertia (declaration_below i) :)

section
variable (hroot : parent root = none)
include hroot

theorem numbered_below :
    (numbering records parent (Ancestry.breadthFirst parent root)).Numbered
      (Ancestry.breadthFirst parent root) := by
  refine Numbering.numbered_foldl (fun p => ?_) rfl (Ancestry.nodup_breadthFirst hroot)
    (fun i hi => ?_) ?_
  · rw [get_declared]
    rfl
  · rw [get_declared]
    exact Ancestry.parent_ne_self hroot hi
  · simp only [get_declared]
    exact Ancestry.parent_first hroot

theorem children_below (hall : ∀ i, i ∈ (below records parent root).order)
    (i : Fin records.length) :
    ((below records parent root).segment i).children = Ancestry.children parent i := by
  refine ((numbered_below hroot).children i).trans ?_
  rw [← Ancestry.filter_breadthFirst_eq_children hroot hall i]
  exact List.filter_congr fun j _ => congrArg (· == some i) (parent_below j)

theorem complete_below (hlen : (below records parent root).order.length = records.length)
    (i : Fin records.length) : i ∈ (below records parent root).order :=
  Ancestry.mem_of_nodup (Ancestry.nodup_breadthFirst hroot) hlen i

end

theorem wellFormed_below (hroot : parent root = none) (hnames : (records.map (·.name)).Nodup)
    (hlen : (below records parent root).order.length = records.length) :
    (below records parent root).WellFormed where
  nodup := Ancestry.nodup_breadthFirst hroot
  complete := complete_below hroot hlen
  parent_first := (Ancestry.parent_first hroot).imp fun {a _} h hp =>
    h ((parent_below a).symm.trans hp)
  parent_ne_self i hp :=
    Ancestry.parent_ne_self hroot (complete_below hroot hlen i) ((parent_below i).symm.trans hp)
  children p := (children_below hroot (complete_below hroot hlen) p).trans
    (congrArg (Ancestry.children · p) (funext fun i => (parent_below i).symm))
  name_injective {i j} h := by
    have hname := (name_below i).symm.trans (h.trans (name_below j))
    have hi : i.val < (records.map (·.name)).length := (List.length_map _).symm ▸ i.isLt
    have hj : j.val < (records.map (·.name)).length := (List.length_map _).symm ▸ j.isLt
    have he : (records.map (·.name))[i.val] = (records.map (·.name))[j.val] := by
      rw [List.getElem_map, List.getElem_map]
      exact hname
    exact Fin.ext ((List.Nodup.getElem_inj_iff hnames).mp he)

theorem below_of_ofRecords {t : Tree α} (h : ofRecords records = .ok t) :
    ∃ parent root, (records.get root).parent = none ∧ parent root = none ∧
      (records.map (·.name)).Nodup ∧ (below records parent root).order.length = records.length ∧
      t = below records parent root := by
  simp only [ofRecords] at h
  split at h
  · cases h
  split at h
  · cases h
  rename_i hrepeat
  split at h
  · cases h
  · cases h
  rename_i root hroots
  split at h
  · cases h
  split at h
  · cases h
  rename_i hlen
  cases h
  have hmem : root ∈ (List.finRange records.length).filter fun i =>
      (records.get i).parent.isNone := hroots ▸ List.mem_singleton_self root
  have hroot := Option.isNone_iff_eq_none.mp (List.mem_filter.mp hmem).2
  refine ⟨_, root, hroot, ?_, ?_, not_not.mp hlen, rfl⟩
  · rw [Vector.get_ofFn, parentOf, hroot]
    rfl
  · exact (repeated?_eq_none_iff.mp (Option.eq_none_iff_forall_ne_some.mpr hrepeat)).1

theorem wellFormed_of_ofRecords {t : Tree α} (h : ofRecords records = .ok t) : t.WellFormed := by
  obtain ⟨parent, root, -, hroot, hnames, hlen, rfl⟩ := below_of_ofRecords h
  exact wellFormed_below hroot hnames hlen

theorem exists_record {t : Tree α} (h : ofRecords records = .ok t) (i : Fin t.size) :
    ∃ r ∈ records, (t.segment i).offset = r.offset ∧ (t.segment i).joint = r.joint ∧
      (t.segment i).inertia = r.inertia := by
  obtain ⟨parent, root, -, -, -, -, rfl⟩ := below_of_ofRecords h
  exact ⟨_, List.get_mem records i, offset_below i, joint_below i, inertia_below i⟩

theorem exists_segment {t : Tree α} (h : ofRecords records = .ok t) {r : SegmentRecord α}
    (hr : r ∈ records) : ∃ i : Fin t.size, (t.segment i).inertia = r.inertia := by
  obtain ⟨parent, root, -, -, -, -, rfl⟩ := below_of_ofRecords h
  obtain ⟨i, rfl⟩ := List.get_of_mem hr
  exact ⟨i, inertia_below i⟩

theorem exists_root_record {t : Tree α} (h : ofRecords records = .ok t) :
    ∃ r ∈ records, r.parent = none ∧ (t.segment t.root).joint = r.joint := by
  obtain ⟨parent, root, hroot, -, -, -, rfl⟩ := below_of_ofRecords h
  exact ⟨_, List.get_mem records root, hroot, joint_below root⟩

end

/-! ## Names -/

section
variable {t : Tree α} {name : String} {i : Fin t.size}

theorem name_of_find? (h : t.find? name = some i) : (t.segment i).name = name := by
  obtain ⟨k, hk, rfl⟩ := Option.map_eq_some_iff.mp h
  have hname := (Array.findFinIdx?_eq_some_iff.mp hk).1
  exact eq_of_beq hname

theorem find?_eq_none_iff : t.find? name = none ↔ ∀ i, (t.segment i).name ≠ name := by
  unfold find? segment
  rw [Vector.findFinIdx?_eq_none_iff]
  constructor
  · intro h i he
    exact h _ (Vector.getElem_mem i.isLt) (beq_iff_eq.mpr he)
  · intro h s hs
    obtain ⟨i, hi, rfl⟩ := Vector.getElem_of_mem hs
    exact fun he => h ⟨i, hi⟩ (eq_of_beq he)

theorem WellFormed.find?_eq_some_iff (hw : t.WellFormed) :
    t.find? name = some i ↔ (t.segment i).name = name := by
  refine ⟨name_of_find?, fun h => ?_⟩
  cases hf : t.find? name with
  | none => exact absurd h (find?_eq_none_iff.mp hf i)
  | some j => rw [hw.name_injective ((name_of_find? hf).trans h.symm)]

/-- A name is found where the map takes the segment that has it. -/
theorem WellFormed.find?_map {t' : Tree α} {e : Fin t.size → Fin t'.size} (hw : t.WellFormed)
    (hw' : t'.WellFormed) (hname : ∀ i, (t'.segment (e i)).name = (t.segment i).name)
    (honto : ∀ j, (t'.segment j).name = name → ∃ i, e i = j) :
    t'.find? name = (t.find? name).map e := by
  refine Option.ext fun j => ?_
  rw [hw'.find?_eq_some_iff, Option.map_eq_some_iff]
  constructor
  · intro hj
    obtain ⟨i, rfl⟩ := honto j hj
    exact ⟨i, hw.find?_eq_some_iff.mpr ((hname i).symm.trans hj), rfl⟩
  · rintro ⟨i, hi, rfl⟩
    exact (hname i).trans (name_of_find? hi)

end

end Tree

end Multirotor
