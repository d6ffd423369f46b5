import Multirotor.Proofs.Groups
import Multirotor.Proofs.Leaf

/-!
# Groups with one more leaf

A leaf without a joint of its own is gathered into the group of its parent.
If the parent is the base of the group, the leaf comes last, so the inertia of
the group is what it was plus that of the leaf (`Extends.groups`).
-/

namespace Multirotor

variable {α : Type} [Scalar α]

namespace InertiaGroup

variable {n n' : Nat}

/-- The same group in a larger tree, with `b` added to the group of base `p`. -/
def extended (e : Fin n → Fin n') (p : Fin n) (b : Inertia α) (g : InertiaGroup α n) :
    InertiaGroup α n' :=
  ⟨e g.base, g.name, if g.base = p then g.inertia + b else g.inertia⟩

end InertiaGroup

namespace Tree

/-! ## Bases -/

section
variable {t : Tree α} {groups : List (InertiaGroup α t.size)} {i : Fin t.size}

theorem bases_foldr (l : List (Fin t.size)) (carried : Vector (Inertia α) t.size) :
    (l.foldr t.gather (carried, [])).2.map (fun g => (g.base, g.name)) =
      (l.filter t.isBase).map fun i => (i, (t.segment i).name) := by
  induction l with
  | nil => rfl
  | cons a l ih =>
    rw [List.foldr_cons]
    by_cases ha : t.isBase a = true
    · rw [gather_of_isBase ha, List.filter_cons_of_pos ha, List.map_cons, List.map_cons, ih]
    · rw [gather_of_not_isBase ha, List.filter_cons_of_neg ha, ih]

theorem map_base_foldr (l : List (Fin t.size)) (carried : Vector (Inertia α) t.size) :
    (l.foldr t.gather (carried, [])).2.map (·.base) = l.filter t.isBase := by
  have hbases := congrArg (List.map Prod.fst) (bases_foldr l carried)
  rw [List.map_map, List.map_map] at hbases
  exact hbases.trans (List.map_id _)

theorem bases_groups (h : t.groups = .ok groups) : groups.map (fun g => (g.base, g.name)) =
    (t.order.filter t.isBase).map fun i => (i, (t.segment i).name) := by
  rw [← (groups_eq_ok h).1]
  exact bases_foldr _ _

theorem nodup_bases (hw : t.WellFormed) (h : t.groups = .ok groups) :
    (groups.map (·.base)).Nodup := by
  rw [← (groups_eq_ok h).1, map_base_foldr]
  exact hw.nodup.filter _

theorem base_of_mem (h : t.groups = .ok groups) {g : InertiaGroup α t.size} (hg : g ∈ groups) :
    t.isBase g.base = true ∧ g.name = (t.segment g.base).name := by
  have hmem : (g.base, g.name) ∈ groups.map fun g => (g.base, g.name) :=
    List.mem_map_of_mem (f := fun g => (g.base, g.name)) hg
  rw [bases_groups h] at hmem
  obtain ⟨i, hi, he⟩ := List.mem_map.mp hmem
  obtain ⟨hbase, hname⟩ := Prod.mk.inj he
  rw [← hbase, ← hname]
  exact ⟨(List.mem_filter.mp hi).2, rfl⟩

end

/-! ## Gathering -/

namespace Extends

variable {t t' : Tree α} {e : Fin t.size → Fin t'.size} {leaf : Fin t'.size} {p : Fin t.size}
  (h : t.Extends t' e leaf p)
include h

omit [Scalar α] in
theorem isBase_map (i : Fin t.size) : t'.isBase (e i) = t.isBase i := by
  have hparent : (t'.segment (e i)).parent = (t.segment i).parent.map e := h.ancestry.parent i
  unfold isBase
  rw [hparent, h.joint, Option.isNone_map]

omit [Scalar α] in
theorem isBase_leaf : t'.isBase leaf = false := by
  have hparent : (t'.segment leaf).parent = some (e p) := h.ancestry.leaf
  unfold isBase
  rw [hparent, h.still]
  rfl

section
variable (hw : t.WellFormed) (hw' : t'.WellFormed) {carried : Vector (Inertia α) t.size}
  {carried' : Vector (Inertia α) t'.size}
include hw'

theorem gathered_leaf : t'.gathered carried' leaf = (t'.segment leaf).inertia := by
  unfold gathered
  rw [hw'.children, h.ancestry.children_leaf]
  rfl

variable (hc : ∀ i, carried'.get (e i) = carried.get i)
include hc

omit hw' in
theorem foldl_children (l : List (Fin t.size)) (b : Inertia α) :
    (l.map e).foldl (fun sum c => sum + (carried'.get c).transformed (t'.segment c).offset) b =
      l.foldl (fun sum c => sum + (carried.get c).transformed (t.segment c).offset) b := by
  rw [List.foldl_map]
  simp only [hc, h.offset]

include hw

theorem gathered_of_ne {i : Fin t.size} (hi : i ≠ p) :
    t'.gathered carried' (e i) = t.gathered carried i := by
  unfold gathered
  rw [hw'.children, hw.children, h.ancestry.children_of_ne hi, h.foldl_children hc, h.inertia]

theorem gathered_parent : t'.gathered carried' (e p) =
    t.gathered carried p + (carried'.get leaf).transformed (t'.segment leaf).offset := by
  unfold gathered
  rw [hw'.children, hw.children, h.ancestry.children_parent, List.foldl_append,
    h.foldl_children hc, h.inertia]
  rfl

end

/-- Both trees are gathered equally far, the larger one through the segments `done`. -/
structure Alike (e : Fin t.size → Fin t'.size) (leaf : Fin t'.size) (p : Fin t.size)
    (done : List (Fin t'.size)) (state : Vector (Inertia α) t.size × List (InertiaGroup α t.size))
    (state' : Vector (Inertia α) t'.size × List (InertiaGroup α t'.size)) : Prop where
  carried : ∀ i, state'.1.get (e i) = state.1.get i
  handed : leaf ∈ done → state'.1.get leaf = (t'.segment leaf).inertia
  groups : state'.2 = state.2.map
    (·.extended e p ((t'.segment leaf).inertia.transformed (t'.segment leaf).offset))

section
variable {state : Vector (Inertia α) t.size × List (InertiaGroup α t.size)}
  {state' : Vector (Inertia α) t'.size × List (InertiaGroup α t'.size)} {done : List (Fin t'.size)}
  (hs : Alike e leaf p done state state') (hw' : t'.WellFormed)
include hs hw'

theorem gather_leaf : Alike e leaf p (leaf :: done) state (t'.gather leaf state') := by
  have hleaf : ¬t'.isBase leaf = true := by
    rw [h.isBase_leaf]
    exact Bool.false_ne_true
  rw [gather_of_not_isBase hleaf, h.gathered_leaf hw']
  refine ⟨fun i => ?_, fun _ => Ancestry.get_assign_self _ _ _, hs.groups⟩
  exact (Ancestry.get_assign_of_ne _ _ _ (h.ancestry.ne_leaf i)).trans (hs.carried i)

theorem gather_map (hw : t.WellFormed) (hp : t.isBase p = true) {i : Fin t.size}
    (hleaf : i = p → leaf ∈ done) :
    Alike e leaf p (e i :: done) (t.gather i state) (t'.gather (e i) state') := by
  have hmem : leaf ∈ e i :: done → leaf ∈ done := fun hm =>
    (List.mem_cons.mp hm).resolve_left (h.ancestry.ne_leaf i).symm
  by_cases hb : t.isBase i = true
  · rw [gather_of_isBase hb, gather_of_isBase ((h.isBase_map i).trans hb), h.name]
    refine ⟨hs.carried, fun hm => hs.handed (hmem hm), ?_⟩
    rw [List.map_cons, ← hs.groups]
    refine congrArg (⟨e i, (t.segment i).name, ·⟩ :: state'.2) ?_
    by_cases hi : i = p
    · subst hi
      rw [h.gathered_parent hw hw' hs.carried, hs.handed (hleaf rfl), if_pos rfl]
    · rw [h.gathered_of_ne hw hw' hs.carried hi, if_neg hi]
  · -- Only a base takes the leaf in, so what is handed up is the same.
    have hi : i ≠ p := fun he => hb (he ▸ hp)
    rw [gather_of_not_isBase hb, gather_of_not_isBase (by rwa [h.isBase_map]),
      h.gathered_of_ne hw hw' hs.carried hi]
    refine ⟨fun j => ?_, fun hm => ?_, hs.groups⟩
    · by_cases hj : j = i
      · rw [hj, Ancestry.get_assign_self, Ancestry.get_assign_self]
      · have hne : e j ≠ e i := fun he => hj (h.ancestry.injective he)
        rw [Ancestry.get_assign_of_ne _ _ _ hne, Ancestry.get_assign_of_ne _ _ _ hj]
        exact hs.carried j
    · exact (Ancestry.get_assign_of_ne _ _ _ (h.ancestry.ne_leaf i).symm).trans (hs.handed (hmem hm))

end

theorem alike_foldr (hw : t.WellFormed) (hw' : t'.WellFormed) (hp : t.isBase p = true)
    {l : List (Fin t.size)} {l' : List (Fin t'.size)}
    (hfirst : l'.Pairwise fun a b => (t'.segment a).parent ≠ some b)
    (hleaf : e p ∈ l' → leaf ∈ l') (hl : l'.filter (· ≠ leaf) = l.map e) :
    Alike e leaf p l' (l.foldr t.gather (Vector.replicate t.size 0, []))
      (l'.foldr t'.gather (Vector.replicate t'.size 0, [])) := by
  induction l' generalizing l with
  | nil =>
    obtain rfl := List.map_eq_nil_iff.mp hl.symm
    have hget : ∀ {n : Nat} (i : Fin n), (Vector.replicate n (0 : Inertia α)).get i = 0 := fun i =>
      Vector.getElem_replicate _
    exact ⟨fun i => (hget _).trans (hget i).symm, fun hm => (List.not_mem_nil hm).elim, rfl⟩
  | cons a l' ih =>
    obtain ⟨hpa, hrest⟩ := List.pairwise_cons.mp hfirst
    have hparent : (t'.segment leaf).parent = some (e p) := h.ancestry.leaf
    rw [List.foldr_cons]
    by_cases ha : a = leaf
    · subst ha
      rw [List.filter_cons_of_neg (by simp)] at hl
      -- Parents come first, so the parent of the leaf is not gathered yet.
      exact h.gather_leaf (ih hrest (fun hm => absurd hparent (hpa _ hm)) hl) hw'
    · rw [List.filter_cons_of_pos (by simpa using ha)] at hl
      obtain ⟨i, l, rfl, rfl, hmap⟩ := List.map_eq_cons_iff.mp hl.symm
      have hin : leaf ∈ e i :: l' → leaf ∈ l' := fun hm =>
        (List.mem_cons.mp hm).resolve_left (Ne.symm ha)
      rw [List.foldr_cons]
      refine h.gather_map (ih hrest (fun hm => ?_) hmap.symm) hw' hw hp fun hi => ?_
      · exact hin (hleaf (List.mem_cons_of_mem _ hm))
      · exact hin (hleaf (hi ▸ List.mem_cons_self))

/-- The group of the base `p` gains the leaf, and the other groups stay as they are. -/
theorem groups (hw : t.WellFormed) (hw' : t'.WellFormed) (hp : t.isBase p = true)
    {groups : List (InertiaGroup α t.size)} (hg : t.groups = .ok groups) :
    t'.groups = .ok (groups.map
      (·.extended e p ((t'.segment leaf).inertia.transformed (t'.segment leaf).offset))) := by
  obtain ⟨hfound, hroots⟩ := groups_eq_ok hg
  have halike := h.alike_foldr hw hw' hp hw'.parent_first (fun _ => hw'.complete leaf) h.order
  have hroot : ∀ g : InertiaGroup α t.size, (t'.segment (e g.base)).parent.isNone =
      (t.segment g.base).parent.isNone := fun g => by
    have hparent : (t'.segment (e g.base)).parent = (t.segment g.base).parent.map e :=
      h.ancestry.parent g.base
    rw [hparent, Option.isNone_map]
  unfold Tree.groups
  dsimp only
  rw [halike.groups, hfound, List.countP_map]
  refine if_pos (Eq.trans ?_ hroots)
  exact List.countP_congr fun g _ => by
    rw [Function.comp_apply]
    exact (hroot g) ▸ Iff.rfl

end Extends

end Tree

end Multirotor
