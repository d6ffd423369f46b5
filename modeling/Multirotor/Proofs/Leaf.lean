import Multirotor.Proofs.Embedding
import Multirotor.Proofs.Acceptance

/-!
# One more leaf

A segment that is declared last and hangs from another without a joint of
its own. It comes after its siblings, and without it the breadth-first order
is the one before, so every coordinate keeps its number
(`Extends.embeds`).
-/

namespace Multirotor

/-! ## Ancestry -/

namespace Ancestry

variable {n n' : Nat} {parent : Fin n → Option (Fin n)} {parent' : Fin n' → Option (Fin n')}
  {e : Fin n → Fin n'} {leaf : Fin n'} {p : Fin n}

/-- The nodes of `parent'` are those of `parent` in their order, and a last one below `p`. -/
structure Extends (parent : Fin n → Option (Fin n)) (parent' : Fin n' → Option (Fin n'))
    (e : Fin n → Fin n') (leaf : Fin n') (p : Fin n) : Prop where
  strictMono : StrictMono e
  lt_leaf : ∀ i, e i < leaf
  exists_of_ne : ∀ j, j ≠ leaf → ∃ i, e i = j
  parent : ∀ i, parent' (e i) = (parent i).map e
  leaf : parent' leaf = some (e p)

namespace Extends

section
variable (h : Extends parent parent' e leaf p)
include h

theorem injective : Function.Injective e := h.strictMono.injective

theorem ne_leaf (i : Fin n) : e i ≠ leaf := (h.lt_leaf i).ne

theorem parent_eq_some_iff {i j : Fin n} : parent' (e i) = some (e j) ↔ parent i = some j := by
  rw [h.parent, Option.map_eq_some_iff]
  constructor
  · rintro ⟨k, hk, he⟩
    rwa [← h.injective he]
  · intro hj
    exact ⟨j, hj, rfl⟩

theorem parent_ne_leaf (j : Fin n') : parent' j ≠ some leaf := by
  intro hj
  by_cases hl : j = leaf
  · rw [hl, h.leaf, Option.some.injEq] at hj
    exact h.ne_leaf p hj
  · obtain ⟨i, rfl⟩ := h.exists_of_ne j hl
    rw [h.parent, Option.map_eq_some_iff] at hj
    obtain ⟨k, -, hk⟩ := hj
    exact h.ne_leaf k hk

theorem children_leaf : children parent' leaf = [] := by
  apply List.eq_nil_iff_forall_not_mem.mpr
  intro j hj
  exact h.parent_ne_leaf j (mem_children.mp hj)

theorem mem_children_map {i : Fin n} {j : Fin n'} : j ∈ children parent' (e i) ↔
    j ∈ (children parent i).map e ∨ j = leaf ∧ i = p := by
  rw [mem_children, List.mem_map]
  by_cases hl : j = leaf
  · subst hl
    rw [h.leaf, Option.some.injEq]
    constructor
    · intro he
      exact .inr ⟨rfl, (h.injective he).symm⟩
    · rintro (⟨k, -, hk⟩ | ⟨-, rfl⟩)
      · exact absurd hk (h.ne_leaf k)
      · rfl
  · obtain ⟨k, rfl⟩ := h.exists_of_ne j hl
    rw [h.parent_eq_some_iff]
    constructor
    · intro hk
      exact .inl ⟨k, mem_children.mpr hk, rfl⟩
    · rintro (⟨m, hm, he⟩ | ⟨he, -⟩)
      · rw [← h.injective he]
        exact mem_children.mp hm
      · exact absurd he hl

theorem sorted_map_children (i : Fin n) : ((children parent i).map e).Pairwise (· < ·) :=
  List.pairwise_map.mpr ((sorted_children i).imp fun hlt => h.strictMono hlt)

theorem children_of_ne {i : Fin n} (hi : i ≠ p) :
    children parent' (e i) = (children parent i).map e := by
  refine List.Pairwise.eq_of_mem_iff (r := (· < ·)) (sorted_children _) (h.sorted_map_children i)
    fun j => ?_
  rw [h.mem_children_map]
  exact or_iff_left fun hl => hi hl.2

/-- The leaf is the last child of its parent. -/
theorem children_parent : children parent' (e p) = (children parent p).map e ++ [leaf] := by
  have hsorted : ((children parent p).map e ++ [leaf]).Pairwise (· < ·) := by
    refine List.pairwise_append.mpr ⟨h.sorted_map_children p, List.pairwise_singleton _ _, ?_⟩
    intro a ha b hb
    obtain ⟨i, -, rfl⟩ := List.mem_map.mp ha
    rw [List.mem_singleton.mp hb]
    exact h.lt_leaf i
  refine List.Pairwise.eq_of_mem_iff (r := (· < ·)) (sorted_children _) hsorted fun j => ?_
  rw [h.mem_children_map, List.mem_append, List.mem_singleton]
  simp

theorem filter_map_eq (l : List (Fin n)) : (l.map e).filter (· ≠ leaf) = l.map e := by
  refine List.filter_eq_self.mpr fun j hj => ?_
  obtain ⟨i, -, rfl⟩ := List.mem_map.mp hj
  simpa using h.ne_leaf i

theorem filter_children (i : Fin n) :
    (children parent' (e i)).filter (· ≠ leaf) = (children parent i).map e := by
  by_cases hi : i = p
  · subst hi
    rw [h.children_parent, List.filter_append, h.filter_map_eq]
    simp
  · rw [h.children_of_ne hi, h.filter_map_eq]

theorem filter_next {level : List (Fin n)} {level' : List (Fin n')}
    (hl : level'.filter (· ≠ leaf) = level.map e) :
    (level'.flatMap (children parent')).filter (· ≠ leaf) =
      (level.flatMap (children parent)).map e := by
  induction level' generalizing level with
  | nil =>
    obtain rfl := List.map_eq_nil_iff.mp hl.symm
    rfl
  | cons j level' ih =>
    rw [List.flatMap_cons, List.filter_append]
    by_cases hj : j = leaf
    · subst hj
      rw [List.filter_cons_of_neg (by simp)] at hl
      rw [h.children_leaf, ih hl]
      rfl
    · rw [List.filter_cons_of_pos (by simpa using hj)] at hl
      obtain ⟨i, rest, rfl, rfl, hrest⟩ := List.map_eq_cons_iff.mp hl.symm
      rw [h.filter_children, ih hrest.symm, List.flatMap_cons, List.map_append]

theorem filter_levels (steps : Nat) {level : List (Fin n)} {level' : List (Fin n')}
    (hl : level'.filter (· ≠ leaf) = level.map e) :
    (levels parent' steps level').filter (· ≠ leaf) = (levels parent steps level).map e := by
  induction steps generalizing level level' with
  | zero => rfl
  | succ steps ih =>
    rw [levels_succ, levels_succ, List.filter_append, List.map_append, hl, ih (h.filter_next hl)]

end

end Extends

section
variable {root : Fin n} (hroot : parent root = none)
include hroot

/-- After as many levels as there are nodes, no more nodes come. -/
theorem levels_of_le {k steps more : Nat} {level : List (Fin n)} (hk : n ≤ k + steps)
    (hmore : steps ≤ more) (hl : ∀ i ∈ level, Depth parent root k i) :
    levels parent more level = levels parent steps level := by
  induction steps generalizing k more level with
  | zero =>
    have hempty : level = [] := by
      apply List.eq_nil_iff_forall_not_mem.mpr
      intro i hi
      have := (hl i hi).lt hroot
      omega
    rw [hempty, levels_nil, levels_nil]
  | succ steps ih =>
    obtain ⟨more, rfl⟩ : ∃ m, more = m + 1 := ⟨more - 1, by omega⟩
    rw [levels_succ, levels_succ, ih (by omega) (by omega) (depth_of_mem_next hl)]

namespace Extends

variable (h : Extends parent parent' e leaf p)
include h

theorem filter_breadthFirst :
    (breadthFirst parent' (e root)).filter (· ≠ leaf) = (breadthFirst parent root).map e := by
  have hle : n ≤ n' := by simpa using Fintype.card_le_of_injective e h.injective
  have hstart : [e root].filter (· ≠ leaf) = [root].map e := h.filter_map_eq [root]
  have hdepth : ∀ i ∈ [root], Depth parent root 0 i := fun i hi =>
    List.mem_singleton.mp hi ▸ .root
  unfold breadthFirst
  rw [h.filter_levels n' hstart, levels_of_le hroot (Nat.le_add_left n 0) hle hdepth]

theorem parent_root : parent' (e root) = none := by
  rw [h.parent, hroot, Option.map_none]

omit hroot in
theorem depth {k : Nat} {i : Fin n} (hi : Depth parent root k i) :
    Depth parent' (e root) k (e i) := by
  induction hi with
  | root => exact .root
  | child hp _ ih => exact .child (h.parent_eq_some_iff.mpr hp) ih

theorem lineage_map {k : Nat} {i : Fin n} (hi : Depth parent root k i) :
    lineage parent' (e i) = (lineage parent i).map e := by
  induction hi with
  | root =>
    rw [lineage_root hroot, lineage_root (h.parent_root hroot)]
    rfl
  | child hp hk ih =>
    rw [hk.lineage_child hroot hp, List.map_append, ← ih,
      (h.depth hk).lineage_child (h.parent_root hroot) (h.parent_eq_some_iff.mpr hp)]
    rfl

end Extends

end

end Ancestry

/-! ## Trees -/

namespace Tree

variable {α : Type}

/-- The tree `t'` is `t` with one more leaf, which hangs from `p` without a joint of its own. -/
structure Extends (t t' : Tree α) (e : Fin t.size → Fin t'.size) (leaf : Fin t'.size)
    (p : Fin t.size) : Prop where
  ancestry : Ancestry.Extends (fun i => (t.segment i).parent) (fun j => (t'.segment j).parent)
    e leaf p
  name : ∀ i, (t'.segment (e i)).name = (t.segment i).name
  offset : ∀ i, (t'.segment (e i)).offset = (t.segment i).offset
  joint : ∀ i, (t'.segment (e i)).joint = (t.segment i).joint
  inertia : ∀ i, (t'.segment (e i)).inertia = (t.segment i).inertia
  still : (t'.segment leaf).joint.kind.isRevolute = false
  size : t'.size = t.size + 1
  order : t'.order.filter (· ≠ leaf) = t.order.map e

namespace Extends

variable {t t' : Tree α} {e : Fin t.size → Fin t'.size} {leaf : Fin t'.size} {p : Fin t.size}
  (h : t.Extends t' e leaf p)
include h

theorem filter_order {P : Fin t.size → Bool} {P' : Fin t'.size → Bool} (hleaf : P' leaf = false)
    (hP : ∀ i, P' (e i) = P i) : t'.order.filter P' = (t.order.filter P).map e := by
  have hsplit : t'.order.filter P' = (t'.order.filter (· ≠ leaf)).filter P' := by
    rw [List.filter_filter]
    refine List.filter_congr fun j _ => ?_
    by_cases hj : j = leaf
    · rw [hj, hleaf, Bool.false_and]
    · simp [hj]
  rw [hsplit, h.order, List.filter_map]
  exact congrArg (fun P => (t.order.filter P).map e) (funext hP)

theorem embeds (hr : t.Rooted) (hr' : t'.Rooted) : t.Embeds t' e := by
  have hjoints : t'.joints = t.joints.map e := by
    rw [hr.joints, hr'.joints]
    exact h.filter_order h.still fun i => by rw [h.joint]
  refine ⟨h.name, h.ancestry.parent, h.offset, h.joint, fun i => ?_, hjoints⟩
  obtain ⟨k, hk⟩ := hr.depth i
  have hidx : ∀ a, (t.joints.map e).idxOf? (e a) = t.joints.idxOf? a := fun a => by
    unfold List.idxOf?
    rw [List.findIdx?_map]
    exact congrArg (t.joints.findIdx? ·) (funext fun b => by simp [h.ancestry.injective.eq_iff])
  rw [hr.jointPath, hr'.jointPath, h.ancestry.lineage_map hr.parent_root hk, hjoints,
    List.filterMap_map]
  exact List.filterMap_congr fun a _ => hidx a

end Extends

/-! ## Records -/

section
variable {records : List (SegmentRecord α)} {x : SegmentRecord α}

theorem order_of_ofRecords {t : Tree α} (h : ofRecords records = .ok t) :
    t.order = Ancestry.breadthFirst (fun i => (t.segment i).parent) t.root := by
  obtain ⟨parent, root, -, -, -, -, rfl⟩ := below_of_ofRecords h
  exact congrArg (Ancestry.breadthFirst · root) (funext fun i => (parent_below i).symm)

theorem Acceptable.append (h : Acceptable records) (hfresh : ∀ r ∈ records, r.name ≠ x.name)
    {q : SegmentRecord α} (hq : q ∈ records) (hx : x.parent = some q.name) :
    Acceptable (records ++ [x]) := by
  have hdeclared : ∀ {name}, Declared records name → Declared (records ++ [x]) name :=
    fun ⟨r, hr, hname⟩ => ⟨r, List.mem_append_left _ hr, hname⟩
  refine ⟨by simp, ?_, ?_, ?_, ?_⟩
  · unfold Tree.names
    rw [List.map_append]
    refine List.nodup_append.mpr ⟨h.names, List.nodup_singleton _, fun a ha b hb => ?_⟩
    obtain ⟨r, hr, rfl⟩ := List.mem_map.mp ha
    rw [List.mem_singleton.mp hb]
    exact hfresh r hr
  · obtain ⟨top, htop⟩ := h.top
    refine ⟨top, ?_⟩
    unfold tops at htop ⊢
    rw [List.filter_append, htop, List.filter_cons_of_neg (by simp [hx])]
    rfl
  · intro r hr parent hp
    rcases List.mem_append.mp hr with hr | hr
    · exact hdeclared (h.parents r hr parent hp)
    · rw [List.mem_singleton.mp hr, hx, Option.some.injEq] at hp
      exact hdeclared ⟨q, hq, hp⟩
  · intro r hr
    have hsub : ∀ r ∈ records, r ∈ records ++ [x] := fun _ => List.mem_append_left _
    rcases List.mem_append.mp hr with hr | hr
    · exact (h.descends r hr).mono hsub
    · rw [List.mem_singleton.mp hr]
      exact .child (hsub q hq) hx ((h.descends q hq).mono hsub)

/-- The records and one more, which hangs from a declared segment, make the tree and one more leaf. -/
theorem exists_extends {t : Tree α} (h : ofRecords records = .ok t)
    (hfresh : ∀ r ∈ records, r.name ≠ x.name) {p : Fin t.size}
    (hx : x.parent = some (t.segment p).name) (hstill : x.joint.kind.isRevolute = false) :
    ∃ (t' : Tree α) (e : Fin t.size → Fin t'.size) (leaf : Fin t'.size),
      ofRecords (records ++ [x]) = .ok t' ∧ t.Extends t' e leaf p ∧ (∀ i, (e i).val = i.val) ∧
        t'.record leaf = x := by
  have ha := arranges_of_ofRecords h
  have hp : t.record p ∈ records := List.mem_of_getElem? (ha.getElem?_record p)
  obtain ⟨t', h'⟩ := exists_ofRecords_iff.mpr
    ((acceptable_of_ofRecords h).append hfresh hp (hx : x.parent = some (t.record p).name))
  have ha' := arranges_of_ofRecords h'
  have hsize : t'.size = t.size + 1 := by
    rw [← ha'.length, ← ha.length, List.length_append, List.length_singleton]
  let e : Fin t.size → Fin t'.size := fun i => ⟨i.val, by omega⟩
  let leaf : Fin t'.size := ⟨t.size, by omega⟩
  have hrecord : ∀ i, t'.record (e i) = t.record i := fun i => by
    have hget := ha'.getElem?_record (e i)
    rw [List.getElem?_append_left (by rw [ha.length]; exact i.isLt), ha.getElem?_record i] at hget
    exact (Option.some.inj hget).symm
  have hleaf : t'.record leaf = x := by
    have hlast : (records ++ [x])[records.length]? = some x := List.getElem?_concat_length
    rw [ha.length] at hlast
    exact Option.some.inj ((ha'.getElem?_record leaf).symm.trans hlast)
  have hname : ∀ i, (t'.segment (e i)).name = (t.segment i).name := fun i =>
    congrArg SegmentRecord.name (hrecord i)
  have hw' := wellFormed_of_ofRecords h'
  have hancestry : Ancestry.Extends (fun i => (t.segment i).parent) (fun j => (t'.segment j).parent)
      e leaf p := by
    refine ⟨fun i j hij => hij, fun i => i.isLt, fun j hj => ?_, fun i => ?_, ?_⟩
    · have hlt : j.val < t.size := by
        have hne : j.val ≠ t.size := fun he => hj (Fin.ext he)
        have := j.isLt
        omega
      exact ⟨⟨j.val, hlt⟩, rfl⟩
    · exact hw'.parent_map hrecord i
    · refine hw'.parent_eq_some ?_
      rw [hleaf, hx, hname]
  refine ⟨t', e, leaf, h', ⟨hancestry, ?_, ?_, ?_, ?_, ?_, ?_, ?_⟩, fun i => rfl, hleaf⟩
  · exact hname
  · exact fun i => congrArg SegmentRecord.offset (hrecord i)
  · exact fun i => congrArg SegmentRecord.joint (hrecord i)
  · exact fun i => congrArg SegmentRecord.inertia (hrecord i)
  · rw [← hleaf] at hstill
    exact hstill
  · exact hsize
  · have hroot := (ha.root t.root).mpr rfl
    have hroot' : e t.root = t'.root := (ha'.root _).mp (hancestry.parent_root hroot)
    rw [order_of_ofRecords h, order_of_ofRecords h', ← hroot']
    exact hancestry.filter_breadthFirst hroot

end

end Tree

end Multirotor
