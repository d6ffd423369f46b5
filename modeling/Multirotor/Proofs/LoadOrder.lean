import Multirotor.Proofs.CentreOfGravity
import Multirotor.Proofs.LeafGroups

/-!
# Loads in any order

Over exact numbers it does not matter when a group gains mass. What a group
weighs more before the modules are mounted, it weighs more after, and a module
can come in its turn or before all others (`loaded_extended`).
-/

namespace Multirotor

/-! ## Inertias -/

namespace Inertia

theorem add_right_comm {a b c : Inertia ℝ} (ha : 0 ≤ a.mass) (hb : 0 ≤ b.mass) (hc : 0 ≤ c.mass) :
    a + b + c = a + c + b := by
  refine add_eq_of_moments ?_
  rw [moments_add (add_nonneg ha hb) hc, moments_add ha hb, moments_add (add_nonneg ha hc) hb,
    moments_add ha hc]
  abel

end Inertia

/-! ## Loads -/

namespace InertiaGroup

theorem index?_congr {α : Type} {n n' : Nat} {groups : List (InertiaGroup α n)}
    {groups' : List (InertiaGroup α n')}
    (h : groups'.map (·.name) = groups.map (·.name)) (name : String) :
    index? groups' name = index? groups name := by
  have hfind : ∀ {n : Nat} (groups : List (InertiaGroup α n)),
      (groups.map (·.name)).findIdx? (· == name) = index? groups name := fun groups =>
    List.findIdx?_map
  rw [← hfind, h, hfind]

section
variable {t : Tree ℝ} {groups : List (InertiaGroup ℝ t.size)} {loads : List (Inertia ℝ)}

theorem modify_comm (hfit : Fits groups loads) {b c : Inertia ℝ} (hb : 0 ≤ b.mass)
    (hc : 0 ≤ c.mass) (g k : Nat) : (loads.modify g (· + b)).modify k (· + c) =
      (loads.modify k (· + c)).modify g (· + b) := by
  by_cases hgk : g = k
  · subst hgk
    refine List.ext_getElem (by simp only [List.length_modify]) fun i hi hi' => ?_
    simp only [List.getElem_modify]
    by_cases hig : g = i
    · rw [if_pos hig, if_pos hig, if_pos hig, if_pos hig]
      exact Inertia.add_right_comm (hfit.mass _ (List.getElem_mem _)) hb hc
    · rw [if_neg hig, if_neg hig, if_neg hig, if_neg hig]
  · exact List.modify_modify_ne _ _ _ hgk

theorem load_of_index? {m : ExtraModule ℝ} {g : Nat} (h : index? groups m.parent = some g)
    (loads : List (Inertia ℝ)) :
    load groups loads m = .ok (loads.modify g (· + m.localInertia)) := by
  unfold load
  rw [h]

/-- What a group weighs more before the modules are mounted, it weighs more after. -/
theorem foldlM_load_modify {ms : List (ExtraModule ℝ)} (hms : ∀ m ∈ ms, 0 ≤ m.inertia.mass)
    (hfit : Fits groups loads) {b : Inertia ℝ} (hb : 0 ≤ b.mass) (g : Nat) :
    ms.foldlM (load groups) (loads.modify g (· + b)) =
      (ms.foldlM (load groups) loads).map (·.modify g (· + b)) := by
  induction ms generalizing loads with
  | nil => rfl
  | cons m ms ih =>
    obtain ⟨hm, hms⟩ := List.forall_mem_cons.mp hms
    rw [List.foldlM_cons, List.foldlM_cons]
    cases hk : index? groups m.parent with
    | none =>
      have hload : ∀ loads, load groups loads m = .error (.unknownSegment m.parent) := fun loads => by
        unfold load
        rw [hk]
      rw [hload, hload]
      rfl
    | some k =>
      have hlocal : 0 ≤ m.localInertia.mass := hm
      rw [load_of_index? hk, load_of_index? hk]
      exact (congrArg (ms.foldlM (load groups)) (modify_comm hfit hb hlocal g k)).trans
        (ih hms (hfit.modify hlocal k))

end

section
variable {α : Type} [Scalar α] {n n' : Nat} {e : Fin n → Fin n'} {p : Fin n} {b : Inertia α}
  {groups : List (InertiaGroup α n)}

theorem inertias_extended (hnd : (groups.map (·.base)).Nodup) {g : Nat} {group : InertiaGroup α n}
    (hg : groups[g]? = some group) (hp : group.base = p) :
    (groups.map (·.extended e p b)).map (·.inertia) =
      (groups.map (·.inertia)).modify g (· + b) := by
  obtain ⟨hlt, hget⟩ := List.getElem?_eq_some_iff.mp hg
  refine List.ext_getElem (by simp only [List.length_modify, List.length_map]) fun i hi hi' => ?_
  have hi : i < groups.length := by simpa using hi
  have hbase : groups[i].base = p ↔ g = i := by
    rw [← hp, ← hget]
    have hinj := @List.Nodup.getElem_inj_iff _ _ hnd i (by simpa using hi) g (by simpa using hlt)
    rw [List.getElem_map, List.getElem_map] at hinj
    exact hinj.trans eq_comm
  simp only [List.getElem_map, List.getElem_modify, extended, hbase]

theorem load_congr {groups' : List (InertiaGroup α n')}
    (h : groups'.map (·.name) = groups.map (·.name)) : load groups' = load groups := by
  funext loads m
  unfold load
  rw [index?_congr h]

end

section
variable {t : Tree ℝ} {n' : Nat} {e : Fin t.size → Fin n'} {groups : List (InertiaGroup ℝ t.size)}
  {payload payload' : Payload ℝ} {m : ExtraModule ℝ}

/-- The module weighs the same whether it comes in its turn or before all others. -/
theorem loaded_extended (hnd : (groups.map (·.base)).Nodup)
    (hmass : ∀ g ∈ groups, 0 ≤ g.inertia.mass) (hp : payload.Filled groups)
    (hm : payload.add groups m = .ok payload') {g : Nat} {group : InertiaGroup ℝ t.size}
    (hg : index? groups m.parent = some g) (hgroup : groups[g]? = some group) :
    loaded (groups.map (·.extended e group.base m.localInertia)) payload =
      loaded groups payload' := by
  obtain ⟨hcheck, hmodules⟩ := Payload.add_eq_ok hm
  have hlocal : 0 ≤ m.localInertia.mass := (Payload.carried_of_check hcheck).mass.le
  have hfit : Fits groups (groups.map (·.inertia)) :=
    ⟨List.length_map _, fun i hi => by
      obtain ⟨g, hg, rfl⟩ := List.mem_map.mp hi
      exact hmass g hg⟩
  have hnames : (groups.map (·.extended e group.base m.localInertia)).map (·.name) =
      groups.map (·.name) := by
    rw [List.map_map]
    rfl
  obtain ⟨l₁, l₂, hms, hins⟩ := Payload.exists_split_insert m payload.modules
  have hpositive : ∀ x ∈ l₁, 0 ≤ x.inertia.mass := fun x hx =>
    (hp.carried (hms ▸ List.mem_append_left l₂ hx)).mass.le
  unfold loaded
  rw [load_congr hnames, inertias_extended hnd hgroup rfl, hmodules, hins, hms, List.foldlM_append,
    List.foldlM_append, foldlM_load_modify hpositive hfit hlocal]
  cases l₁.foldlM (load groups) (groups.map (·.inertia)) with
  | error e => rfl
  | ok loads =>
    change l₂.foldlM (load groups) (loads.modify g (· + m.localInertia)) =
      (m :: l₂).foldlM (load groups) loads
    rw [List.foldlM_cons, load_of_index? hg]
    rfl

end

end InertiaGroup

section
variable {α : Type} [Scalar α] {n n' : Nat} {groups : List (InertiaGroup α n)}
  {groups' : List (InertiaGroup α n')} (h : groups'.map (·.name) = groups.map (·.name))
include h

theorem Payload.add_congr (p : Payload α) (m : ExtraModule α) :
    p.add groups' m = p.add groups m := by
  unfold add check
  rw [InertiaGroup.index?_congr h]

theorem Payload.Filled.congr {p : Payload α} (hp : p.Filled groups) : p.Filled groups' := by
  induction hp with
  | empty => exact .empty
  | @add p p' m _ hm ih => exact .add ih ((Payload.add_congr h p m).trans hm)
  | remove _ hm ih => exact .remove ih hm

end

end Multirotor
