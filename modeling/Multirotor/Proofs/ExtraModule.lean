import Mathlib.Data.List.Sort
import Multirotor.Proofs.Exact.Rotation
import Multirotor.Proofs.Outcome
import Multirotor.ExtraModule

/-!
# Mounted modules

What every module that was mounted has passed: it has mass, a group carries
it, and its orientation can be normalised to a rotation. Modules are listed
in the order of their names whatever was mounted first, so the list is known
by its members (`Ordered.eq_of_mem_iff`), and taking a module off undoes that
it was mounted.
-/

namespace Multirotor

namespace Payload

section
variable {α : Type}

theorem mem_insert {m m' : ExtraModule α} {ms : List (ExtraModule α)} :
    m' ∈ insert m ms ↔ m' = m ∨ m' ∈ ms := by
  induction ms with
  | nil => simp [insert]
  | cons x ms ih =>
    rw [insert]
    split
    · exact List.mem_cons
    · rw [List.mem_cons, ih, List.mem_cons]
      tauto

theorem find?_eq_none_iff {p : Payload α} {name : String} :
    p.find? name = none ↔ ∀ m ∈ p.modules, m.name ≠ name := by
  simp [find?]

theorem remove_eq_ok {p p' : Payload α} {name : String} {m : ExtraModule α}
    (h : p.remove name = .ok (m, p')) :
    p'.modules = p.modules.filter fun m' => m'.name != name := by
  rw [remove] at h
  split at h
  · cases h
    rfl
  · cases h

theorem find?_of_remove {p p' : Payload α} {name : String} {m : ExtraModule α}
    (h : p.remove name = .ok (m, p')) : p.find? name = some m := by
  rw [remove] at h
  split at h
  · next hfind =>
    cases h
    exact hfind
  · cases h

/-! ## Order -/

/-- The modules stand in the order of their names, no name twice. -/
def Ordered (p : Payload α) : Prop := p.modules.Pairwise fun a b => a.name < b.name

theorem Ordered.eq_of_mem_iff {p p' : Payload α} (h : p.Ordered) (h' : p'.Ordered)
    (hmem : ∀ m, m ∈ p.modules ↔ m ∈ p'.modules) : p = p' := by
  let before := fun a b : ExtraModule α => a.name < b.name
  have : Std.Irrefl before := ⟨fun a => lt_irrefl a.name⟩
  have : Std.Antisymm before := ⟨fun a b hab hba => absurd hba (lt_asymm hab)⟩
  exact congrArg Payload.mk (List.Pairwise.eq_of_mem_iff (r := before) h h' hmem)

/-- A new module goes between the modules with smaller names and the others. -/
theorem exists_split_insert (m : ExtraModule α) (ms : List (ExtraModule α)) :
    ∃ l₁ l₂, ms = l₁ ++ l₂ ∧ insert m ms = l₁ ++ m :: l₂ := by
  induction ms with
  | nil => exact ⟨[], [], rfl, rfl⟩
  | cons x ms ih =>
    rw [insert]
    split
    · exact ⟨[], x :: ms, rfl, rfl⟩
    · obtain ⟨l₁, l₂, hms, hins⟩ := ih
      exact ⟨x :: l₁, l₂, by rw [hms]; rfl, by rw [hins]; rfl⟩

theorem Ordered.insert {p : Payload α} {m : ExtraModule α} (h : p.Ordered)
    (hm : p.find? m.name = none) : Ordered ⟨insert m p.modules⟩ := by
  obtain ⟨ms⟩ := p
  rw [find?_eq_none_iff] at hm
  induction ms with
  | nil => exact List.pairwise_singleton _ _
  | cons x ms ih =>
    obtain ⟨hx, hms⟩ := List.pairwise_cons.mp h
    unfold Ordered Payload.insert
    split
    · rename_i hlt
      refine List.pairwise_cons.mpr ⟨fun y hy => ?_, h⟩
      rcases List.mem_cons.mp hy with rfl | hy
      · exact hlt
      · exact hlt.trans (hx y hy)
    · rename_i hlt
      refine List.pairwise_cons.mpr ⟨fun y hy => ?_, ih hms fun y hy => hm y (.tail _ hy)⟩
      rcases mem_insert.mp hy with rfl | hy
      · exact lt_of_le_of_ne (not_lt.mp hlt) (hm x List.mem_cons_self)
      · exact hx y hy

theorem Ordered.remove {p p' : Payload α} {name : String} {m : ExtraModule α} (h : p.Ordered)
    (hp : p.remove name = .ok (m, p')) : p'.Ordered := by
  unfold Ordered
  rw [remove_eq_ok hp]
  exact h.filter _

section
variable {p : Payload α} {m : ExtraModule α} (hm : p.find? m.name = none)
include hm

theorem find?_insert (name : String) : find? ⟨Payload.insert m p.modules⟩ name =
    if m.name = name then some m else p.find? name := by
  obtain ⟨l₁, l₂, hms, hins⟩ := exists_split_insert m p.modules
  rw [find?_eq_none_iff, hms] at hm
  unfold find?
  rw [hins, hms, List.find?_append, List.find?_append]
  split
  · next hname =>
    have hnone : l₁.find? (fun x => x.name == name) = none :=
      List.find?_eq_none.mpr fun x hx => by
        simpa [← hname] using hm x (List.mem_append_left l₂ hx)
    simp [hnone, hname]
  · next hname => rw [List.find?_cons_of_neg (by simpa using hname)]

/-- Taking off what was just mounted gives it back and leaves the other modules. -/
theorem remove_insert :
    (⟨Payload.insert m p.modules⟩ : Payload α).remove m.name = .ok (m, p) := by
  have hfound := find?_insert hm m.name
  rw [if_pos rfl] at hfound
  obtain ⟨l₁, l₂, hms, hins⟩ := exists_split_insert m p.modules
  rw [find?_eq_none_iff, hms] at hm
  have hrest : (l₁ ++ m :: l₂).filter (fun x => x.name != m.name) = l₁ ++ l₂ := by
    rw [List.filter_append, List.filter_cons_of_neg (by simp), ← List.filter_append]
    exact List.filter_eq_self.mpr fun x hx => by simpa using hm x hx
  unfold Payload.remove
  rw [hfound]
  dsimp only
  rw [hins, hrest, ← hms]

end

theorem find?_remove {p p' : Payload α} {name : String} {m : ExtraModule α}
    (h : p.remove name = .ok (m, p')) (other : String) :
    p'.find? other = if name = other then none else p.find? other := by
  unfold find?
  rw [remove_eq_ok h, List.find?_filter]
  split
  · next hname =>
    subst hname
    simp
  · next hname =>
    refine congrArg (List.find? · p.modules) (funext fun x => ?_)
    by_cases hx : x.name = other
    · simp [hx, Ne.symm hname]
    · simp [hx]

/-- In a payload in order, a name leads to the one module that has it. -/
theorem Ordered.find?_eq_some_iff {p : Payload α} (h : p.Ordered) {name : String}
    {m : ExtraModule α} : p.find? name = some m ↔ m ∈ p.modules ∧ m.name = name := by
  constructor
  · intro hfind
    have hname := List.find?_some hfind
    exact ⟨List.mem_of_find?_eq_some hfind, eq_of_beq hname⟩
  · rintro ⟨hm, rfl⟩
    obtain ⟨before, after, hsplit⟩ := List.append_of_mem hm
    unfold Ordered at h
    rw [hsplit, List.pairwise_append] at h
    refine List.find?_eq_some_iff_append.mpr ⟨beq_self_eq_true _, before, after, hsplit, ?_⟩
    exact fun x hx => by simpa using (h.2.2 x hx m List.mem_cons_self).ne

end

section
variable {α : Type} [Scalar α] {n : Nat} {groups : List (InertiaGroup α n)}

/-- The payloads that mounting and taking off lead to. -/
inductive Filled (groups : List (InertiaGroup α n)) : Payload α → Prop where
  | empty : Filled groups Payload.empty
  | add {p p' : Payload α} {m : ExtraModule α} :
    Filled groups p → p.add groups m = .ok p' → Filled groups p'
  | remove {p p' : Payload α} {name : String} {m : ExtraModule α} :
    Filled groups p → p.remove name = .ok (m, p') → Filled groups p'

theorem add_eq_ok {p p' : Payload α} {m : ExtraModule α} (h : p.add groups m = .ok p') :
    p.check groups m = .ok () ∧ p'.modules = insert m p.modules := by
  obtain ⟨_, hc, h⟩ := bind_eq_ok.mp h
  cases h
  exact ⟨hc, rfl⟩

theorem eq_of_add {p p' : Payload α} {m : ExtraModule α} (h : p.add groups m = .ok p') :
    p' = ⟨insert m p.modules⟩ := congrArg Payload.mk (add_eq_ok h).2

/-- What a module is tested for, apart from its name being new. -/
structure Passes (groups : List (InertiaGroup α n)) (m : ExtraModule α) : Prop where
  parent : (InertiaGroup.index? groups m.parent).isSome
  mass : Scalar.isFinite m.inertia.mass = true ∧ 0 < m.inertia.mass
  finite : m.position.isFinite = true ∧ m.inertia.cog.isFinite = true ∧
    m.inertia.aboutCog.isFinite = true
  orientation : m.orientation.isUnit = true

theorem passes_iff_tests {m : ExtraModule α} : Passes groups m ↔
    ¬(InertiaGroup.index? groups m.parent).isNone ∧
      (Scalar.isFinite m.inertia.mass ∧ 0 < m.inertia.mass) ∧
      (m.position.isFinite ∧ m.inertia.cog.isFinite ∧ m.inertia.aboutCog.isFinite) ∧
      m.orientation.isUnit := by
  rw [Option.isNone_iff_eq_none, ← ne_eq, Option.ne_none_iff_isSome]
  exact ⟨fun h => ⟨h.parent, h.mass, h.finite, h.orientation⟩,
    fun ⟨hparent, hmass, hfinite, hunit⟩ => ⟨hparent, hmass, hfinite, hunit⟩⟩

theorem check_eq_ok_iff {p : Payload α} {m : ExtraModule α} :
    p.check groups m = .ok () ↔ p.find? m.name = none ∧ Passes groups m := by
  rw [passes_iff_tests]
  unfold check
  refine refuse_eq_ok.trans (and_congr Option.not_isSome_iff_eq_none ?_)
  refine refuse_eq_ok.trans (and_congr_right' ?_)
  refine demand_eq_ok.trans (and_congr_right' ?_)
  refine demand_eq_ok.trans (and_congr_right' ?_)
  exact (demand_eq_ok (k := pure)).trans (and_iff_left rfl)

theorem find?_of_add {p p' : Payload α} {m : ExtraModule α} (h : p.add groups m = .ok p') :
    p.find? m.name = none := (check_eq_ok_iff.mp (add_eq_ok h).1).1

theorem Ordered.add {p p' : Payload α} {m : ExtraModule α} (h : p.Ordered)
    (hp : p.add groups m = .ok p') : p'.Ordered := by
  rw [eq_of_add hp]
  exact h.insert (find?_of_add hp)

theorem Filled.passes {p : Payload α} (hp : Filled groups p) {m : ExtraModule α}
    (hm : m ∈ p.modules) : Passes groups m := by
  induction hp with
  | empty => cases hm
  | add _ h ih =>
    obtain ⟨hc, hmodules⟩ := add_eq_ok h
    rw [hmodules, mem_insert] at hm
    rcases hm with rfl | hm
    · exact (check_eq_ok_iff.mp hc).2
    · exact ih hm
  | remove _ h ih =>
    rw [remove_eq_ok h] at hm
    exact ih (List.mem_of_mem_filter hm)

end

section
variable {n : Nat} {groups : List (InertiaGroup ℝ n)} {p : Payload ℝ} {m : ExtraModule ℝ}

structure Carried (groups : List (InertiaGroup ℝ n)) (m : ExtraModule ℝ) : Prop where
  mass : 0 < m.inertia.mass
  parent : (InertiaGroup.index? groups m.parent).isSome
  orientation : 0 < m.orientation.normSq

theorem normSq_pos_of_isUnit {q : Quat ℝ} (h : q.isUnit = true) : 0 < q.normSq := by
  have htol : (Quat.unitTolerance : ℝ) < 1 := by norm_num [Quat.unitTolerance]
  rw [Quat.isUnit, decide_eq_true_eq, Scalar.abs_real] at h
  have := (abs_le.mp h).2
  linarith

theorem Passes.carried (h : Passes groups m) : Carried groups m :=
  ⟨h.mass.2, h.parent, normSq_pos_of_isUnit h.orientation⟩

theorem carried_of_check (h : p.check groups m = .ok ()) : Carried groups m :=
  (check_eq_ok_iff.mp h).2.carried

theorem Filled.carried (hp : Filled groups p) (hm : m ∈ p.modules) : Carried groups m :=
  (hp.passes hm).carried

end

end Payload

theorem ExtraModule.rigid_offset {m : ExtraModule ℝ} (h : 0 < m.orientation.normSq) :
    m.offset.Rigid :=
  Quat.unit_normalize h

end Multirotor
