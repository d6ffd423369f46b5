import Multirotor.Proofs.NamedCoordinates
import Multirotor.Proofs.Outcome

/-!
# Batches of named values

A batch is taken whole or not at all. It is refused for the first value that
is not finite and meant for a joint; else every coordinate takes the last
value that is meant for it. Batches may be joined, and no run of them makes a
coordinate that is not finite (`takes_batches`).
-/

namespace Multirotor

namespace Coordinates

variable {α : Type}

/-! ## What a batch asks for -/

section
variable (t : Tree α) (batch : List (String × α))

/-- The value of the last pair whose name leads to the coordinate. -/
def lastValue? (c : Nat) : Option α :=
  (batch.reverse.find? fun pair => t.coordinate? pair.1 == some c).map (·.2)

/-- The names that no joint has, in their order and as often as they stand. -/
def unknownNames : List String := (batch.map (·.1)).filter fun name => !t.jointNames.contains name

end

section
variable {t : Tree α} {batch : List (String × α)} {values : List α} {c : Nat} {v : α}

theorem unresolved_eq : unresolved t batch = unknownNames t batch := by
  unfold unresolved unknownNames
  rw [List.filter_map]
  refine congrArg _ (List.filter_congr fun pair _ => ?_)
  rw [Function.comp_apply, Bool.eq_iff_iff, Option.isNone_iff_eq_none, Tree.coordinate?_eq_none_iff]
  simp

theorem getElem?_write (hlen : values.length = t.jointCount) (pair : String × α) :
    (write t values pair)[c]? =
      if t.coordinate? pair.1 = some c then some pair.2 else values[c]? := by
  split
  · next hc =>
    have hlt : c < values.length := hlen ▸ Tree.coordinate?_lt hc
    simp only [write, hc]
    exact List.getElem?_set_self hlt
  · next hc => exact getElem?_write_of_ne hc

theorem lastValue?_concat (pair : String × α) : lastValue? t (batch ++ [pair]) c =
    if t.coordinate? pair.1 = some c then some pair.2 else lastValue? t batch c := by
  unfold lastValue?
  rw [List.reverse_concat, List.find?_cons]
  split
  · next hc => rw [if_pos (eq_of_beq hc), Option.map_some]
  · next hc => rw [if_neg (ne_of_beq_false hc)]

theorem getElem?_foldl_write (hlen : values.length = t.jointCount) :
    (batch.foldl (write t) values)[c]? = (lastValue? t batch c).or values[c]? := by
  induction batch using List.reverseRecOn with
  | nil => rfl
  | append_singleton batch pair ih =>
    rw [List.foldl_append, List.foldl_cons, List.foldl_nil,
      getElem?_write (length_foldl_write.trans hlen), lastValue?_concat, ih]
    split <;> rfl

theorem exists_mem_of_lastValue? (h : lastValue? t batch c = some v) :
    ∃ pair ∈ batch, t.coordinate? pair.1 = some c ∧ pair.2 = v := by
  obtain ⟨pair, hfind, hv⟩ := Option.map_eq_some_iff.mp h
  have hc := List.find?_some hfind
  exact ⟨pair, List.mem_reverse.mp (List.mem_of_find?_eq_some hfind), eq_of_beq hc, hv⟩

end

/-! ## One batch -/

section
variable [Scalar α]

instance (t : Tree α) : DecidablePred (Unusable t) :=
  fun pair => inferInstanceAs (Decidable (pair.1 ∈ t.jointNames ∧ Scalar.isFinite pair.2 = false))

/-- What a batch answers, and the coordinates it leaves. -/
inductive Assigns (t : Tree α) (q : Coordinates α) (batch : List (String × α)) :
    Except (ModelError α) (List String) → Coordinates α → Prop where
  | refused {before rest : List (String × α)} {name : String} {v : α} :
    batch = before ++ (name, v) :: rest → (∀ pair ∈ before, ¬Unusable t pair) →
      Unusable t (name, v) → Assigns t q batch (.error (.notFiniteCoordinate name v)) q
  | written {q' : Coordinates α} :
    (∀ pair ∈ batch, ¬Unusable t pair) →
      (∀ c, q'.values[c]? = (lastValue? t batch c).or q.values[c]?) →
        Assigns t q batch (.ok (unknownNames t batch)) q'

variable {t : Tree α} {q q₁ q₂ : Coordinates α} {batch xs ys : List (String × α)}

theorem apply_append : q.apply t (xs ++ ys) = q.apply t xs >>= fun out =>
    (out.1.apply t ys).map fun out' => (out'.1, out.2 ++ out'.2) := by
  induction xs generalizing q with
  | nil =>
    rw [List.nil_append]
    change _ = (q.apply t ys).map fun out' => (out'.1, [] ++ out'.2)
    cases q.apply t ys <;> rfl
  | cons pair xs ih =>
    rw [List.cons_append, apply, apply]
    cases t.coordinate? pair.1 with
    | none =>
      dsimp only
      rw [ih]
      cases q.apply t xs with
      | error e => rfl
      | ok out =>
        change ((out.1.apply t ys).map _ >>= _) = (out.1.apply t ys).map _
        cases out.1.apply t ys <;> rfl
    | some c =>
      dsimp only
      split
      · exact ih
      · rfl

theorem apply_eq_error {before rest : List (String × α)} {name : String} {v : α}
    (hbefore : ∀ pair ∈ before, ¬Unusable t pair) (h : Unusable t (name, v)) :
    q.apply t (before ++ (name, v) :: rest) = .error (.notFiniteCoordinate name v) := by
  obtain ⟨c, hc⟩ := Option.ne_none_iff_exists'.mp (Tree.coordinate?_ne_none h.1)
  rw [apply_append, apply_eq_ok hbefore]
  change Except.map _ (apply t _ ((name, v) :: rest)) = _
  simp only [apply, hc, h.2]
  rfl

theorem run_assign (t : Tree α) (batch : List (String × α)) (q : Coordinates α) :
    (assign t batch).run q = match q.apply t batch with
      | .ok (q', unknown) => (.ok unknown, q')
      | .error e => (.error e, q) := by
  simp only [assign, run_bind, run_get, run_lift]
  cases q.apply t batch <;> rfl

theorem run_assign_of_usable (h : ∀ pair ∈ batch, ¬Unusable t pair) :
    (assign t batch).run q =
      (.ok (unknownNames t batch), ⟨batch.foldl (write t) q.values⟩) := by
  rw [run_assign, apply_eq_ok h, unresolved_eq]

section
variable {out : Except (ModelError α) (List String)} {q' : Coordinates α}
  (hq : q.values.length = t.jointCount)
include hq

theorem Assigns.run (h : Assigns t q batch out q') : (assign t batch).run q = (out, q') := by
  cases h with
  | refused he hbefore hun => rw [he, run_assign, apply_eq_error hbefore hun]
  | written hall hget =>
    rw [run_assign_of_usable hall]
    obtain ⟨values⟩ := q'
    have hvalues : batch.foldl (write t) q.values = values := List.ext_getElem? fun c =>
      (getElem?_foldl_write hq).trans (hget c).symm
    rw [hvalues]

theorem assigns_run (batch : List (String × α)) :
    Assigns t q batch ((assign t batch).run q).1 ((assign t batch).run q).2 := by
  cases hfind : batch.find? fun pair => Unusable t pair with
  | none =>
    have hall : ∀ pair ∈ batch, ¬Unusable t pair := by
      simpa using List.find?_eq_none.mp hfind
    rw [run_assign_of_usable hall]
    exact .written hall fun c => getElem?_foldl_write hq
  | some pair =>
    obtain ⟨hun, before, rest, rfl, hbefore⟩ := List.find?_eq_some_iff_append.mp hfind
    rw [run_assign, apply_eq_error (by simpa using hbefore) (of_decide_eq_true hun)]
    exact .refused rfl (by simpa using hbefore) (of_decide_eq_true hun)

theorem run_assign_iff : (assign t batch).run q = (out, q') ↔ Assigns t q batch out q' := by
  refine ⟨fun h => ?_, fun h => h.run hq⟩
  have := assigns_run hq batch
  rwa [h] at this

theorem run_assign_error_iff :
    (∃ e q', (assign t batch).run q = (.error e, q')) ↔ ∃ pair ∈ batch, Unusable t pair := by
  constructor
  · rintro ⟨e, q', hrun⟩
    cases (run_assign_iff hq).mp hrun with
    | refused he _ hun => exact ⟨_, he ▸ List.mem_append_right _ List.mem_cons_self, hun⟩
  · rintro ⟨pair, hp, hun⟩
    have hruns := assigns_run hq batch
    generalize (assign t batch).run q = result at hruns ⊢
    obtain ⟨out, q'⟩ := result
    cases hruns with
    | refused => exact ⟨_, _, rfl⟩
    | written hall => exact absurd hun (hall pair hp)

theorem Assigns.length (h : Assigns t q batch out q') : q'.values.length = t.jointCount := by
  cases h with
  | refused => exact hq
  | written hall hget =>
    have hrun := (Assigns.written hall hget).run hq
    rw [run_assign_of_usable hall] at hrun
    obtain rfl := congrArg Prod.snd hrun
    exact length_foldl_write.trans hq

end

theorem Assigns.finite {out : Except (ModelError α) (List String)} {q' : Coordinates α}
    (h : Assigns t q batch out q') (hq : ∀ v ∈ q.values, Scalar.isFinite v = true) :
    ∀ v ∈ q'.values, Scalar.isFinite v = true := by
  cases h with
  | refused => exact hq
  | written hall hget =>
    intro v hv
    obtain ⟨c, hc⟩ := List.mem_iff_getElem?.mp hv
    rw [hget, Option.or_eq_some_iff] at hc
    rcases hc with hlast | ⟨-, hkept⟩
    · obtain ⟨pair, hp, hpc, rfl⟩ := exists_mem_of_lastValue? hlast
      exact Bool.of_not_eq_false fun hv => hall pair hp ⟨Tree.mem_jointNames hpc, hv⟩
    · exact hq v (List.mem_of_getElem? hkept)

theorem run_assign_eq_ok {u : List String} :
    (assign t batch).run q = (.ok u, q₁) ↔ q.apply t batch = .ok (q₁, u) := by
  rw [run_assign]
  rcases q.apply t batch with e | ⟨q', unknown⟩
  · exact iff_of_false (fun h => absurd (congrArg Prod.fst h) nofun) nofun
  · constructor <;>
    · intro h
      cases h
      rfl

/-- Two batches, one after the other, are one batch. -/
theorem run_assign_append {u u' : List String} (hxs : (assign t xs).run q = (.ok u, q₁))
    (hys : (assign t ys).run q₁ = (.ok u', q₂)) :
    (assign t (xs ++ ys)).run q = (.ok (u ++ u'), q₂) := by
  rw [run_assign_eq_ok] at hxs hys ⊢
  rw [apply_append, hxs]
  change Except.map _ (apply t q₁ ys) = _
  rw [hys]
  rfl

/-! ## Runs of batches -/

/-- Coordinates that come about by name or as a list, batches taken or refused on the way. -/
inductive Reached (t : Tree α) : Coordinates α → Prop where
  | zeros : Reached t (zeros t)
  | ofList {values : List α} {q : Coordinates α} : ofList t values = .ok q → Reached t q
  | assign {q : Coordinates α} : Reached t q → ∀ batch, Reached t ((assign t batch).run q).2

theorem ofList_eq_ok {values : List α} (h : ofList t values = .ok q) :
    q.values.length = t.jointCount ∧ ∀ v ∈ q.values, Scalar.isFinite v = true := by
  unfold ofList at h
  by_cases hlen : values.length = t.jointCount
  · simp only [hlen, ne_eq, not_true_eq_false, if_false] at h
    split at h
    · cases h
    · next hfind =>
      cases h
      refine ⟨hlen, fun v hv => ?_⟩
      have hsnd : (t.jointNames.zip values).map Prod.snd = values :=
        List.map_snd_zip (hlen.trans Tree.length_jointNames.symm).le
      rw [← hsnd] at hv
      obtain ⟨pair, hp, rfl⟩ := List.mem_map.mp hv
      simpa using List.find?_eq_none.mp hfind pair hp
  · rw [if_pos hlen] at h
    cases h

theorem Reached.fits (h : Reached t q) : q.values.length = t.jointCount := by
  induction h with
  | zeros => exact List.length_replicate
  | ofList h => exact (ofList_eq_ok h).1
  | assign _ batch ih => exact (assigns_run ih batch).length ih

theorem Reached.finite (h0 : Scalar.isFinite (0 : α) = true) (h : Reached t q) :
    ∀ v ∈ q.values, Scalar.isFinite v = true := by
  induction h with
  | zeros => exact fun v hv => List.eq_of_mem_replicate hv ▸ h0
  | ofList h => exact (ofList_eq_ok h).2
  | assign h batch ih => exact (assigns_run h.fits batch).finite ih

/-- How a tree takes batches of named values. -/
structure TakesBatches (t : Tree α) : Prop where
  outcome : ∀ q : Coordinates α, q.values.length = t.jointCount → ∀ batch out q',
    (assign t batch).run q = (out, q') ↔ Assigns t q batch out q'
  refused : ∀ q : Coordinates α, q.values.length = t.jointCount → ∀ batch,
    (∃ e q', (assign t batch).run q = (.error e, q')) ↔ ∃ pair ∈ batch, Unusable t pair
  append : ∀ q q₁ q₂ : Coordinates α, ∀ xs ys u u', (assign t xs).run q = (.ok u, q₁) →
    (assign t ys).run q₁ = (.ok u', q₂) → (assign t (xs ++ ys)).run q = (.ok (u ++ u'), q₂)
  reached : ∀ q, Reached t q →
    q.values.length = t.jointCount ∧ ∀ v ∈ q.values, Scalar.isFinite v = true

end

theorem takes_batches (t : Tree Float) : TakesBatches t where
  outcome _ hq _ _ _ := run_assign_iff hq
  refused _ hq _ := run_assign_error_iff hq
  append _ _ _ _ _ _ _ := run_assign_append
  reached _ h := ⟨h.fits, h.finite (by decide +kernel)⟩

/-! ## A leg with two hinges -/

def leg : List (SegmentRecord Float) :=
  [⟨"base", none, .identity, ⟨"base_joint", .floating⟩, .pointMass 1 0⟩,
    ⟨"thigh", some "base", .identity, ⟨"hip", .revolute Vec3.unitZ⟩, .pointMass 1 0⟩,
    ⟨"shank", some "thigh", .identity, ⟨"knee", .revolute Vec3.unitZ⟩, .pointMass 1 0⟩]

/-- The hip takes its last value; a value for no joint may be what it likes. -/
example : (Tree.ofRecords leg).toOption.map (fun t =>
    ((assign t [("hip", 1), ("tail", 1 / 0), ("hip", 2)]).run (zeros t)).2.values == [2, 0]) =
      some true := by
  decide +kernel

/-- The hip comes before the knee, which refuses the batch, and keeps its angle. -/
example : (Tree.ofRecords leg).toOption.map (fun t =>
    ((assign t [("hip", 1), ("knee", 1 / 0)]).run (zeros t)).2.values == [0, 0]) = some true := by
  decide +kernel

end Coordinates

end Multirotor
