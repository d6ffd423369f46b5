import Multirotor.Proofs.GeneratorSet

/-!
# Attained margins

Generators that span space list the faces of two pairs at least, each from
both sides and once (`listed_of_facePairs?`). So every normal has a length, and
a margin is the distance to a listed face, never the infinity that stands for
no face (`Attained`). The two faces of a pair are as far from each other as
thrusts move along their normal (`faceDistance_add_swap`).
-/

namespace Multirotor

/-! ## Least distances -/

/-- A margin is one of the distances and the least of them, also where the least is taken from
infinity on. -/
structure Attained (distances : List ℝ) (margin : ℝ) : Prop where
  mem : margin ∈ distances
  le : ∀ d ∈ distances, margin ≤ d
  foldl : (distances.map WithTop.some).foldl min ⊤ = margin

theorem foldl_min_coe (ds : List ℝ) (d : ℝ) :
    (ds.map WithTop.some).foldl min (d : WithTop ℝ) = (ds.foldl Scalar.smaller d : ℝ) := by
  induction ds generalizing d with
  | nil => rfl
  | cons e ds ih =>
    have hmin : min (d : WithTop ℝ) e = (Scalar.smaller d e : ℝ) := by
      rw [Scalar.smaller_real, WithTop.coe_min]
    rw [List.map_cons, List.foldl_cons, List.foldl_cons, hmin, ih]

theorem attained_least {ds : List ℝ} (h : ds ≠ []) : Attained ds (Scalar.least ds) where
  mem := Scalar.least_mem h
  le := (Scalar.le_least_iff h).mp le_rfl
  foldl := by
    cases ds with
    | nil => exact absurd rfl h
    | cons d ds =>
      rw [List.map_cons, List.foldl_cons, min_eq_right le_top, foldl_min_coe, Scalar.least_cons]

/-! ## Listed faces -/

section Faces

variable {generators : List (Vec3 ℝ)} {pairs : List (Nat × Nat)} {pair : Nat × Nat}

/-- Pairs that list the faces of generators. -/
structure Listed (generators : List (Vec3 ℝ)) (pairs : List (Nat × Nat)) : Prop where
  two_le : 2 ≤ (pairs.toFinset.image fun pair => s(pair.1, pair.2)).card
  swap : ∀ pair ∈ pairs, pair.swap ∈ pairs
  nodup : pairs.Nodup
  ne : ∀ pair ∈ pairs, pair.1 ≠ pair.2
  cross : ∀ pair ∈ pairs, faceNormal generators pair ≠ 0

theorem nodup_pairsWhere {n : Nat} (keep : Fin n → Fin n → Bool) : (pairsWhere keep).Nodup := by
  refine List.nodup_flatMap.mpr ⟨fun i _ => ?_, ?_⟩
  · refine ((List.nodup_finRange n).filter _).map fun j k hjk => ?_
    exact Fin.ext (congrArg Prod.snd hjk)
  · refine (List.nodup_finRange n).imp fun {i k} hne p hi hk => hne ?_
    obtain ⟨j, -, rfl⟩ := List.mem_map.mp hi
    obtain ⟨l, -, hp⟩ := List.mem_map.mp hk
    exact Fin.ext (congrArg Prod.fst hp).symm

section
variable (h : facePairs? generators = some pairs)
include h

/-- The two faces of a fan share one generator only. -/
theorem exists_two_pairs : ∃ p ∈ pairs, ∃ q ∈ pairs, s(p.1, p.2) ≠ s(q.1, q.2) := by
  obtain ⟨a, ha, b, hb, c, hc, hvolume, hab, hac⟩ := exists_fan h
  obtain ⟨p, hp, hpa, hpb⟩ := exists_pair h ha hb hab
  obtain ⟨q, hq, hqa, hqc⟩ := exists_pair h ha hc hac
  refine ⟨p, hp, q, hq, fun hsame => hvolume ?_⟩
  rcases Sym2.mk_eq_mk_iff.mp hsame with rfl | rfl
  · rw [← hqc, hpb, Vec3.dot_comm, Vec3.dot_cross_right]
  · have hca : c = a := hqc.symm.trans hpa
    rw [hca, Vec3.dot_comm, Vec3.dot_cross_left]

theorem listed_of_facePairs? : Listed generators pairs where
  two_le := by
    obtain ⟨p, hp, q, hq, hne⟩ := exists_two_pairs h
    refine Finset.one_lt_card.mpr ⟨_, Finset.mem_image_of_mem _ (List.mem_toFinset.mpr hp), _,
      Finset.mem_image_of_mem _ (List.mem_toFinset.mpr hq), hne⟩
  swap _ hp := swap_mem h hp
  nodup := by
    have hspans : ¬Flat (List.ofFn generators.get) := fun hflat => by
      rw [List.ofFn_get] at hflat
      rw [facePairs?_eq_none_iff.mpr hflat] at h
      cases h
    have hpairs := facePairs?_ofFn generators.get hspans
    rw [List.ofFn_get, h, Option.some.injEq] at hpairs
    rw [hpairs]
    exact nodup_pairsWhere _
  ne _ hp := by
    obtain ⟨-, -, hne, -⟩ := (mem_facePairs? h).mp hp
    exact hne
  cross _ hp := cross_ne_zero_of_mem h hp

end

theorem faceNormal_swap (generators : List (Vec3 ℝ)) (pair : Nat × Nat) :
    faceNormal generators pair.swap = -faceNormal generators pair :=
  Vec3.cross_swap _ _

theorem normalize_neg (a : Vec3 ℝ) : (-a).normalize = -a.normalize := by
  rw [Vec3.normalize_eq, Vec3.normalize_eq, Vec3.norm_neg]
  ext <;> simp

end Faces

namespace ThrustRange

variable {r : ThrustRange ℝ} {generators : List (Vec3 ℝ)} {pairs : List (Nat × Nat)}

/-! ## Opposite faces -/

theorem reach_add_reach_neg (x : ℝ) : r.reach x + r.reach (-x) = (r.max - r.min) * |x| := by
  rw [reach_eq, reach_eq, ← max_zero_add_max_neg_zero_eq_abs_self]
  ring

theorem beyond_add_beyond_neg (generators : List (Vec3 ℝ)) (w n : Vec3 ℝ) :
    r.beyond .exact generators w n + r.beyond .exact generators w (-n) =
      (r.max - r.min) * (generators.map fun g => |n.dot g|).sum := by
  have hreach : ∀ g : Vec3 ℝ, r.reachBy .exact (n.dot g) + r.reachBy .exact ((-n).dot g) =
      (r.max - r.min) * |n.dot g| := fun g => by
    rw [Vec3.neg_dot]
    exact reach_add_reach_neg _
  rw [← List.sum_map_mul_left, ← funext hreach, List.sum_map_add, beyond, beyond, Vec3.neg_dot n w]
  ring

theorem faceDistance_add_swap (w : Vec3 ℝ) (pair : Nat × Nat) :
    r.faceDistance .exact generators w pair + r.faceDistance .exact generators w pair.swap =
      (r.max - r.min) *
        (generators.map fun g => |(faceNormal generators pair).normalize.dot g|).sum := by
  rw [faceDistance_eq_beyond, faceDistance_eq_beyond, faceNormal_swap, normalize_neg,
    beyond_add_beyond_neg]

/-! ## Margins -/

/-- Generators that span space have faces, and both margins are the distance to one of them. -/
theorem margins_attained (h : facePairs? generators = some pairs) (r : ThrustRange ℝ)
    (w : Vec3 ℝ) :
    let m := r.margins generators w
    Listed generators pairs ∧
      (∀ pair ∈ pairs, 0 < (faceNormal generators pair).norm) ∧
      (m.degenerate = false ∧ m.pairs = pairs ∧
        m.exact = pairs.map (r.faceDistance .exact generators w) ∧
        m.smooth = pairs.map (r.faceDistance .smooth generators w)) ∧
      Attained m.exact m.exactMargin ∧ Attained m.smooth m.smoothMargin ∧
      ∀ pair ∈ pairs, r.faceDistance .exact generators w pair +
        r.faceDistance .exact generators w pair.swap = (r.max - r.min) *
          (generators.map fun g => |(faceNormal generators pair).normalize.dot g|).sum := by
  intro m
  have hlisted := listed_of_facePairs? h
  have hm : m = _ := margins_of_some h w
  have hattained : ∀ s, Attained (pairs.map (r.faceDistance s generators w))
      (Scalar.least (pairs.map (r.faceDistance s generators w))) := fun s =>
    attained_least (by simpa using pairs_ne_nil h)
  rw [hm]
  exact ⟨hlisted, fun pair hp => Vec3.norm_pos (hlisted.cross pair hp), ⟨rfl, rfl, rfl, rfl⟩,
    hattained .exact, hattained .smooth, fun pair _ => faceDistance_add_swap w pair⟩

theorem margins_attained_axes :
    let r : ThrustRange ℝ := ⟨0, 1, 1⟩
    let w : Vec3 ℝ := ⟨0, 1, 1⟩
    let m := r.margins axes w
    ∃ pairs, facePairs? axes = some pairs ∧ Listed axes pairs ∧
      (∀ pair ∈ pairs, 0 < (faceNormal axes pair).norm) ∧
      (m.degenerate = false ∧ m.pairs = pairs) ∧
      Attained m.exact m.exactMargin ∧ Attained m.smooth m.smoothMargin ∧
      (0, 1) ∈ pairs ∧
      r.faceDistance .exact axes w (0, 1) + r.faceDistance .exact axes w (1, 0) = 1 := by
  intro r w m
  obtain ⟨pairs, hpairs⟩ := facePairs?_axes
  obtain ⟨hlisted, hnorm, ⟨hdegenerate, hlist, -, -⟩, hexact, hsmooth, hsides⟩ :=
    margins_attained hpairs r w
  have hface : (0, 1) ∈ pairs := by
    refine (mem_facePairs? hpairs).mpr ⟨by decide, by decide, by decide, ?_⟩
    rw [direction_cross_direction]
    norm_num [axes, Vec3.norm_eq, Vec3.normSq_eq, Vec3.dot_eq, parallelTolerance]
  have hnormal : (faceNormal axes (0, 1)).normalize = ⟨0, 0, 1⟩ := by
    rw [Vec3.normalize_eq]
    ext <;> norm_num [faceNormal, generator, axes, Vec3.norm_eq, Vec3.normSq_eq, Vec3.dot_eq]
  have hsum := hsides (0, 1) hface
  rw [hnormal] at hsum
  refine ⟨pairs, hpairs, hlisted, hnorm, ⟨hdegenerate, hlist⟩, hexact, hsmooth, hface,
    hsum.trans ?_⟩
  norm_num [r, axes, Vec3.dot_eq]

end ThrustRange

end Multirotor
