import Multirotor.Proofs.BoundedRegion
import Multirotor.Proofs.RotatedMargin

/-!
# Margins of a set of generators

Whether generators span space, and how far they reach beyond a face, does not
depend on their order, so both margins keep (`margins_perm`). Which pairs span
faces follows from the lines of the generators (`facePairs?_scaled`), and one
scale for generators and required vector is a scale of the exact distances
(`faceDistance_scaled`).
-/

namespace Multirotor

theorem Scalar.least_map_mul {xs : List ℝ} {c : ℝ} (hc : 0 < c) (hne : xs ≠ []) :
    Scalar.least (xs.map (· * c)) = Scalar.least xs * c := by
  refine eq_of_forall_le_iff fun d => ?_
  rw [le_least_iff (by simpa using hne), ← div_le_iff₀ hc, le_least_iff hne]
  simp only [List.forall_mem_map, div_le_iff₀ hc]

section Faces

variable {u v w a b c : Vec3 ℝ} {generators permuted : List (Vec3 ℝ)} {pairs : List (Nat × Nat)}

/-! ## Volumes in any order -/

theorem volume_swap (a b c : Vec3 ℝ) : (b.cross a).dot c = -(a.cross b).dot c := by
  rw [Vec3.cross_swap, Vec3.neg_dot]

theorem abs_volume_perm (h : [u, v, w].Perm [a, b, c]) :
    |(u.cross v).dot w| = |(a.cross b).dot c| := by
  have horders := List.mem_permutations'.mpr h
  simp only [List.permutations', List.permutations'Aux, List.flatMap_cons, List.flatMap_nil,
    List.map_cons, List.map_nil, List.append_nil, List.cons_append, List.nil_append,
    List.mem_cons, List.not_mem_nil, or_false, List.cons.injEq, and_true] at horders
  rcases horders with ⟨rfl, rfl, rfl⟩ | ⟨rfl, rfl, rfl⟩ | ⟨rfl, rfl, rfl⟩ | ⟨rfl, rfl, rfl⟩ |
    ⟨rfl, rfl, rfl⟩ | ⟨rfl, rfl, rfl⟩
  · rfl
  · rw [volume_swap, abs_neg]
  · rw [Vec3.cross_dot_turn, Vec3.cross_dot_turn]
  · rw [volume_swap, abs_neg, Vec3.cross_dot_turn]
  · rw [Vec3.cross_dot_turn]
  · rw [volume_swap, abs_neg, Vec3.cross_dot_turn, Vec3.cross_dot_turn]

/-- No three of the vectors, in whatever order, span more. -/
theorem spannedVolume_lt_iff {us : List (Vec3 ℝ)} {bound : ℝ} (hb : 0 < bound) :
    spannedVolume us (0 : ℝ) < bound ↔
      ∀ u ∈ us, ∀ v ∈ us, ∀ w ∈ us, |(u.cross v).dot w| < bound := by
  refine ⟨fun hlt u hu v hv w hw => ?_, fun h => spannedVolume_lt h hb⟩
  by_cases hflat : (u.cross v).dot w = 0
  · rwa [hflat, abs_zero]
  -- Vectors that span a volume are different, so they stand in the list in some order.
  have hnd : [u, v, w].Nodup := by
    have huv : u ≠ v := by
      rintro rfl
      exact hflat (by rw [Vec3.cross_self, Vec3.zero_dot])
    have huw : u ≠ w := by
      rintro rfl
      exact hflat (by rw [Vec3.dot_comm, Vec3.dot_cross_left])
    have hvw : v ≠ w := by
      rintro rfl
      exact hflat (by rw [Vec3.dot_comm, Vec3.dot_cross_right])
    simp [huv, huw, hvw]
  have hsubperm : [u, v, w].Subperm us := hnd.subperm (by simp [hu, hv, hw])
  obtain ⟨l, hl, hsub⟩ := hsubperm
  obtain ⟨a, b, c, rfl⟩ := List.length_eq_three.mp hl.length_eq
  rw [← abs_volume_perm hl]
  exact (le_spannedVolume hsub).trans_lt hlt

/-- Generators do not span space if no three of their directions span more than the tolerance. -/
def Flat (generators : List (Vec3 ℝ)) : Prop :=
  ∀ a ∈ generators, ∀ b ∈ generators, ∀ c ∈ generators,
    |(a.direction.cross b.direction).dot c.direction| < degenerateTolerance

theorem spannedVolume_direction_lt_iff :
    spannedVolume (generators.map Vec3.direction) (0 : ℝ) < degenerateTolerance ↔
      Flat generators := by
  simp only [spannedVolume_lt_iff degenerateTolerance_pos, List.forall_mem_map, Flat]

theorem facePairs?_eq_none_iff : facePairs? generators = none ↔ Flat generators := by
  rw [← spannedVolume_direction_lt_iff]
  unfold facePairs?
  dsimp only
  split <;> simp_all

/-! ## Generators on the same lines -/

section
variable {n : Nat} (g : Fin n → Vec3 ℝ)

/-- The ordered pairs of different numbers below `n` that a relation keeps. -/
def pairsWhere (keep : Fin n → Fin n → Bool) : List (Nat × Nat) :=
  (List.finRange n).flatMap fun i =>
    ((List.finRange n).filter fun j => i.val != j.val && keep i j).map fun j => (i.val, j.val)

theorem zipIdx_ofFn {β : Type} (f : Fin n → β) :
    (List.ofFn f).zipIdx = (List.finRange n).map fun k => (f k, k.val) := by
  refine List.ext_getElem (by simp) fun k hk hk' => ?_
  simp

theorem facePairs?_ofFn (h : ¬Flat (List.ofFn g)) : facePairs? (List.ofFn g) =
    some (pairsWhere fun i j =>
      decide (parallelTolerance < ((g i).direction.cross (g j).direction).norm)) := by
  have hspans := mt spannedVolume_direction_lt_iff.mp h
  have hunits : ((List.ofFn g).map Vec3.direction).zipIdx =
      (List.finRange n).map fun k => ((g k).direction, k.val) := by
    rw [List.map_ofFn, zipIdx_ofFn]
    rfl
  unfold facePairs? pairsWhere
  simp only [if_neg hspans, hunits, List.flatMap_map, List.filter_map, List.map_map]
  rfl

section
variable {s t q : ℝ}

theorem normalize_mul (hs : 0 < s) (a : Vec3 ℝ) : (a * s : Vec3 ℝ).normalize = a.normalize := by
  rw [Vec3.normalize_eq, Vec3.normalize_eq, Vec3.norm_mul, abs_of_pos hs]
  ext <;> simp <;> field_simp

theorem direction_mul (a : Vec3 ℝ) (s : ℝ) :
    (a * s : Vec3 ℝ).direction = a.direction * (s * |s|⁻¹) := by
  rw [Vec3.direction_eq, Vec3.direction_eq, Vec3.norm_mul]
  ext <;> simp <;> ring

theorem abs_mul_inv_abs (hs : s ≠ 0) : |s * |s|⁻¹| = 1 := by
  rw [abs_mul, abs_inv, abs_abs, mul_inv_cancel₀ (abs_ne_zero.mpr hs)]

theorem norm_cross_direction_mul (hs : s ≠ 0) (ht : t ≠ 0) (a b : Vec3 ℝ) :
    ((a * s : Vec3 ℝ).direction.cross (b * t : Vec3 ℝ).direction).norm =
      (a.direction.cross b.direction).norm := by
  rw [direction_mul, direction_mul, Vec3.cross_mul_mul, Vec3.norm_mul, abs_mul,
    abs_mul_inv_abs hs, abs_mul_inv_abs ht, mul_one, mul_one]

theorem abs_volume_direction_mul (hs : s ≠ 0) (ht : t ≠ 0) (hq : q ≠ 0) (a b c : Vec3 ℝ) :
    |((a * s : Vec3 ℝ).direction.cross (b * t : Vec3 ℝ).direction).dot (c * q : Vec3 ℝ).direction| =
      |(a.direction.cross b.direction).dot c.direction| := by
  have hs := abs_mul_inv_abs hs
  have ht := abs_mul_inv_abs ht
  have hq := abs_mul_inv_abs hq
  rw [direction_mul, direction_mul, direction_mul, Vec3.cross_mul_mul, Vec3.mul_dot, Vec3.dot_mul]
  generalize s * |s|⁻¹ = s' at hs ⊢
  generalize t * |t|⁻¹ = t' at ht ⊢
  rw [abs_mul, abs_mul s', abs_mul, hs, ht, hq, mul_one, mul_one, mul_one]

end

/-- A generator counts by its line only: neither its length nor its sign changes the faces. -/
theorem facePairs?_scaled {c : Fin n → ℝ} (hc : ∀ k, c k ≠ 0) :
    facePairs? (List.ofFn fun k => (g k * c k : Vec3 ℝ)) = facePairs? (List.ofFn g) := by
  have hflat : Flat (List.ofFn fun k => (g k * c k : Vec3 ℝ)) ↔ Flat (List.ofFn g) := by
    simp only [Flat, List.forall_mem_ofFn_iff, abs_volume_direction_mul (hc _) (hc _) (hc _)]
  by_cases h : Flat (List.ofFn g)
  · rw [facePairs?_eq_none_iff.mpr h, facePairs?_eq_none_iff.mpr (hflat.mpr h)]
  · rw [facePairs?_ofFn g h, facePairs?_ofFn _ (mt hflat.mp h)]
    simp only [norm_cross_direction_mul (hc _) (hc _)]

end

end Faces

/-! ## Distances by what all generators reach -/

namespace ThrustRange

variable {r : ThrustRange ℝ} {s : Support} {generators permuted : List (Vec3 ℝ)}
  {pairs : List (Nat × Nat)} {d : ℝ}

/-- The most that an admitted thrust makes of a generator of signed length `x`, exact or smooth. -/
noncomputable def reachBy (r : ThrustRange ℝ) (s : Support) (x : ℝ) : ℝ :=
  r.min * x + r.span * r.support s x

theorem reachBy_zero : r.reachBy s 0 = 0 := by
  cases s with
  | exact => exact reach_zero
  | smooth => simp [reachBy, support]

/-- How far the generators reach beyond `w` along `n`. -/
noncomputable def beyond (r : ThrustRange ℝ) (s : Support) (generators : List (Vec3 ℝ))
    (w n : Vec3 ℝ) : ℝ :=
  (generators.map fun g => r.reachBy s (n.dot g)).sum - n.dot w

theorem beyond_perm (h : generators.Perm permuted) (w n : Vec3 ℝ) :
    r.beyond s permuted w n = r.beyond s generators w n := by
  unfold beyond
  rw [(h.map _).sum_eq]

theorem faceDistance_eq_beyond (w : Vec3 ℝ) (pair : Nat × Nat) :
    r.faceDistance s generators w pair =
      r.beyond s generators w (faceNormal generators pair).normalize := by
  simp only [faceDistance, Scalar.sum_real, beyond, faceNormal]
  congr 1
  refine (sum_offFace (f := fun g => r.reachBy s (Vec3.dot _ g)) ?_ ?_).trans ?_
  · rw [Vec3.normalize_eq, Vec3.mul_dot, Vec3.dot_comm, Vec3.dot_cross_left, zero_mul, reachBy_zero]
  · rw [Vec3.normalize_eq, Vec3.mul_dot, Vec3.dot_comm, Vec3.dot_cross_right, zero_mul, reachBy_zero]
  · exact Fin.sum_univ_fun_getElem generators fun g => r.reachBy s (Vec3.dot _ g)

/-- The least distance to a face, by the generators that span faces and not by their numbers. -/
theorem le_least_iff_beyond (h : facePairs? generators = some pairs) (w : Vec3 ℝ) :
    d ≤ Scalar.least (pairs.map (r.faceDistance s generators w)) ↔
      ∀ a ∈ generators, ∀ b ∈ generators, Long a b →
        d ≤ r.beyond s generators w (a.cross b).normalize := by
  rw [Scalar.le_least_iff (by simpa using pairs_ne_nil h)]
  simp only [List.forall_mem_map, faceDistance_eq_beyond]
  constructor
  · intro hall a ha b hb hlong
    obtain ⟨pair, hp, hn⟩ := exists_face h ha hb hlong
    rw [← hn]
    exact hall pair hp
  · intro hall pair hp
    obtain ⟨a, ha, b, hb, hlong, hn⟩ := exists_long h hp
    rw [hn]
    exact hall a ha b hb hlong

/-! ## Another order, another scale -/

theorem least_perm (hp : generators.Perm permuted) {pairs' : List (Nat × Nat)}
    (h : facePairs? generators = some pairs) (h' : facePairs? permuted = some pairs') (w : Vec3 ℝ) :
    Scalar.least (pairs'.map (r.faceDistance s permuted w)) =
      Scalar.least (pairs.map (r.faceDistance s generators w)) := by
  refine eq_of_forall_le_iff fun d => ?_
  rw [le_least_iff_beyond h, le_least_iff_beyond h']
  simp only [beyond_perm hp, hp.mem_iff]

theorem margins_perm (hp : generators.Perm permuted) (w : Vec3 ℝ) :
    (r.margins permuted w).degenerate = (r.margins generators w).degenerate ∧
      (r.margins permuted w).exactMargin = (r.margins generators w).exactMargin ∧
      (r.margins permuted w).smoothMargin = (r.margins generators w).smoothMargin := by
  have hflat : facePairs? permuted = none ↔ facePairs? generators = none := by
    simp only [facePairs?_eq_none_iff, Flat, hp.mem_iff]
  cases h : facePairs? generators with
  | none =>
    rw [margins_of_none h, margins_of_none (hflat.mpr h)]
    exact ⟨rfl, rfl, rfl⟩
  | some pairs =>
    obtain ⟨pairs', h'⟩ := Option.ne_none_iff_exists'.mp (mt hflat.mp (h ▸ Option.some_ne_none _))
    rw [margins_of_some h, margins_of_some h']
    exact ⟨rfl, least_perm hp h h' w, least_perm hp h h' w⟩

theorem beyond_scaled {c : ℝ} (hc : 0 ≤ c) (generators : List (Vec3 ℝ)) (w n : Vec3 ℝ) :
    r.beyond .exact (generators.map fun g => (g * c : Vec3 ℝ)) (w * c : Vec3 ℝ) n =
      r.beyond .exact generators w n * c := by
  have hreach : ∀ g : Vec3 ℝ,
      r.reachBy .exact (n.dot (g * c : Vec3 ℝ)) = r.reachBy .exact (n.dot g) * c := fun g => by
    rw [Vec3.dot_mul]
    exact reach_mul hc _
  unfold beyond
  rw [List.map_map, Vec3.dot_mul, sub_mul, ← List.sum_map_mul_right]
  simp only [Function.comp_def, hreach]

theorem faceDistance_scaled {c : ℝ} (hc : 0 < c) (generators : List (Vec3 ℝ)) (w : Vec3 ℝ)
    (pair : Nat × Nat) :
    r.faceDistance .exact (generators.map fun g => (g * c : Vec3 ℝ)) (w * c : Vec3 ℝ) pair =
      r.faceDistance .exact generators w pair * c := by
  have hzero : ((0 : Vec3 ℝ) * c : Vec3 ℝ) = 0 := by
    ext <;> simp
  have hnormal : faceNormal (generators.map fun g => (g * c : Vec3 ℝ)) pair =
      faceNormal generators pair * (c * c) := by
    rw [faceNormal, generator_map hzero, generator_map hzero, Vec3.cross_mul_mul, faceNormal]
  rw [faceDistance_eq_beyond, faceDistance_eq_beyond, hnormal, normalize_mul (mul_pos hc hc),
    beyond_scaled hc.le]

theorem margins_scaled {c : ℝ} (hc : 0 < c) (generators : List (Vec3 ℝ)) (w : Vec3 ℝ) :
    (r.margins (generators.map fun g => (g * c : Vec3 ℝ)) (w * c : Vec3 ℝ)).exact =
        (r.margins generators w).exact.map (· * c) ∧
      (r.margins (generators.map fun g => (g * c : Vec3 ℝ)) (w * c : Vec3 ℝ)).exactMargin =
        (r.margins generators w).exactMargin * c := by
  have hpairs : facePairs? (generators.map fun g => (g * c : Vec3 ℝ)) = facePairs? generators := by
    have hscaled := facePairs?_scaled generators.get fun _ => hc.ne'
    rw [List.ofFn_get] at hscaled
    rw [← hscaled, ← List.ofFn_getElem_eq_map]
    rfl
  cases h : facePairs? generators with
  | none =>
    rw [margins_of_none h, margins_of_none (hpairs.trans h), zero_mul]
    exact ⟨rfl, rfl⟩
  | some pairs =>
    have hexact : pairs.map (r.faceDistance .exact (generators.map fun g => (g * c : Vec3 ℝ))
        (w * c : Vec3 ℝ)) = (pairs.map (r.faceDistance .exact generators w)).map (· * c) := by
      rw [List.map_map]
      exact List.map_congr_left fun pair _ => faceDistance_scaled hc generators w pair
    rw [margins_of_some h, margins_of_some (hpairs.trans h), hexact]
    exact ⟨rfl, Scalar.least_map_mul hc (by simpa using pairs_ne_nil h)⟩

/-- Margins are those of a set of generators in space: of their order, of the axes that they are
given in, and of the unit they are measured in nothing shows. -/
theorem margins_of_generatorSet (r : ThrustRange ℝ) (generators : List (Vec3 ℝ))
    (required : Vec3 ℝ) :
    (∀ permuted, generators.Perm permuted →
      (r.margins permuted required).degenerate = (r.margins generators required).degenerate ∧
      (r.margins permuted required).exactMargin = (r.margins generators required).exactMargin ∧
      (r.margins permuted required).smoothMargin = (r.margins generators required).smoothMargin) ∧
    (∀ z : Quat ℝ, z.Unit →
      r.margins (generators.map z.rotate) (z.rotate required) = r.margins generators required) ∧
    (∀ c : Fin generators.length → ℝ, (∀ k, c k ≠ 0) →
      facePairs? (List.ofFn fun k => (generators.get k * c k : Vec3 ℝ)) = facePairs? generators) ∧
    ∀ c : ℝ, 0 < c →
      let scaled := r.margins (generators.map fun g => (g * c : Vec3 ℝ)) (required * c : Vec3 ℝ)
      scaled.exact = (r.margins generators required).exact.map (· * c) ∧
        scaled.exactMargin = (r.margins generators required).exactMargin * c := by
  refine ⟨fun permuted hp => margins_perm hp required,
    fun z hz => margins_rotate hz r generators required, fun c hc => ?_,
    fun c hc => margins_scaled hc generators required⟩
  rw [facePairs?_scaled generators.get hc, List.ofFn_get]

/-- The axes in reverse, after a half turn about z, each with a factor below zero, and doubled. -/
theorem margins_of_generatorSet_axes :
    let r : ThrustRange ℝ := ⟨0, 1, 1⟩
    let w : Vec3 ℝ := ⟨0, 1, 1⟩
    let halfTurn : Quat ℝ := ⟨0, 0, 0, 1⟩
    (r.margins axes w).degenerate = false ∧
      (axes.Perm axes.reverse ∧
        (r.margins axes.reverse w).exactMargin = (r.margins axes w).exactMargin ∧
        (r.margins axes.reverse w).smoothMargin = (r.margins axes w).smoothMargin) ∧
      (halfTurn.Unit ∧
        r.margins (axes.map halfTurn.rotate) (halfTurn.rotate w) = r.margins axes w) ∧
      ((∀ k : Fin axes.length, -1 - (k : ℝ) ≠ 0) ∧
        facePairs? (List.ofFn fun k : Fin axes.length => (axes.get k * (-1 - (k : ℝ)) : Vec3 ℝ)) =
          facePairs? axes) ∧
      (r.margins (axes.map fun g => (g * (2 : ℝ) : Vec3 ℝ)) (w * (2 : ℝ) : Vec3 ℝ)).exactMargin =
        (r.margins axes w).exactMargin * 2 := by
  intro r w halfTurn
  obtain ⟨pairs, hpairs⟩ := facePairs?_axes
  obtain ⟨hperm, hrotate, hscaled, hdoubled⟩ := margins_of_generatorSet r axes w
  have hreverse := axes.reverse_perm.symm
  have hunit : halfTurn.Unit := by
    simp [halfTurn, Quat.Unit, Quat.normSq_eq]
  have hfactor : ∀ k : Fin axes.length, -1 - (k : ℝ) ≠ 0 := fun k => by
    have hk : (0 : ℝ) ≤ (k : ℝ) := Nat.cast_nonneg _
    exact ne_of_lt (by linarith)
  exact ⟨by simp only [margins, hpairs], ⟨hreverse, (hperm _ hreverse).2⟩,
    ⟨hunit, hrotate _ hunit⟩, ⟨hfactor, hscaled _ hfactor⟩, (hdoubled 2 two_pos).2⟩

end ThrustRange

end Multirotor
