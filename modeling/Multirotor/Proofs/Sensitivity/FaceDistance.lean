import Multirotor.Proofs.BoundedRegion
import Multirotor.Proofs.Thrust
import Multirotor.Proofs.Exact.Rate

/-!
# Rates of the face distances

While the generators change, the smooth distances to the faces change at the
rates that are computed from the rates of the generators (`faceDistances_rate`).
The rates of the distances are linear in those of the generators, so one
computation for each column of a derivative is enough.
-/

namespace Multirotor

/-! ## Unit vectors -/

namespace Vec3

variable {f : ℝ → Vec3 ℝ} {v : Vec3 ℝ}

theorem HasRate.div {s : ℝ → ℝ} {s' : ℝ} (hf : HasRate f v) (hs : HasDerivAt s s' 0)
    (h : s 0 ≠ 0) :
    HasRate (fun t => (f t / s t : Vec3 ℝ)) ((v * s 0 - f 0 * s') / (s 0 ^ 2)) :=
  ⟨hf.x.div hs h, hf.y.div hs h, hf.z.div hs h⟩

theorem HasRate.norm (hf : HasRate f v) (h : f 0 ≠ 0) :
    HasDerivAt (fun t => (f t).norm) ((f 0).dot v / (f 0).norm) 0 := by
  have hsq : HasDerivAt (fun t => (f t).normSq) (2 * (f 0).dot v) 0 := by
    refine (hf.dot hf).congr_deriv ?_
    rw [dot_comm v]
    ring
  refine (hsq.sqrt (normSq_pos h).ne').congr_deriv ?_
  rw [norm_eq, mul_div_mul_left _ _ two_ne_zero]

theorem across_apply (n : Vec3 ℝ) : (Mat3.identity - Mat3.outer n n).apply v = v - n * n.dot v := by
  ext <;> simp [Mat3.apply_eq, Mat3.identity, Mat3.outer, dot_eq] <;> ring

/-- A unit vector turns with the part of a rate that is across it. -/
theorem HasRate.normalize (hf : HasRate f v) (h : f 0 ≠ 0) :
    HasRate (fun t => (f t).normalize)
      ((Mat3.identity - Mat3.outer (f 0).normalize (f 0).normalize).apply v / (f 0).norm) := by
  have hnorm := (norm_pos h).ne'
  refine (hf.div (hf.norm h) hnorm).congr_rate ?_
  rw [across_apply]
  ext <;> simp [Vec3.normalize, dot_eq] <;> field_simp

end Vec3

/-! ## Normals -/

section
variable {n : Nat}

theorem generator_ofFn (g : Fin n → Vec3 ℝ) (i : Nat) :
    generator (List.ofFn g) i = if h : i < n then g ⟨i, h⟩ else 0 := by
  rw [generator, List.getD_eq_getElem?_getD, List.getElem?_ofFn]
  split <;> rfl

theorem offFace_ofFn {β : Type} (f : Fin n → β) (pair : Nat × Nat) :
    offFace (List.ofFn f) pair = (offFace (List.finRange n) pair).map f := by
  rw [List.ofFn_eq_map]
  simp only [offFace, List.zipIdx_map, List.filter_map, List.map_map]
  rfl

/-- The rate of the unit normal of a face. -/
noncomputable def normalRate (generators rates : List (Vec3 ℝ)) (pair : Nat × Nat) : Vec3 ℝ :=
  let n := (faceNormal generators pair).normalize
  (Mat3.identity - Mat3.outer n n).apply
    ((generator rates pair.1).cross (generator generators pair.2) +
      (generator generators pair.1).cross (generator rates pair.2)) /
    (faceNormal generators pair).norm

theorem normalRate_add (generators : List (Vec3 ℝ)) (pair : Nat × Nat) (a b : Fin n → Vec3 ℝ) :
    normalRate generators (List.ofFn (a + b)) pair =
      normalRate generators (List.ofFn a) pair + normalRate generators (List.ofFn b) pair := by
  have hadd : ∀ i, generator (List.ofFn (a + b)) i =
      generator (List.ofFn a) i + generator (List.ofFn b) i := fun i => by
    simp only [generator_ofFn]
    split
    · rfl
    · exact (add_zero 0).symm
  simp only [normalRate, Vec3.across_apply, hadd, Vec3.add_cross, Vec3.cross_add]
  ext <;> simp [Vec3.dot_eq] <;> ring

theorem normalRate_mul (generators : List (Vec3 ℝ)) (pair : Nat × Nat) (a : Fin n → Vec3 ℝ)
    (s : ℝ) : normalRate generators (List.ofFn fun k => (a k * s : Vec3 ℝ)) pair =
      normalRate generators (List.ofFn a) pair * s := by
  have hmul : ∀ i, generator (List.ofFn fun k => (a k * s : Vec3 ℝ)) i =
      generator (List.ofFn a) i * s := fun i => by
    simp only [generator_ofFn]
    split
    · rfl
    · ext <;> simp
  simp only [normalRate, Vec3.across_apply, hmul]
  ext <;> simp [Vec3.dot_eq] <;> ring

theorem hasRate_generator {entry : Fin n → ℝ → Vec3 ℝ} {rate : Fin n → Vec3 ℝ}
    (h : ∀ k, Vec3.HasRate (entry k) (rate k)) (i : Nat) :
    Vec3.HasRate (fun t => generator (List.ofFn fun k => entry k t) i)
      (generator (List.ofFn rate) i) := by
  simp only [generator_ofFn]
  split
  · exact h _
  · exact Vec3.hasRate_const 0

theorem hasRate_normal {g : ℝ → List (Vec3 ℝ)} {rates : List (Vec3 ℝ)}
    (hg : Entrywise Vec3.HasRate g rates) {pair : Nat × Nat} (h : faceNormal (g 0) pair ≠ 0) :
    Vec3.HasRate (fun t => (faceNormal (g t) pair).normalize) (normalRate (g 0) rates pair) := by
  obtain ⟨n, entry, rate, hentry, rfl, hrate⟩ := hg
  have hcross : Vec3.HasRate (fun t => faceNormal (g t) pair)
      ((generator (List.ofFn rate) pair.1).cross (generator (g 0) pair.2) +
        (generator (g 0) pair.1).cross (generator (List.ofFn rate) pair.2)) := by
    simp only [faceNormal, hentry]
    exact (hasRate_generator hrate _).cross (hasRate_generator hrate _)
  exact hcross.normalize h

end

/-! ## Smooth supports -/

theorem hasDerivAt_logistic (x : ℝ) : HasDerivAt logistic (logistic x * (1 - logistic x)) x := by
  have hpos : 1 + Real.exp (-x) ≠ 0 := by positivity
  have hexp : HasDerivAt (fun x : ℝ => 1 + Real.exp (-x)) (-Real.exp (-x)) x :=
    ((hasDerivAt_neg x).exp.const_add 1).congr_deriv (by ring)
  have heq : (logistic : ℝ → ℝ) = fun x => (1 + Real.exp (-x))⁻¹ := funext fun x => one_div _
  rw [heq]
  refine (hexp.fun_inv hpos).congr_deriv ?_
  field_simp
  ring

namespace ThrustRange

variable (r : ThrustRange ℝ)

/-- What a generator adds to the smooth distance to a face, by its part along the normal. -/
noncomputable def smoothReach (x : ℝ) : ℝ := r.min * x + r.span * r.support .smooth x

noncomputable def smoothSlope (x : ℝ) : ℝ :=
  let s := logistic (r.sharpness * x)
  r.min + r.span * (s + r.sharpness * x * s * (1 - s))

theorem hasDerivAt_smoothReach (x : ℝ) : HasDerivAt r.smoothReach (r.smoothSlope x) x := by
  have hlinear : HasDerivAt (fun x => r.sharpness * x) r.sharpness x := by
    simpa using (hasDerivAt_id x).const_mul r.sharpness
  have hsupport := (hasDerivAt_id x).mul ((hasDerivAt_logistic (r.sharpness * x)).comp x hlinear)
  refine (((hasDerivAt_id x).const_mul r.min).add (hsupport.const_mul r.span)).congr_deriv ?_
  simp only [smoothSlope, Function.comp_apply, id_eq]
  ring

section
variable {n : Nat} (g d : Fin n → Vec3 ℝ) (required : Vec3 ℝ) (pair : Nat × Nat)

theorem faceDistance_smooth_ofFn : r.faceDistance .smooth (List.ofFn g) required pair =
    ((offFace (List.finRange n) pair).map fun k =>
      r.smoothReach ((faceNormal (List.ofFn g) pair).normalize.dot (g k))).sum -
        (faceNormal (List.ofFn g) pair).normalize.dot required := by
  simp only [faceDistance, Scalar.sum_real, faceNormal]
  congr 1
  generalize ((generator (List.ofFn g) pair.1).cross (generator (List.ofFn g) pair.2)).normalize = u
  rw [offFace_ofFn, List.map_map]
  rfl

theorem foldl_add_eq {β : Type} (f : β → ℝ) (l : List β) (a : ℝ) :
    l.foldl (fun total x => total + f x) a = (l.map f).sum + a := by
  induction l generalizing a with
  | nil => simp
  | cons x l ih =>
    rw [List.foldl_cons, ih, List.map_cons, List.sum_cons]
    ring

theorem faceRate_ofFn : r.faceRate (List.ofFn g) (List.ofFn d) required pair =
    ((offFace (List.finRange n) pair).map fun k =>
      ((normalRate (List.ofFn g) (List.ofFn d) pair).dot (g k) +
        (faceNormal (List.ofFn g) pair).normalize.dot (d k)) *
          r.smoothSlope ((faceNormal (List.ofFn g) pair).normalize.dot (g k))).sum -
      (normalRate (List.ofFn g) (List.ofFn d) pair).dot required := by
  have hnormal : (Mat3.identity - Mat3.outer (faceNormal (List.ofFn g) pair).normalize
      (faceNormal (List.ofFn g) pair).normalize).apply
        ((-Mat3.skew (generator (List.ofFn g) pair.2)).apply (generator (List.ofFn d) pair.1) +
          (Mat3.skew (generator (List.ofFn g) pair.1)).apply (generator (List.ofFn d) pair.2)) /
      (faceNormal (List.ofFn g) pair).norm = normalRate (List.ofFn g) (List.ofFn d) pair := by
    rw [Mat3.neg_skew_apply, Mat3.skew_apply]
    rfl
  rw [faceRate, ← faceNormal, ← Vec3.normalize, hnormal, foldl_add_eq, zip_ofFn, offFace_ofFn,
    List.map_map, Vec3.dot_comm required]
  refine congrArg₂ (· + ·) (congrArg List.sum (List.map_congr_left fun k _ => ?_)) rfl
  rw [Function.comp_apply, Vec3.dot_comm (g k)]
  rfl

theorem hasDerivAt_sum {ι : Type} {l : List ι} {f : ι → ℝ → ℝ} {f' : ι → ℝ} {t : ℝ}
    (h : ∀ i ∈ l, HasDerivAt (f i) (f' i) t) :
    HasDerivAt (fun t => (l.map fun i => f i t).sum) (l.map f').sum t := by
  induction l with
  | nil => exact hasDerivAt_const t 0
  | cons i l ih =>
    obtain ⟨hi, hl⟩ := List.forall_mem_cons.mp h
    simp only [List.map_cons, List.sum_cons]
    exact hi.add (ih hl)

end

section
variable {g : ℝ → List (Vec3 ℝ)} {rates : List (Vec3 ℝ)} (required : Vec3 ℝ) {pair : Nat × Nat}

theorem hasDerivAt_faceDistance (hg : Entrywise Vec3.HasRate g rates)
    (hp : faceNormal (g 0) pair ≠ 0) :
    HasDerivAt (fun t => r.faceDistance .smooth (g t) required pair)
      (r.faceRate (g 0) rates required pair) 0 := by
  have hnormal := hasRate_normal hg hp
  obtain ⟨n, entry, rate, hentry, rfl, hrate⟩ := hg
  simp only [hentry] at hnormal ⊢
  simp only [faceDistance_smooth_ofFn, faceRate_ofFn]
  have hreach : ∀ k, HasDerivAt
      (fun t => r.smoothReach
        ((faceNormal (List.ofFn fun k => entry k t) pair).normalize.dot (entry k t)))
      (((normalRate (List.ofFn fun k => entry k 0) (List.ofFn rate) pair).dot (entry k 0) +
        (faceNormal (List.ofFn fun k => entry k 0) pair).normalize.dot (rate k)) *
          r.smoothSlope
            ((faceNormal (List.ofFn fun k => entry k 0) pair).normalize.dot (entry k 0)))
      0 := fun k => by
    rw [mul_comm]
    exact (r.hasDerivAt_smoothReach _).comp 0 (hnormal.dot (hrate k))
  refine (hasDerivAt_sum fun k _ => hreach k).sub
    ((hnormal.dot (Vec3.hasRate_const required)).congr_deriv ?_)
  rw [Vec3.dot_zero, add_zero]

end

/-! ## Columns -/

/-- What a combination of motions makes of the rates along each. -/
noncomputable def combination {n d : Nat} (columns : Fin d → Fin n → Vec3 ℝ) (weights : Fin d → ℝ) :
    List (Vec3 ℝ) :=
  List.ofFn fun k => ∑ c, (columns c k * weights c : Vec3 ℝ)

section
variable {n : Nat} (g : Fin n → Vec3 ℝ) (required : Vec3 ℝ) (pair : Nat × Nat)

theorem faceRate_add (a b : Fin n → Vec3 ℝ) :
    r.faceRate (List.ofFn g) (List.ofFn (a + b)) required pair =
      r.faceRate (List.ofFn g) (List.ofFn a) required pair +
        r.faceRate (List.ofFn g) (List.ofFn b) required pair := by
  rw [faceRate_ofFn, faceRate_ofFn, faceRate_ofFn, normalRate_add, Vec3.add_dot,
    sub_add_sub_comm, ← List.sum_map_add]
  refine congrArg (· - _) (congrArg List.sum (List.map_congr_left fun k _ => ?_))
  rw [Vec3.add_dot, Pi.add_apply, Vec3.dot_add]
  ring

theorem faceRate_mul (a : Fin n → Vec3 ℝ) (s : ℝ) :
    r.faceRate (List.ofFn g) (List.ofFn fun k => (a k * s : Vec3 ℝ)) required pair =
      r.faceRate (List.ofFn g) (List.ofFn a) required pair * s := by
  rw [faceRate_ofFn, faceRate_ofFn, normalRate_mul, Vec3.mul_dot, sub_mul, ← List.sum_map_mul_right]
  refine congrArg (· - _) (congrArg List.sum (List.map_congr_left fun k _ => ?_))
  rw [Vec3.mul_dot, Vec3.dot_mul]
  ring

theorem faceRate_combination {d : Nat} (columns : Fin d → Fin n → Vec3 ℝ) (weights : Fin d → ℝ) :
    r.faceRate (List.ofFn g) (combination columns weights) required pair =
      ∑ c, r.faceRate (List.ofFn g) (List.ofFn (columns c)) required pair * weights c := by
  let rate : (Fin n → Vec3 ℝ) →+ ℝ := AddMonoidHom.mk'
    (fun a => r.faceRate (List.ofFn g) (List.ofFn a) required pair) (r.faceRate_add g required pair)
  calc rate (fun k => ∑ c, (columns c k * weights c : Vec3 ℝ))
      = rate (∑ c, fun k => (columns c k * weights c : Vec3 ℝ)) := by
        congr 1
        ext1 k
        rw [Finset.sum_apply]
    _ = ∑ c, rate fun k => (columns c k * weights c : Vec3 ℝ) := map_sum rate _ _
    _ = _ := Finset.sum_congr rfl fun c _ => r.faceRate_mul g required pair _ _

end

/-- The smooth distances change at the rates that are computed for them, face by face, and along a
combination of motions at the same combination of rates. -/
theorem faceDistances_rate {g : ℝ → List (Vec3 ℝ)} {rates : List (Vec3 ℝ)}
    (pairs : List (Nat × Nat)) (required : Vec3 ℝ) (hg : Entrywise Vec3.HasRate g rates)
    (hp : ∀ pair ∈ pairs, (generator (g 0) pair.1).cross (generator (g 0) pair.2) ≠ 0) :
    Entrywise (fun f d => HasDerivAt f d 0)
      (fun t => r.faceDistances .smooth (g t) pairs required)
      (pairs.map (r.faceRate (g 0) rates required)) ∧
    ∀ (d : Nat) (columns : Fin d → Fin (g 0).length → Vec3 ℝ) (weights : Fin d → ℝ),
      pairs.map (r.faceRate (g 0) (combination columns weights) required) =
        pairs.map fun pair =>
          ∑ c, r.faceRate (g 0) (List.ofFn (columns c)) required pair * weights c := by
  refine ⟨Entrywise.map fun pair hpair => r.hasDerivAt_faceDistance required hg (hp pair hpair),
    fun d columns weights => List.map_congr_left fun pair _ => ?_⟩
  have hcombined := r.faceRate_combination (g 0).get required pair columns weights
  rwa [List.ofFn_get] at hcombined

/-- The first of three generators turns towards the second. -/
noncomputable def turning (t : ℝ) : List (Vec3 ℝ) := [⟨1, t, 0⟩, ⟨0, 1, 0⟩, ⟨0, 0, 1⟩]

noncomputable def turningRates : List (Vec3 ℝ) := [⟨0, 1, 0⟩, 0, 0]

theorem hasRate_turning : Entrywise Vec3.HasRate turning turningRates := by
  have hfirst : Vec3.HasRate (fun t => ⟨1, t, 0⟩) ⟨0, 1, 0⟩ :=
    ⟨hasDerivAt_const 0 1, hasDerivAt_id 0, hasDerivAt_const 0 0⟩
  refine ⟨3, ![fun t => ⟨1, t, 0⟩, fun _ => ⟨0, 1, 0⟩, fun _ => ⟨0, 0, 1⟩], ![⟨0, 1, 0⟩, 0, 0],
    fun t => by simp [turning, List.ofFn_succ], by simp [turningRates, List.ofFn_succ], fun k => ?_⟩
  fin_cases k
  exacts [hfirst, Vec3.hasRate_const _, Vec3.hasRate_const _]

theorem faceDistances_rate_turning :
    Entrywise Vec3.HasRate turning turningRates ∧
      (generator (turning 0) 0).cross (generator (turning 0) 2) ≠ 0 ∧
      Entrywise (fun f d => HasDerivAt f d 0)
        (fun t => (⟨0, 1, 1⟩ : ThrustRange ℝ).faceDistances .smooth (turning t) [(0, 2)] ⟨1, 0, 0⟩)
        [-1] := by
  have hcross : (generator (turning 0) 0).cross (generator (turning 0) 2) = ⟨0, -1, 0⟩ := by
    ext <;> simp [generator, turning]
  have hnorm : (⟨0, -1, 0⟩ : Vec3 ℝ).norm = 1 := by
    simp [Vec3.norm_eq, Vec3.normSq_eq, Vec3.dot_eq]
  have hne : (generator (turning 0) 0).cross (generator (turning 0) 2) ≠ 0 := by
    rw [hcross]
    simp [Vec3.ext_iff]
  have hrate : (⟨0, 1, 1⟩ : ThrustRange ℝ).faceRate (turning 0) turningRates ⟨1, 0, 0⟩ (0, 2) =
      -1 := by
    simp only [faceRate, hcross, hnorm, Mat3.neg_skew_apply, Mat3.skew_apply, Vec3.across_apply]
    simp [generator, turning, turningRates, offFace, Vec3.dot_eq]
  have hall := (faceDistances_rate ⟨0, 1, 1⟩ [(0, 2)] ⟨1, 0, 0⟩ hasRate_turning
    (by simpa using hne)).1
  rw [List.map_singleton, hrate] at hall
  exact ⟨hasRate_turning, hne, hall⟩

end ThrustRange

end Multirotor
