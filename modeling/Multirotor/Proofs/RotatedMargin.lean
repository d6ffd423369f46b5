import Multirotor.Proofs.Exact.Turn
import Multirotor.Margin

/-!
# Rotated margins

Faces and distances follow from lengths and from the volumes that generators
span. One rotation of all generators and of the required vector keeps both, so
it leaves every part of the margins as it is (`margins_rotate`).
-/

namespace Multirotor

namespace Quat

variable {z : Quat ℝ} (hz : z.Unit)
include hz

theorem Unit.rotate_dot_rotate (u v : Vec3 ℝ) : (z.rotate u).dot (z.rotate v) = u.dot v := by
  rw [hz.rotate_eq, hz.rotate_eq, hz.orthogonal.apply_dot_apply]

theorem Unit.norm_rotate (v : Vec3 ℝ) : (z.rotate v).norm = v.norm := by
  rw [Vec3.norm_eq, Vec3.norm_eq, hz.normSq_rotate]

theorem Unit.direction_rotate (v : Vec3 ℝ) : (z.rotate v).direction = z.rotate v.direction := by
  rw [Vec3.direction_eq, Vec3.direction_eq, hz.norm_rotate, rotate_mul]

theorem Unit.normalize_rotate (v : Vec3 ℝ) : (z.rotate v).normalize = z.rotate v.normalize := by
  rw [Vec3.normalize_eq, Vec3.normalize_eq, hz.norm_rotate, rotate_mul]

end Quat

/-! ## Faces -/

theorem offFace_map {β γ : Type} (f : β → γ) (items : List β) (pair : Nat × Nat) :
    offFace (items.map f) pair = (offFace items pair).map f := by
  unfold offFace
  rw [List.zipIdx_map, List.filter_map, List.map_map, List.map_map]
  rfl

theorem generator_map {f : Vec3 ℝ → Vec3 ℝ} (hf : f 0 = 0) (generators : List (Vec3 ℝ)) (i : Nat) :
    generator (generators.map f) i = f (generator generators i) := by
  unfold generator
  rw [List.getD_eq_getElem?_getD, List.getD_eq_getElem?_getD, List.getElem?_map]
  cases generators[i]? with
  | none => exact hf.symm
  | some g => rfl

section
variable {z : Quat ℝ} (hz : z.Unit)
include hz

theorem volume_rotate (u v w : Vec3 ℝ) :
    ((z.rotate u).cross (z.rotate v)).dot (z.rotate w) = (u.cross v).dot w := by
  rw [← hz.rotate_cross, hz.rotate_dot_rotate]

theorem greatestVolume_rotate (u : Vec3 ℝ) (vs : List (Vec3 ℝ)) (volume : ℝ) :
    greatestVolume (z.rotate u) (vs.map z.rotate) volume = greatestVolume u vs volume := by
  induction vs generalizing volume with
  | nil => rfl
  | cons v vs ih =>
    rw [List.map_cons]
    unfold greatestVolume
    dsimp only
    rw [List.foldl_map]
    simp only [volume_rotate hz, ih]

theorem spannedVolume_rotate (us : List (Vec3 ℝ)) (volume : ℝ) :
    spannedVolume (us.map z.rotate) volume = spannedVolume us volume := by
  induction us generalizing volume with
  | nil => rfl
  | cons u us ih =>
    rw [List.map_cons]
    unfold spannedVolume
    rw [greatestVolume_rotate hz, ih]

theorem facePairs?_rotate (generators : List (Vec3 ℝ)) :
    facePairs? (generators.map z.rotate) = facePairs? generators := by
  have hunits : (generators.map z.rotate).map Vec3.direction =
      (generators.map Vec3.direction).map z.rotate := by
    simp only [List.map_map]
    exact List.map_congr_left fun v _ => hz.direction_rotate v
  unfold facePairs?
  rw [hunits]
  generalize generators.map Vec3.direction = units
  dsimp only
  rw [spannedVolume_rotate hz, List.zipIdx_map]
  have hcross : ∀ u v : Vec3 ℝ, ((z.rotate u).cross (z.rotate v)).norm = (u.cross v).norm :=
    fun u v => by rw [← hz.rotate_cross, hz.norm_rotate]
  simp only [List.flatMap_map, List.filter_map, List.map_map, Function.comp_def, Prod.map_fst,
    Prod.map_snd, id_eq, hcross]

end

/-! ## Distances -/

namespace ThrustRange

variable {z : Quat ℝ} (hz : z.Unit) (r : ThrustRange ℝ)

include hz

theorem faceDistance_rotate (s : Support) (generators : List (Vec3 ℝ)) (required : Vec3 ℝ)
    (pair : Nat × Nat) : r.faceDistance s (generators.map z.rotate) (z.rotate required) pair =
      r.faceDistance s generators required pair := by
  unfold faceDistance
  rw [generator_map z.rotate_zero, generator_map z.rotate_zero, ← hz.rotate_cross, hz.normalize_rotate, offFace_map]
  simp only [List.map_map, Function.comp_def, hz.rotate_dot_rotate]

theorem margins_rotate (generators : List (Vec3 ℝ)) (required : Vec3 ℝ) :
    r.margins (generators.map z.rotate) (z.rotate required) = r.margins generators required := by
  have hfaces : ∀ s, r.faceDistance s (generators.map z.rotate) (z.rotate required) =
      r.faceDistance s generators required := fun s =>
    funext (faceDistance_rotate hz r s generators required)
  unfold margins faceDistances
  rw [facePairs?_rotate hz, hfaces, hfaces]

end ThrustRange

end Multirotor
