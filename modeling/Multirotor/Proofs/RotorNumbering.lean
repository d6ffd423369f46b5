import Mathlib.Data.Fintype.Card
import Mathlib.Order.Bounds.Basic
import Multirotor.Proofs.Outcome
import Multirotor.Proofs.Tree
import Multirotor.Rotor

/-!
# Numbered rotors

Numbers make different names, and a tree has finitely many segments: a count
of the rotors that goes on until a name is missing ends in every tree. The
rotors are what it finds, or as many of it as are expected; otherwise the
error names the first that is missing (`resolves_of_ofRecords`).
-/

namespace Multirotor

namespace RotorLayout

theorem rotorName_injective (link : String) : Function.Injective (rotorName link) := by
  intro a b h
  have htail : toString a = toString b := (String.append_right_inj link).mp h
  exact Nat.repr_inj.mp htail

variable {α : Type}

/-- There are not enough segments for one rotor more than there are segments. -/
theorem exists_missing (t : Tree α) (link : String) :
    ∃ i ≤ t.size, t.find? (rotorName link (i + 1)) = none := by
  by_contra hall
  push Not at hall
  choose f hf using fun i : Fin (t.size + 1) =>
    Option.ne_none_iff_exists'.mp (hall i (Nat.le_of_lt_succ i.isLt))
  have hinjective : Function.Injective f := by
    intro a b hab
    have hname := (Tree.name_of_find? (hf a)).symm.trans
      (hab ▸ Tree.name_of_find? (hf b))
    have := rotorName_injective link hname
    exact Fin.ext (by omega)
  have := Fintype.card_le_of_injective f hinjective
  simp at this

/-! ## The count -/

/-- Looking for rotor `i` and the next ones, as long as there are any, ends and finds these
segments. Nothing bounds how far the search may go. -/
inductive Counts (t : Tree α) (link : String) : Nat → List (Fin t.size) → Prop where
  | stop {i : Nat} : t.find? (rotorName link i) = none → Counts t link i []
  | next {i : Nat} {s : Fin t.size} {segments : List (Fin t.size)} :
    t.find? (rotorName link i) = some s → Counts t link (i + 1) segments →
      Counts t link i (s :: segments)

section
variable {t : Tree α} {link : String} {i : Nat} {segments segments' : List (Fin t.size)}

theorem Counts.unique (h : Counts t link i segments) (h' : Counts t link i segments') :
    segments = segments' := by
  induction h generalizing segments' with
  | stop hnone =>
    cases h' with
    | stop => rfl
    | next hs _ => exact absurd (hs.symm.trans hnone) nofun
  | next hs _ ih =>
    cases h' with
    | stop hnone => exact absurd (hs.symm.trans hnone) nofun
    | next hs' hrest =>
      obtain rfl := Option.some.inj (hs.symm.trans hs')
      rw [ih hrest]

/-- The search among `n` numbers is the whole count if one of them, or the next, is missing. -/
theorem counts_takeWhile {n : Nat} (h : ∃ k ≤ n, t.find? (rotorName link (i + k)) = none) :
    Counts t link i ((((List.range' i n).map fun k => t.find? (rotorName link k)).takeWhile
      (·.isSome)).filterMap id) := by
  -- What is left to search starts one number later, so the start is not fixed.
  induction n generalizing i with
  | zero =>
    obtain ⟨k, hk, hnone⟩ := h
    obtain rfl : k = 0 := Nat.le_zero.mp hk
    exact .stop hnone
  | succ n ih =>
    rw [List.range'_succ, List.map_cons, List.takeWhile_cons]
    cases hs : t.find? (rotorName link i) with
    | none => exact .stop hs
    | some s =>
      refine .next hs (ih ?_)
      obtain ⟨_ | k, hk, hnone⟩ := h
      · exact absurd (hs.symm.trans hnone) nofun
      · exact ⟨k, Nat.le_of_succ_le_succ hk, by rwa [Nat.add_assoc, Nat.add_comm 1]⟩

theorem counts_numbered (t : Tree α) (link : String) : Counts t link 1 (numbered t link) := by
  obtain ⟨i, hi, hnone⟩ := exists_missing t link
  have h := counts_takeWhile (i := 1) ⟨i, hi, (Nat.add_comm 1 i).symm ▸ hnone⟩
  rw [List.range'_eq_map_range, List.map_map] at h
  simpa only [numbered, Function.comp_def, Nat.add_comm] using h

theorem counts_iff : Counts t link 1 segments ↔ segments = numbered t link := by
  refine ⟨fun h => h.unique (counts_numbered t link), ?_⟩
  rintro rfl
  exact counts_numbered t link

end

/-! ## What the count finds -/

section
variable (t : Tree α) (link : String)

/-- The segments have the names of rotor `i` and the next ones. -/
def Named (i : Nat) (segments : List (Fin t.size)) : Prop :=
  (segments.map fun s => (t.segment s).name) =
    (List.range' i segments.length).map (rotorName link)

def Missing (number : Nat) : Prop := ∀ s, (t.segment s).name ≠ rotorName link number

/-- Segments for as many rotors as are expected, or for all that there are. -/
structure Chosen (count : Option Nat) (segments : List (Fin t.size)) : Prop where
  nonempty : segments ≠ []
  named : Named t link 1 segments
  expected : ∀ n, count = some n → segments.length = n
  counted : count = none → Missing t link (segments.length + 1)

/-- The number of the rotor that the segments are refused for. -/
inductive Lacks : Option Nat → Nat → Prop where
  | uncounted : Missing t link 1 → Lacks none 1
  | noneExpected : Lacks (some 0) 1
  | tooFew {n number : Nat} :
    IsLeast {i | 0 < i ∧ Missing t link i} number → number ≤ n → Lacks (some n) number

end

section
variable {t : Tree α} {link : String} {i n number : Nat} {segments : List (Fin t.size)}

theorem named_cons {s : Fin t.size} : Named t link i (s :: segments) ↔
    (t.segment s).name = rotorName link i ∧ Named t link (i + 1) segments := by
  simp [Named, List.range'_succ]

theorem missing_iff : Missing t link number ↔ t.find? (rotorName link number) = none :=
  Tree.find?_eq_none_iff.symm

theorem Counts.named (h : Counts t link i segments) : Named t link i segments := by
  induction h with
  | stop => rfl
  | next hs _ ih => exact named_cons.mpr ⟨Tree.name_of_find? hs, ih⟩

theorem Counts.missing_number_iff (h : Counts t link i segments) (hi : number ≤ i + segments.length)
    (hle : i ≤ number) : Missing t link number ↔ number = i + segments.length := by
  induction h with
  | @stop i hnone =>
    obtain rfl : number = i := Nat.le_antisymm hi hle
    exact iff_of_true (missing_iff.mpr hnone) rfl
  | @next i s segments hs _ ih =>
    rw [List.length_cons] at hi ⊢
    rcases Nat.eq_or_lt_of_le hle with rfl | hlt
    · refine iff_of_false (fun hm => ?_) (by omega)
      exact hm s (Tree.name_of_find? hs)
    · rw [ih (by omega) hlt]
      omega

theorem isLeast_missing (t : Tree α) (link : String) :
    IsLeast {i | 0 < i ∧ Missing t link i} ((numbered t link).length + 1) := by
  have h := counts_numbered t link
  constructor
  · exact ⟨Nat.succ_pos _, (h.missing_number_iff (by omega) (by omega)).mpr (Nat.add_comm _ 1)⟩
  · rintro i ⟨hpos, hm⟩
    by_contra hlt
    have := (h.missing_number_iff (by omega) hpos).mp hm
    omega

theorem Counts.isPrefix (hw : t.WellFormed) {all : List (Fin t.size)} (h : Counts t link i all)
    (hnamed : Named t link i segments) : segments <+: all := by
  induction h generalizing segments with
  | stop hnone =>
    cases segments with
    | nil => exact List.nil_prefix
    | cons s segments =>
      exact absurd (named_cons.mp hnamed).1 (missing_iff.mpr hnone s)
  | next hs _ ih =>
    cases segments with
    | nil => exact List.nil_prefix
    | cons s segments =>
      obtain ⟨hname, hrest⟩ := named_cons.mp hnamed
      obtain rfl := Option.some.inj (hs.symm.trans (hw.find?_eq_some_iff.mpr hname))
      exact List.cons_prefix_cons.mpr ⟨rfl, ih hrest⟩

theorem Named.of_append {rest : List (Fin t.size)} (h : Named t link i (segments ++ rest)) :
    Named t link i segments := by
  induction segments generalizing i with
  | nil => rfl
  | cons s segments ih =>
    obtain ⟨hname, hrest⟩ := named_cons.mp h
    exact named_cons.mpr ⟨hname, ih hrest⟩

theorem named_iff (hw : t.WellFormed) : Named t link 1 segments ↔ segments <+: numbered t link := by
  refine ⟨(counts_numbered t link).isPrefix hw, ?_⟩
  rintro ⟨rest, he⟩
  exact Named.of_append (he ▸ (counts_numbered t link).named)

/-- Names with different numbers belong to different segments. -/
theorem Named.nodup (h : Named t link i segments) : segments.Nodup := by
  refine List.Nodup.of_map (fun s => (t.segment s).name) ?_
  rw [h]
  exact (List.nodup_range' 1).map (rotorName_injective link)

end

/-! ## The segments that are chosen -/

section
variable {t : Tree α} {link : String} {n number : Nat} {count : Option Nat}
  {segments : List (Fin t.size)}

theorem chosen_none_iff (hw : t.WellFormed) :
    Chosen t link none segments ↔ segments = numbered t link ∧ segments ≠ [] := by
  constructor
  · rintro ⟨hne, hnamed, -, hcounted⟩
    have hle := ((named_iff hw).mp hnamed).length_le
    have hmin := (isLeast_missing t link).2 ⟨Nat.succ_pos _, hcounted rfl⟩
    exact ⟨((named_iff hw).mp hnamed).eq_of_length (by omega), hne⟩
  · rintro ⟨rfl, hne⟩
    exact ⟨hne, (counts_numbered t link).named, nofun, fun _ => (isLeast_missing t link).1.2⟩

theorem chosen_some_iff (hw : t.WellFormed) : Chosen t link (some n) segments ↔
    n ≤ (numbered t link).length ∧ segments = (numbered t link).take n ∧ segments ≠ [] := by
  constructor
  · rintro ⟨hne, hnamed, hexpected, -⟩
    have hpre := (named_iff hw).mp hnamed
    -- As many as are expected stand at the start of the count, so the count is not shorter.
    obtain rfl := hexpected n rfl
    exact ⟨hpre.length_le, List.prefix_iff_eq_take.mp hpre, hne⟩
  · rintro ⟨hn, rfl, hne⟩
    refine ⟨hne, (named_iff hw).mpr (List.take_prefix n _), ?_, nofun⟩
    rintro _ ⟨rfl⟩
    exact List.length_take_of_le hn

theorem Chosen.eq_take (hw : t.WellFormed) {all : List (Fin t.size)}
    (h : Chosen t link count segments) (hall : Counts t link 1 all) :
    segments = all.take (count.getD all.length) := by
  obtain rfl := counts_iff.mp hall
  cases count with
  | none => exact ((chosen_none_iff hw).mp h).1.trans List.take_length.symm
  | some n => exact ((chosen_some_iff hw).mp h).2.1

theorem lacks_none_iff :
    Lacks t link none number ↔ numbered t link = [] ∧ number = 1 := by
  constructor
  · rintro ⟨hm⟩
    have hmin := (isLeast_missing t link).2 ⟨Nat.one_pos, hm⟩
    exact ⟨List.eq_nil_of_length_eq_zero (by omega), rfl⟩
  · rintro ⟨hnil, rfl⟩
    have hleast := isLeast_missing t link
    rw [hnil] at hleast
    exact .uncounted hleast.1.2

theorem lacks_some_iff : Lacks t link (some n) number ↔
    n = 0 ∧ number = 1 ∨ (numbered t link).length < n ∧ number = (numbered t link).length + 1 := by
  constructor
  · rintro (_ | _ | ⟨hleast, hle⟩)
    · exact .inl ⟨rfl, rfl⟩
    · have := hleast.unique (isLeast_missing t link)
      exact .inr ⟨by omega, this⟩
  · rintro (⟨rfl, rfl⟩ | ⟨hlt, rfl⟩)
    · exact .noneExpected
    · exact .tooFew (isLeast_missing t link) hlt

theorem resolve_none (t : Tree α) (link : String) : resolve t link none =
    if numbered t link = [] then .error (.rotorNotFound (rotorName link 1))
    else .ok (numbered t link) := by
  unfold resolve
  cases numbered t link <;> rfl

theorem resolve_some (t : Tree α) (link : String) (n : Nat) : resolve t link (some n) =
    if (numbered t link).length < n then
      .error (.rotorNotFound (rotorName link ((numbered t link).length + 1)))
    else if n = 0 then .error (.rotorNotFound (rotorName link 1))
    else .ok ((numbered t link).take n) := by
  unfold resolve
  generalize numbered t link = all
  by_cases hlt : all.length < n
  · dsimp only
    rw [if_neg (Nat.not_le.mpr hlt), if_pos hlt]
    rfl
  · have hle : n ≤ all.length := Nat.not_lt.mp hlt
    have hlen := List.length_take_of_le hle
    dsimp only
    rw [if_pos hle, if_neg hlt]
    cases hall : all.take n with
    | nil =>
      have hzero : n = 0 := hlen.symm.trans (congrArg List.length hall)
      rw [if_pos hzero]
      rfl
    | cons s rest =>
      have hpos : n ≠ 0 := by
        rintro rfl
        exact absurd hall nofun
      rw [if_neg hpos]
      rfl

theorem resolve_eq_ok_iff (hw : t.WellFormed) :
    resolve t link count = .ok segments ↔ Chosen t link count segments := by
  cases count with
  | none =>
    rw [chosen_none_iff hw, resolve_none]
    split
    · next hnil =>
      refine iff_of_false nofun ?_
      rintro ⟨rfl, hne⟩
      exact hne hnil
    · next hne =>
      rw [Except.ok.injEq]
      exact ⟨fun h => ⟨h.symm, h ▸ hne⟩, fun h => h.1.symm⟩
  | some n =>
    rw [chosen_some_iff hw, resolve_some]
    split
    · next hlt => exact iff_of_false nofun fun h => absurd h.1 (Nat.not_le.mpr hlt)
    split
    · next hzero =>
      refine iff_of_false nofun ?_
      rintro ⟨-, rfl, hne⟩
      exact hne (hzero ▸ List.take_zero)
    · next hlt hpos =>
      have hle := Nat.not_lt.mp hlt
      rw [Except.ok.injEq]
      constructor
      · rintro rfl
        refine ⟨hle, rfl, List.ne_nil_of_length_pos ?_⟩
        rw [List.length_take_of_le hle]
        exact Nat.pos_of_ne_zero hpos
      · exact fun h => h.2.1.symm

theorem resolve_eq_error_iff {e : ModelError α} : resolve t link count = .error e ↔
    ∃ number, Lacks t link count number ∧ e = .rotorNotFound (rotorName link number) := by
  cases count with
  | none =>
    simp only [lacks_none_iff, resolve_none]
    split
    · next hnil => simp [hnil, eq_comm]
    · next hne => simp [hne]
  | some n =>
    simp only [lacks_some_iff, resolve_some]
    split
    · next hlt =>
      have hpos : n ≠ 0 := by omega
      simp [hlt, hpos, eq_comm]
    split
    · next hzero => simp [hzero, eq_comm]
    · next hlt hpos => simp [hlt, hpos]

end

/-! ## Directions -/

section
variable [Scalar α]

/-- `-1` for the segment of a rotor whose axis points down, and `1` for any other. -/
inductive Turns (t : Tree α) (s : Fin t.size) : α → Prop where
  | down {axis : Vec3 α} :
    (t.segment s).joint.kind = .rotor axis → axis.z < 0 → Turns t s (-1)
  | other : (∀ axis, (t.segment s).joint.kind = .rotor axis → ¬axis.z < 0) → Turns t s 1

theorem turns_iff {t : Tree α} {s : Fin t.size} {d : α} : Turns t s d ↔ axisDirection t s = d := by
  unfold axisDirection
  constructor
  · rintro (⟨hkind, hz⟩ | hup)
    · rw [hkind]
      exact if_pos hz
    · split
      · next axis hkind => exact if_neg (hup axis hkind)
      · rfl
  · rintro rfl
    split
    · next axis hkind =>
      split
      · next hz => exact .down hkind hz
      · next hz =>
        refine .other fun axis' h => ?_
        obtain rfl := JointKind.rotor.inj (hkind.symm.trans h)
        exact hz
    · next hother => exact .other fun axis h => absurd h (hother axis)

theorem forall₂_turns_iff {t : Tree α} {segments : List (Fin t.size)} {directions : List α} :
    List.Forall₂ (Turns t) segments directions ↔
      segments.map (axisDirection t) = directions := by
  have hturns : Turns t = fun s d => axisDirection t s = d :=
    funext₂ fun _ _ => propext turns_iff
  rw [hturns, ← List.forall₂_map_left_iff, List.forall₂_eq_eq_eq]

end

/-! ## Layouts -/

section
variable [Scalar α] (t : Tree α) (c : Config α)

/-- What the configuration asks of a layout. -/
structure Follows (l : RotorLayout α t.size) : Prop where
  chosen : Chosen t c.thrustLink c.rotorCount l.segments
  given : ∀ directions, c.rotorDirections = some directions → l.directions = directions
  read : c.rotorDirections = none → List.Forall₂ (Turns t) l.segments l.directions
  length : l.directions.length = l.segments.length
  dragRatio : l.dragRatio = c.dragRatio

/-- Why there is no layout: a rotor is missing, or the directions are not one for each rotor. -/
inductive Refused : ModelError α → Prop where
  | lacks {number : Nat} : Lacks t c.thrustLink c.rotorCount number →
      Refused (.rotorNotFound (rotorName c.thrustLink number))
  | directions {segments : List (Fin t.size)} {directions : List α} :
    Chosen t c.thrustLink c.rotorCount segments → c.rotorDirections = some directions →
      directions.length ≠ segments.length →
        Refused (.dimensionMismatch segments.length directions.length)

end

section
variable [Scalar α] {t : Tree α} {c : Config α} {l : RotorLayout α t.size}

/-- The directions that are given, if their number is right, or those read off the axes. -/
def directionsOf (t : Tree α) (c : Config α) (segments : List (Fin t.size)) :
    Except (ModelError α) (List α) :=
  match c.rotorDirections with
  | none => .ok (segments.map (axisDirection t))
  | some given =>
    if given.length = segments.length then .ok given
    else .error (.dimensionMismatch segments.length given.length)

theorem ofConfig_eq : ofConfig t c = resolve t c.thrustLink c.rotorCount >>= fun segments =>
    (directionsOf t c segments).map (⟨segments, ·, c.dragRatio⟩) := by
  refine congrArg _ (funext fun segments => ?_)
  unfold directionsOf
  cases c.rotorDirections with
  | none => rfl
  | some given =>
    dsimp only
    split <;> rfl

theorem ofConfig_eq_ok_iff (hw : t.WellFormed) : ofConfig t c = .ok l ↔ Follows t c l := by
  simp only [ofConfig_eq, bind_eq_ok, resolve_eq_ok_iff hw, map_eq_ok]
  unfold directionsOf
  constructor
  · rintro ⟨segments, hchosen, directions, hdirections, rfl⟩
    split at hdirections
    · next hc =>
      obtain rfl := Except.ok.inj hdirections
      exact ⟨hchosen, fun _ h => absurd (hc.symm.trans h) nofun,
        fun _ => forall₂_turns_iff.mpr rfl, List.length_map _, rfl⟩
    · next given hc =>
      split at hdirections
      · next hlen =>
        obtain rfl := Except.ok.inj hdirections
        exact ⟨hchosen, fun _ h => Option.some.inj (hc.symm.trans h),
          fun h => absurd (hc.symm.trans h) nofun, hlen, rfl⟩
      · cases hdirections
  · obtain ⟨segments, directions, dragRatio⟩ := l
    rintro ⟨hchosen, hgiven, hread, hlen, rfl⟩
    refine ⟨segments, hchosen, directions, ?_, rfl⟩
    split
    · next hc => exact congrArg Except.ok (forall₂_turns_iff.mp (hread hc))
    · next given hc =>
      obtain rfl := hgiven given hc
      exact if_pos hlen

theorem ofConfig_eq_error_iff (hw : t.WellFormed) {e : ModelError α} :
    ofConfig t c = .error e ↔ Refused t c e := by
  simp only [ofConfig_eq, bind_eq_error, resolve_eq_error_iff, resolve_eq_ok_iff hw, map_eq_error]
  unfold directionsOf
  constructor
  · rintro (⟨number, hlacks, rfl⟩ | ⟨segments, hchosen, hdirections⟩)
    · exact .lacks hlacks
    · split at hdirections
      · cases hdirections
      · next given hc =>
        split at hdirections
        · cases hdirections
        · next hlen =>
          obtain rfl := Except.error.inj hdirections
          exact .directions hchosen hc hlen
  · rintro (hlacks | ⟨hchosen, hc, hlen⟩)
    · exact .inl ⟨_, hlacks, rfl⟩
    · refine .inr ⟨_, hchosen, ?_⟩
      rw [hc]
      exact if_neg hlen

section
variable (hlen : l.directions.length = l.segments.length) (frames : Placement α t.size)
  (cog : CentreOfGravity α)
include hlen

theorem map_number_extract :
    (l.extract frames cog).map (·.number) = List.range' 1 l.segments.length := by
  unfold extract
  rw [List.map_map]
  change (l.segments.zip l.directions).zipIdx.map ((· + 1) ∘ Prod.snd) = _
  rw [← List.map_map, List.zipIdx_map_snd, List.length_zip, hlen, Nat.min_self,
    List.range'_eq_map_range, List.map_map, List.range'_eq_map_range]
  exact List.map_congr_left fun i _ => by simp [Nat.add_comm]

theorem map_segment_extract : (l.extract frames cog).map (·.segment) = l.segments := by
  unfold extract
  rw [List.map_map]
  change (l.segments.zip l.directions).zipIdx.map (Prod.fst ∘ Prod.fst) = _
  rw [← List.map_map, List.zipIdx_map_fst, List.map_fst_zip hlen.ge]

end

end

section
variable [Scalar α] {records : List (SegmentRecord α)} {t : Tree α}

/-- What becomes of the numbered rotors under a configuration. -/
structure Resolves (t : Tree α) (c : Config α) : Prop where
  /-- The unbounded count ends, in one way. -/
  counts : ∃! all, Counts t c.thrustLink 1 all
  accepted : ∀ l, ofConfig t c = .ok l ↔ Follows t c l
  refused : ∀ e, ofConfig t c = .error e ↔ Refused t c e
  /-- Without an expected number, the rotors are those counted, else the first of them. -/
  counted : ∀ {l all}, ofConfig t c = .ok l → Counts t c.thrustLink 1 all →
    l.segments = all.take (c.rotorCount.getD all.length)
  nodup : ∀ {l}, ofConfig t c = .ok l → l.segments.Nodup
  numbers : ∀ {l}, ofConfig t c = .ok l → ∀ frames cog,
    (l.extract frames cog).map (·.number) = List.range' 1 l.segments.length
  segments : ∀ {l}, ofConfig t c = .ok l → ∀ frames cog,
    (l.extract frames cog).map (·.segment) = l.segments

theorem resolves_of_ofRecords (ht : Tree.ofRecords records = .ok t) (c : Config α) :
    Resolves t c := by
  have hw := Tree.wellFormed_of_ofRecords ht
  have hfollows {l} (h : ofConfig t c = .ok l) : Follows t c l := (ofConfig_eq_ok_iff hw).mp h
  exact
    { counts := ⟨_, counts_numbered t _, fun _ => counts_iff.mp⟩
      accepted := fun _ => ofConfig_eq_ok_iff hw
      refused := fun _ => ofConfig_eq_error_iff hw
      counted := fun h hall => (hfollows h).chosen.eq_take hw hall
      nodup := fun h => (hfollows h).chosen.named.nodup
      numbers := fun h => map_number_extract (hfollows h).length
      segments := fun h => map_segment_extract (hfollows h).length }

end

/-! ## Motors whose numbers run on -/

def motor (name : String) (axis : Float) : SegmentRecord Float where
  name
  parent := some "fc"
  offset := Frame.identity
  joint := ⟨name ++ "_joint", .rotor ⟨0, 0, axis⟩⟩
  inertia := 0

/-- The motors `11` and `12` of the link `m`, which has no motor `3` and so stops before them, are
the motors `1` and `2` of the link `m1`. -/
def motors : List (SegmentRecord Float) :=
  [{ name := "fc", parent := none, offset := Frame.identity, joint := ⟨"fc_root", .floating⟩,
     inertia := Inertia.pointMass 1 0 },
    motor "m12" (-1), motor "m11" 1, motor "m2" 1, motor "m1" (-1)]

def motorConfig (link : String) : Config Float := { Config.standard with thrustLink := link }

theorem resolves_motors : ∃ t, Tree.ofRecords motors = .ok t ∧ Resolves t (motorConfig "m1") := by
  have h : (Tree.ofRecords motors).isOk = true := by
    decide +kernel
  generalize ht : Tree.ofRecords motors = out at h
  cases out with
  | error e => cases h
  | ok t => exact ⟨t, rfl, resolves_of_ofRecords ht _⟩

example : (Tree.ofRecords motors >>= fun t => (ofConfig t (motorConfig "m1")).map fun l =>
    l.segments.map Fin.val).toOption = some [2, 1] := by
  decide +kernel

example : (Tree.ofRecords motors >>= fun t => (ofConfig t (motorConfig "m")).map fun l =>
    l.segments.map Fin.val).toOption = some [4, 3] := by
  decide +kernel

end RotorLayout

end Multirotor
