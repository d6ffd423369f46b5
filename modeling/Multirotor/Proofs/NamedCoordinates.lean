import Multirotor.Coordinates
import Multirotor.Proofs.Exact.Scalar
import Multirotor.Proofs.Tree

/-!
# Named coordinates

Coordinates that are written out by name and set again by name come back
unchanged if and only if no two revolute joints have one name
(`roundTrips_iff_nodup`). A name that joints share leads to the last of them,
so the values of the others are lost.
-/

namespace Multirotor

/-! ## The last place of a name -/

section
variable {names : List String} {name : String} {c : Nat}

def lastPlace? (names : List String) (name : String) : Option Nat :=
  names.zipIdx.foldl (fun found (n, c) => if n == name then some c else found) none

theorem lastPlace?_concat (a : String) : lastPlace? (names ++ [a]) name =
    if a = name then some names.length else lastPlace? names name := by
  unfold lastPlace?
  simp [List.zipIdx_append]

theorem lastPlace?_eq_some_iff : lastPlace? names name = some c ↔
    names[c]? = some name ∧ ∀ d, c < d → names[d]? ≠ some name := by
  induction names using List.reverseRecOn with
  | nil => simp [lastPlace?]
  | append_singleton names a ih =>
    rw [lastPlace?_concat]
    by_cases ha : a = name
    · -- The place after all of `names` holds the name, and none beyond it does.
      rw [if_pos ha]
      grind
    · rw [if_neg ha]
      grind

theorem lastPlace?_ne_none (h : name ∈ names) : lastPlace? names name ≠ none := by
  induction names using List.reverseRecOn with
  | nil => cases h
  | append_singleton names a ih =>
    rw [lastPlace?_concat]
    by_cases ha : a = name
    · simp [ha]
    · rw [if_neg ha]
      rcases List.mem_append.mp h with h | h
      · exact ih h
      · exact absurd (List.mem_singleton.mp h).symm ha

/-- Every place is the last of its name exactly if no name stands twice. -/
theorem forall_lastPlace?_iff_nodup :
    (∀ c name, names[c]? = some name → lastPlace? names name = some c) ↔ names.Nodup := by
  constructor
  · intro h
    refine List.nodup_iff_injective_get.mpr fun c d he => Fin.ext ?_
    have hc := h c _ (List.getElem?_eq_getElem c.isLt)
    have hd := h d _ (List.getElem?_eq_getElem d.isLt)
    rw [← List.get_eq_getElem, he] at hc
    exact Option.some.inj (hc.symm.trans hd)
  · intro hnd c name hc
    obtain ⟨hlt, rfl⟩ := List.getElem?_eq_some_iff.mp hc
    refine lastPlace?_eq_some_iff.mpr ⟨hc, fun d hcd hd => ?_⟩
    obtain ⟨hdlt, hdc⟩ := List.getElem?_eq_some_iff.mp hd
    exact absurd (hnd.getElem_inj_iff.mp hdc) hcd.ne'

end

namespace Tree

section
variable {α : Type} {t : Tree α} {name : String} {c : Nat}

theorem coordinate?_eq_some_iff : t.coordinate? name = some c ↔
    t.jointNames[c]? = some name ∧ ∀ d, c < d → t.jointNames[d]? ≠ some name :=
  lastPlace?_eq_some_iff

theorem coordinate?_ne_none (h : name ∈ t.jointNames) : t.coordinate? name ≠ none :=
  lastPlace?_ne_none h

theorem mem_jointNames (h : t.coordinate? name = some c) : name ∈ t.jointNames :=
  List.mem_of_getElem? (coordinate?_eq_some_iff.mp h).1

theorem coordinate?_eq_none_iff : t.coordinate? name = none ↔ name ∉ t.jointNames := by
  constructor
  · intro h hm
    exact coordinate?_ne_none hm h
  · intro h
    cases hc : t.coordinate? name with
    | none => rfl
    | some c => exact absurd (mem_jointNames hc) h

@[simp] theorem length_jointNames : t.jointNames.length = t.jointCount :=
  List.length_map _

theorem lt_jointCount (h : t.jointNames[c]? = some name) : c < t.jointCount := by
  rw [← length_jointNames]
  exact (List.getElem?_eq_some_iff.mp h).1

theorem coordinate?_lt (h : t.coordinate? name = some c) : c < t.jointCount :=
  lt_jointCount (coordinate?_eq_some_iff.mp h).1

end

end Tree

/-! ## Batches of values -/

namespace Coordinates

section
variable {α : Type} (t : Tree α)

def write (values : List α) (pair : String × α) : List α :=
  match t.coordinate? pair.1 with
  | some c => values.set c pair.2
  | none => values

def unresolved (pairs : List (String × α)) : List String :=
  (pairs.filter fun pair => (t.coordinate? pair.1).isNone).map (·.1)

variable {t} {pairs after : List (String × α)} {values : List α} {name : String} {v : α} {c : Nat}

@[simp] theorem length_write (pair : String × α) : (write t values pair).length = values.length := by
  unfold write
  cases t.coordinate? pair.1 with
  | none => rfl
  | some c => exact List.length_set

@[simp] theorem length_foldl_write : (pairs.foldl (write t) values).length = values.length := by
  induction pairs generalizing values with
  | nil => rfl
  | cons pair pairs ih => rw [List.foldl_cons, ih, length_write]

theorem getElem?_write_of_ne {pair : String × α} (h : t.coordinate? pair.1 ≠ some c) :
    (write t values pair)[c]? = values[c]? := by
  unfold write
  cases hd : t.coordinate? pair.1 with
  | none => rfl
  | some d =>
    refine List.getElem?_set_ne fun he => h ?_
    rw [hd, he]

theorem getElem?_foldl_write_of_forall_ne (h : ∀ pair ∈ pairs, t.coordinate? pair.1 ≠ some c) :
    (pairs.foldl (write t) values)[c]? = values[c]? := by
  induction pairs generalizing values with
  | nil => rfl
  | cons pair pairs ih =>
    rw [List.foldl_cons, ih fun p hp => h p (List.mem_cons_of_mem _ hp),
      getElem?_write_of_ne (h pair List.mem_cons_self)]

/-- The last value for a coordinate is the one it keeps. -/
theorem getElem?_foldl_write_of_last (hc : t.coordinate? name = some c) (hlt : c < values.length)
    (hlast : ∀ pair ∈ after, t.coordinate? pair.1 ≠ some c) :
    ((pairs ++ (name, v) :: after).foldl (write t) values)[c]? = some v := by
  have hwrite : ∀ values, write t values (name, v) = values.set c v := fun values => by
    simp [write, hc]
  rw [List.foldl_append, List.foldl_cons, getElem?_foldl_write_of_forall_ne hlast, hwrite]
  exact List.getElem?_set_self (by simpa using hlt)

/-- The pair is for a joint of the tree, and its value is not finite. -/
def Unusable [Scalar α] (t : Tree α) (pair : String × α) : Prop :=
  pair.1 ∈ t.jointNames ∧ Scalar.isFinite pair.2 = false

theorem apply_eq_ok [Scalar α] {q : Coordinates α} (h : ∀ pair ∈ pairs, ¬Unusable t pair) :
    q.apply t pairs = .ok (⟨pairs.foldl (write t) q.values⟩, unresolved t pairs) := by
  induction pairs generalizing q with
  | nil => rfl
  | cons pair pairs ih =>
    have ih := fun q : Coordinates α => ih (q := q) fun p hp => h p (List.mem_cons_of_mem _ hp)
    have hpair := h pair List.mem_cons_self
    unfold apply
    cases hc : t.coordinate? pair.1 with
    | none => simp [hc, ih, write, unresolved, bind, Except.bind]
    | some c =>
      have hv : Scalar.isFinite pair.2 = true :=
        Bool.of_not_eq_false fun hv => hpair ⟨Tree.mem_jointNames hc, hv⟩
      simp [hc, ih, hv, write, unresolved]

end

end Coordinates

/-! ## Writing out and setting again -/

namespace Tree

variable {α : Type} {t : Tree α} {q : Coordinates α} {values : List α} {name : String} {c : Nat}

theorem unresolved_toNamed : Coordinates.unresolved t (q.toNamed t) = [] := by
  unfold Coordinates.unresolved
  rw [List.map_eq_nil_iff, List.filter_eq_nil_iff]
  intro pair hp hnone
  exact coordinate?_ne_none (List.of_mem_zip hp).1 (Option.isNone_iff_eq_none.mp hnone)

theorem jointNames_of_toNamed {pair : String × α} (h : (q.toNamed t)[c]? = some pair) :
    t.jointNames[c]? = some pair.1 :=
  (List.getElem?_zip_eq_some.mp h).1

/-- Setting the written values leaves each name's value at the last joint of the name. -/
theorem getElem?_foldl_write_toNamed (hname : t.jointNames[c]? = some name)
    (hq : q.values.length = t.jointCount) (hlen : values.length = t.jointCount) :
    ((q.toNamed t).foldl (Coordinates.write t) values)[c]? =
      if t.coordinate? name = some c then q.values[c]? else values[c]? := by
  by_cases hc : t.coordinate? name = some c
  · have hlt := lt_jointCount hname
    have hvalue := List.getElem?_eq_getElem (hq.symm ▸ hlt : c < q.values.length)
    have hpair : (q.toNamed t)[c]? = some (name, q.values[c]) :=
      List.getElem?_zip_eq_some.mpr ⟨hname, hvalue⟩
    obtain ⟨hltp, hgetp⟩ := List.getElem?_eq_some_iff.mp hpair
    have hsplit : q.toNamed t =
        (q.toNamed t).take c ++ (name, q.values[c]) :: (q.toNamed t).drop (c + 1) := by
      rw [← hgetp, List.getElem_cons_drop, List.take_append_drop]
    rw [if_pos hc, hvalue, hsplit]
    refine Coordinates.getElem?_foldl_write_of_last hc (hlen.symm ▸ hlt) fun pair hp hd => ?_
    obtain ⟨k, hk⟩ := List.mem_iff_getElem?.mp hp
    rw [List.getElem?_drop] at hk
    exact (coordinate?_eq_some_iff.mp hd).2 _ (by omega) (jointNames_of_toNamed hk)
  · rw [if_neg hc]
    refine Coordinates.getElem?_foldl_write_of_forall_ne fun pair _ hd => hc ?_
    have hsame := (coordinate?_eq_some_iff.mp hd).1
    rw [hname] at hsame
    rw [Option.some.inj hsame, hd]

/-- Every coordinate is led to by the name of its joint. -/
def Addressable (t : Tree α) : Prop :=
  ∀ c name, t.jointNames[c]? = some name → t.coordinate? name = some c

theorem addressable_iff_nodup : t.Addressable ↔ t.jointNames.Nodup :=
  forall_lastPlace?_iff_nodup

section
variable [Scalar α]

/-- Coordinates that are written out by name and set again from zero come back. -/
def RoundTrips (t : Tree α) : Prop :=
  ∀ q : Coordinates α, q.values.length = t.jointCount →
    (∀ v ∈ q.values, Scalar.isFinite v = true) →
      (Coordinates.zeros t).apply t (q.toNamed t) = .ok (q, [])

theorem exists_apply_toNamed (hq : q.values.length = t.jointCount)
    (hfinite : ∀ v ∈ q.values, Scalar.isFinite v = true) :
    ∃ q', (Coordinates.zeros t).apply t (q.toNamed t) = .ok (q', []) ∧
      q'.values.length = t.jointCount ∧
      ∀ c name, t.jointNames[c]? = some name →
        q'.get c = if t.coordinate? name = some c then q.get c else 0 := by
  have hlen : (Coordinates.zeros t).values.length = t.jointCount := List.length_replicate
  have hpairs : ∀ pair ∈ q.toNamed t, ¬Coordinates.Unusable t pair := fun _ hp hun =>
    Bool.false_ne_true (hun.2.symm.trans (hfinite _ (List.of_mem_zip hp).2))
  refine ⟨⟨(q.toNamed t).foldl (Coordinates.write t) (Coordinates.zeros t).values⟩, ?_,
    by simpa using hlen, fun c name hname => ?_⟩
  · rw [Coordinates.apply_eq_ok hpairs, unresolved_toNamed]
  · simp only [Coordinates.get, getElem?_foldl_write_toNamed hname hq hlen]
    split
    · rfl
    · simp [Coordinates.zeros, lt_jointCount hname]

theorem roundTrips_of_addressable (h : t.Addressable) : t.RoundTrips := by
  intro q hq hfinite
  obtain ⟨⟨values⟩, happly, hlen, hget⟩ := exists_apply_toNamed hq hfinite
  rw [happly]
  suffices values = q.values by rw [this]
  refine List.ext_getElem (hlen.trans hq.symm) fun c hc hcq => ?_
  have hname := List.getElem?_eq_getElem (show c < t.jointNames.length by simp; omega)
  have hvalue := hget c _ hname
  rw [if_pos (h c _ hname)] at hvalue
  simpa [Coordinates.get, hc, hcq] using hvalue

theorem addressable_of_roundTrips {v : α} (hv : Scalar.isFinite v = true) (hne : v ≠ 0)
    (h : t.RoundTrips) : t.Addressable := by
  intro c name hname
  by_contra hc
  -- A coordinate that its name does not lead to stays zero.
  have hq : (List.replicate t.jointCount v).length = t.jointCount := List.length_replicate
  have hfinite : ∀ x ∈ List.replicate t.jointCount v, Scalar.isFinite x = true := fun x hx =>
    List.eq_of_mem_replicate hx ▸ hv
  obtain ⟨q', happly, -, hget⟩ := exists_apply_toNamed (q := ⟨_⟩) hq hfinite
  obtain rfl : q' = ⟨List.replicate t.jointCount v⟩ :=
    congrArg Prod.fst (Except.ok.inj (happly.symm.trans (h ⟨_⟩ hq hfinite)))
  have hzero := hget c name hname
  rw [if_neg hc] at hzero
  exact hne (by simpa [Coordinates.get, lt_jointCount hname] using hzero)

end

/-! ## Records with revolute joints -/

variable {records : List (SegmentRecord α)}

def revoluteNames (records : List (SegmentRecord α)) : List String :=
  (records.filter (·.joint.kind.isRevolute)).map (·.joint.name)

theorem jointNames_perm (h : ofRecords records = .ok t) :
    t.jointNames.Perm (revoluteNames records) := by
  obtain ⟨parent, root, -, hroot, hnames, hlen, rfl⟩ := below_of_ofRecords h
  have hw := wellFormed_below hroot hnames hlen
  have hperm : (below records parent root).order.Perm (List.finRange records.length) :=
    (List.perm_ext_iff_of_nodup hw.nodup (List.nodup_finRange _)).mpr fun i =>
      ⟨fun _ => List.mem_finRange i, fun _ => hw.complete i⟩
  have hjoints : (below records parent root).joints =
      (below records parent root).order.filter fun i : Fin records.length =>
        (records.get i).joint.kind.isRevolute :=
    (numbered_below hroot).joints.trans
      (List.filter_congr fun i _ => congrArg (·.kind.isRevolute) (joint_below i))
  have hnames : (below records parent root).jointNames =
      (below records parent root).joints.map fun i : Fin records.length =>
        (records.get i).joint.name :=
    List.map_congr_left fun i _ => congrArg Joint.name (joint_below i)
  rw [hnames, hjoints, revoluteNames]
  refine ((hperm.filter _).map _).trans (.of_eq ?_)
  calc ((List.finRange records.length).filter fun i =>
        (records.get i).joint.kind.isRevolute).map (fun i => (records.get i).joint.name)
      = (((List.finRange records.length).map records.get).filter
          (·.joint.kind.isRevolute)).map (·.joint.name) := by
        rw [List.filter_map, List.map_map]
        rfl
    _ = (records.filter (·.joint.kind.isRevolute)).map (·.joint.name) := by
        rw [List.map_get_finRange]

theorem roundTrips_iff_nodup [Scalar α] {v : α} (hv : Scalar.isFinite v = true) (hne : v ≠ 0)
    (h : ofRecords records = .ok t) :
    (t.RoundTrips ↔ (revoluteNames records).Nodup) ∧
      (t.Addressable ↔ (revoluteNames records).Nodup) ∧
      ∀ q : Coordinates α, q.values.length = t.jointCount →
        (∀ v ∈ q.values, Scalar.isFinite v = true) →
        ∃ q', (Coordinates.zeros t).apply t (q.toNamed t) = .ok (q', []) ∧
          q'.values.length = t.jointCount ∧
          ∀ c name, t.jointNames[c]? = some name →
            q'.get c = if t.coordinate? name = some c then q.get c else 0 := by
  have haddress : t.Addressable ↔ (revoluteNames records).Nodup :=
    addressable_iff_nodup.trans (jointNames_perm h).nodup_iff
  have htrips : t.RoundTrips ↔ t.Addressable :=
    ⟨addressable_of_roundTrips hv hne, roundTrips_of_addressable⟩
  exact ⟨htrips.trans haddress, haddress, fun q hq hfinite => exists_apply_toNamed hq hfinite⟩

/-! ## Two hinges on a base -/

noncomputable def hinge (name joint : String) : SegmentRecord ℝ :=
  ⟨name, some "base", .identity, ⟨joint, .revolute Vec3.unitZ⟩, .pointMass 1 0⟩

noncomputable def hinged (left right : String) : List (SegmentRecord ℝ) :=
  [⟨"base", none, .identity, ⟨"base_joint", .floating⟩, .pointMass 1 0⟩,
    hinge "left" left, hinge "right" right]

theorem roundTrips_iff_nodup_hinged : ∃ t, ofRecords (hinged "port" "starboard") = .ok t ∧
    (revoluteNames (hinged "port" "starboard")).Nodup ∧ t.RoundTrips ∧ t.Addressable := by
  obtain ⟨t, hok⟩ : ∃ t, ofRecords (hinged "port" "starboard") = .ok t := ⟨_, rfl⟩
  have hnd : (revoluteNames (hinged "port" "starboard")).Nodup := by
    decide
  obtain ⟨htrips, haddress, -⟩ := roundTrips_iff_nodup (v := 1) rfl one_ne_zero hok
  exact ⟨t, hok, hnd, htrips.mpr hnd, haddress.mpr hnd⟩

/-- Both hinges have one name, which leads to the second. -/
theorem not_roundTrips_of_shared_name : ∃ t, ofRecords (hinged "hinge" "hinge") = .ok t ∧
    t.jointNames = ["hinge", "hinge"] ∧ t.coordinate? "hinge" = some 1 ∧
    (Coordinates.zeros t).apply t ((⟨[1, 2]⟩ : Coordinates ℝ).toNamed t) = .ok (⟨[0, 2]⟩, []) ∧
    ¬t.RoundTrips ∧ ¬t.Addressable := by
  obtain ⟨t, hok, hnames⟩ : ∃ t, ofRecords (hinged "hinge" "hinge") = .ok t ∧
      t.jointNames = ["hinge", "hinge"] := ⟨_, rfl, rfl⟩
  have hlast : t.coordinate? "hinge" = some 1 := by
    have hplace : lastPlace? ["hinge", "hinge"] "hinge" = some 1 := by
      decide
    rwa [← hnames] at hplace
  have hzeros : Coordinates.zeros t = ⟨[0, 0]⟩ := by
    rw [Coordinates.zeros, ← length_jointNames, hnames]
    rfl
  have happly : (Coordinates.zeros t).apply t ((⟨[1, 2]⟩ : Coordinates ℝ).toNamed t) =
      .ok (⟨[0, 2]⟩, []) := by
    rw [hzeros, Coordinates.toNamed, hnames]
    simp [Coordinates.apply, hlast]
  refine ⟨t, hok, hnames, hlast, happly, fun htrips => ?_, fun haddress => ?_⟩
  · have hsame := htrips ⟨[1, 2]⟩ (by rw [← length_jointNames, hnames]; rfl) fun _ _ => rfl
    rw [happly] at hsame
    simp at hsame
  · have hfirst := haddress 0 "hinge" (by rw [hnames]; rfl)
    rw [hlast] at hfirst
    simp at hfirst

end Tree

end Multirotor
