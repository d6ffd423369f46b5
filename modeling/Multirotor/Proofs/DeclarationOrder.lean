import Multirotor.Proofs.JointPath
import Multirotor.Proofs.LeafGroups
import Multirotor.Proofs.NamedCoordinates

/-!
# Order of declaration

Segments that are declared in another order have other numbers, and so may
their coordinates. Whoever asks by name does not notice: joints with names of
their own are set alike, frames and joint paths are the same, and the groups
have the same bases (`ofRecords_perm`). The numbers are carried along by a map
that keeps the record of every segment (`Renumbers`).
-/

namespace Multirotor

variable {α : Type}

/-! ## Angles by name -/

namespace Tree

variable {t : Tree α} {c : Nat} {i : Fin t.size}

theorem getElem?_jointNames (h : t.joints[c]? = some i) :
    t.jointNames[c]? = some (t.segment i).joint.name := by
  simp [jointNames, h]

end Tree

namespace Coordinates

/-- The angle that a name leads to. -/
def named? (t : Tree α) (q : Coordinates α) (name : String) : Option α :=
  (t.coordinate? name).bind (q.values[·]?)

/-- Each fits its tree, and both give every name one angle. -/
structure Agree (t t' : Tree α) (q q' : Coordinates α) : Prop where
  length : q.values.length = t.jointCount
  length' : q'.values.length = t'.jointCount
  named : ∀ name, q.named? t name = q'.named? t' name

section
variable {t t' : Tree α} {q q' : Coordinates α} {name other : String} {v : α} {c c' : Nat}

theorem named?_set (hc : t.coordinate? name = some c) (hlt : c < q.values.length) :
    named? t ⟨q.values.set c v⟩ other = if other = name then some v else named? t q other := by
  unfold named?
  by_cases ho : other = name
  · subst ho
    simp [hc, hlt]
  · rw [if_neg ho]
    cases hd : t.coordinate? other with
    | none => rfl
    | some d =>
      -- Two names never lead to one coordinate.
      have hne : c ≠ d := by
        rintro rfl
        have hname := (Tree.coordinate?_eq_some_iff.mp hc).1
        rw [(Tree.coordinate?_eq_some_iff.mp hd).1] at hname
        exact ho (Option.some.inj hname)
      exact List.getElem?_set_ne hne

theorem Agree.set (h : Agree t t' q q') (hc : t.coordinate? name = some c)
    (hc' : t'.coordinate? name = some c') (v : α) :
    Agree t t' ⟨q.values.set c v⟩ ⟨q'.values.set c' v⟩ := by
  have hlt : c < q.values.length := h.length.symm ▸ Tree.coordinate?_lt hc
  have hlt' : c' < q'.values.length := h.length'.symm ▸ Tree.coordinate?_lt hc'
  refine ⟨?_, ?_, fun other => ?_⟩
  · simpa using h.length
  · simpa using h.length'
  · rw [named?_set hc hlt, named?_set hc' hlt', h.named]

variable [Scalar α] (hnames : t.jointNames.Perm t'.jointNames)
include hnames

theorem agree_zeros : Agree t t' (zeros t) (zeros t') := by
  have hzero : ∀ (t : Tree α) (name : String),
      (zeros t).named? t name = if name ∈ t.jointNames then some 0 else none := by
    intro t name
    unfold named?
    cases hc : t.coordinate? name with
    | none => rw [if_neg (Tree.coordinate?_eq_none_iff.mp hc)]; rfl
    | some c =>
      have hm : name ∈ t.jointNames := Tree.mem_jointNames hc
      simp [hm, zeros, Tree.coordinate?_lt hc]
  refine ⟨List.length_replicate, List.length_replicate, fun name => ?_⟩
  simp only [hzero, hnames.mem_iff]

/-- A batch that is taken is taken by both, and both leave over the same names. -/
theorem Agree.apply (batch : List (String × α)) (h : Agree t t' q q') :
    SameOutcome (fun x x' => Agree t t' x.1 x'.1 ∧ x.2 = x'.2)
      (q.apply t batch) (q'.apply t' batch) := by
  induction batch generalizing q q' with
  | nil => exact .ok ⟨h, rfl⟩
  | cons pair batch ih =>
    obtain ⟨name, v⟩ := pair
    cases hc : t.coordinate? name with
    | none =>
      have hc' : t'.coordinate? name = none := by
        rwa [Tree.coordinate?_eq_none_iff, ← hnames.mem_iff, ← Tree.coordinate?_eq_none_iff]
      simp only [Coordinates.apply, hc, hc']
      refine (ih h).bind fun x x' hx => ?_
      exact .ok ⟨hx.1, congrArg (name :: ·) hx.2⟩
    | some c =>
      have hm : name ∈ t'.jointNames :=
        hnames.mem_iff.mp (Tree.mem_jointNames hc)
      obtain ⟨c', hc'⟩ := Option.ne_none_iff_exists'.mp (Tree.coordinate?_ne_none hm)
      simp only [Coordinates.apply, hc, hc']
      by_cases hv : Scalar.isFinite v = true
      · rw [if_pos hv, if_pos hv]
        exact ih (h.set hc hc' v)
      · rw [if_neg hv, if_neg hv]
        exact .error _

end

end Coordinates

namespace Tree

/-! ## Other numbers -/

/-- The segments of `t` are those of `t'`, numbered by `e`. -/
structure Renumbers (t t' : Tree α) (e : Fin t.size → Fin t'.size) : Prop where
  onto : Function.Surjective e
  record : ∀ i, t'.record (e i) = t.record i

section
variable {t t' : Tree α} {e : Fin t.size → Fin t'.size} (h : t.Renumbers t' e)
include h

theorem Renumbers.name (i : Fin t.size) : (t'.segment (e i)).name = (t.segment i).name :=
  congrArg SegmentRecord.name (h.record i)

theorem Renumbers.offset (i : Fin t.size) : (t'.segment (e i)).offset = (t.segment i).offset :=
  congrArg SegmentRecord.offset (h.record i)

theorem Renumbers.joint (i : Fin t.size) : (t'.segment (e i)).joint = (t.segment i).joint :=
  congrArg SegmentRecord.joint (h.record i)

variable (hw' : t'.WellFormed)
include hw'

theorem Renumbers.parent (i : Fin t.size) :
    (t'.segment (e i)).parent = (t.segment i).parent.map e :=
  hw'.parent_map h.record i

theorem Renumbers.isBase (i : Fin t.size) : t'.isBase (e i) = t.isBase i := by
  unfold Tree.isBase
  rw [h.parent hw', h.joint, Option.isNone_map]

theorem Renumbers.find? (hw : t.WellFormed) (name : String) :
    t'.find? name = (t.find? name).map e :=
  hw.find?_map hw' h.name fun j _ => h.onto j

theorem Renumbers.root (hr : t.Rooted) (hr' : t'.Rooted) : e t.root = t'.root := by
  refine hr'.parent_eq_none_iff.mp ?_
  rw [h.parent hw', hr.parent_root]
  rfl

end

/-! ## Motion -/

section
variable [Scalar α] {t t' : Tree α} {q q' : Coordinates α}

/-- A joint with a name of its own turns by the angle of the name. -/
theorem elim_coordinate? (hw : t.WellFormed) (hr : t.Rooted) (hnd : t.jointNames.Nodup)
    {i : Fin t.size} (hi : (t.segment i).joint.kind.isRevolute = true) :
    (t.segment i).coordinate?.elim 0 q.get = (q.named? t (t.segment i).joint.name).getD 0 := by
  obtain ⟨c, hc⟩ := exists_coordinate hw hr hi
  have hlast := addressable_iff_nodup.mpr hnd c _ (getElem?_jointNames hc)
  rw [coordinate?_eq_some hw hr hc, Coordinates.named?, hlast]
  rfl

variable {e : Fin t.size → Fin t'.size} (h : t.Renumbers t' e) (hw : t.WellFormed)
  (hw' : t'.WellFormed) (hr : t.Rooted) (hr' : t'.Rooted) (hnd : t.jointNames.Nodup)
  (hnd' : t'.jointNames.Nodup) (hq : Coordinates.Agree t t' q q')
include h hw hw' hr hr' hnd hnd' hq

theorem Renumbers.jointMotion (i : Fin t.size) : t'.jointMotion q' (e i) = t.jointMotion q i := by
  have hkind : (t'.segment (e i)).joint.kind = (t.segment i).joint.kind :=
    congrArg Joint.kind (h.joint i)
  cases hk : (t.segment i).joint.kind with
  | revolute axis =>
    have hi : (t.segment i).joint.kind.isRevolute = true := by rw [hk]; rfl
    have hi' : (t'.segment (e i)).joint.kind.isRevolute = true := by rw [hkind, hk]; rfl
    simp only [Tree.jointMotion, hk, elim_coordinate? hw hr hnd hi,
      elim_coordinate? hw' hr' hnd' hi', h.joint, hq.named]
  | fixed | floating | rotor => simp only [Tree.jointMotion, hkind, hk]

theorem Renumbers.place : ∃ frames frames', t.place q = .ok frames ∧ t'.place q' = .ok frames' ∧
    ∀ i, frames'.get (e i) = frames.get i := by
  obtain ⟨frames, hf⟩ : ∃ frames, t.place q = .ok frames := ⟨_, if_pos hq.length⟩
  obtain ⟨frames', hf'⟩ : ∃ frames, t'.place q' = .ok frames := ⟨_, if_pos hq.length'⟩
  refine ⟨frames, frames', hf, hf', fun i => ?_⟩
  obtain ⟨k, hk⟩ := hr.depth i
  exact get_map hw hw' hf hf' (h.parent hw') h.offset
    (h.jointMotion hw hw' hr hr' hnd hnd' hq) hr.parent_root hk

end

/-! ## Paths -/

/-- The joints that move the segment have these names, from the root down. -/
def MovedBy (t : Tree α) (i : Fin t.size) (names : List String) : Prop :=
  (t.segment i).jointPath.map (t.jointNames[·]?) = names.map some

section
variable {t : Tree α} (hw : t.WellFormed) (hr : t.Rooted) {i p : Fin t.size} {names : List String}

/-- The name of a segment's own joint, if it turns. -/
def ownName (t : Tree α) (i : Fin t.size) : List String :=
  if (t.segment i).joint.kind.isRevolute then [(t.segment i).joint.name] else []

include hw hr

theorem map_idxOf?_joints :
    (t.joints.idxOf? i).toList.map (t.jointNames[·]?) = (t.ownName i).map some := by
  unfold ownName
  cases hi : (t.segment i).joint.kind.isRevolute with
  | true =>
    obtain ⟨c, hc⟩ := exists_coordinate hw hr hi
    simp [(idxOf?_joints hw hr).mpr hc, getElem?_jointNames hc]
  | false => simp [idxOf?_joints_of_still hw hr hi]

theorem movedBy_root : t.MovedBy t.root (t.ownName t.root) := by
  unfold MovedBy
  rw [jointPath_root hr, map_idxOf?_joints hw hr]

theorem MovedBy.child (hp : (t.segment i).parent = some p) (h : t.MovedBy p names) :
    t.MovedBy i (names ++ t.ownName i) := by
  unfold MovedBy at h ⊢
  rw [jointPath_child hr hp, List.map_append, h, map_idxOf?_joints hw hr, List.map_append]

end

theorem Renumbers.movedBy {t t' : Tree α} {e : Fin t.size → Fin t'.size} (h : t.Renumbers t' e)
    (hw : t.WellFormed) (hw' : t'.WellFormed) (hr : t.Rooted) (hr' : t'.Rooted) (i : Fin t.size) :
    ∃ names, t.MovedBy i names ∧ t'.MovedBy (e i) names := by
  have hown : ∀ i, t'.ownName (e i) = t.ownName i := fun i => by
    unfold ownName
    rw [h.joint]
  obtain ⟨k, hk⟩ := hr.depth i
  induction hk with
  | root =>
    refine ⟨_, movedBy_root hw hr, ?_⟩
    rw [← hown, h.root hw' hr hr']
    exact movedBy_root hw' hr'
  | @child k p i hp _ ih =>
    obtain ⟨names, hn, hn'⟩ := ih
    have hp' : (t'.segment (e i)).parent = some (e p) := by
      rw [h.parent hw', show (t.segment i).parent = some p from hp]
      rfl
    refine ⟨_, hn.child hw hr hp, ?_⟩
    rw [← hown]
    exact hn'.child hw' hr' hp'

/-! ## Bases -/

section
variable [Scalar α] {t : Tree α} {groups : List (InertiaGroup α t.size)} {name : String}

omit [Scalar α] in
theorem isBase_iff (hr : t.Rooted) {i : Fin t.size} : t.isBase i = true ↔
    i = t.root ∨ (t.segment i).joint.kind.isRevolute = true := by
  rw [isBase, Bool.or_eq_true, Option.isNone_iff_eq_none, hr.parent_eq_none_iff]

/-- The root alone has no parent, so one group holds it. -/
theorem groups_isOk (hw : t.WellFormed) (hr : t.Rooted) : ∃ groups, t.groups = .ok groups := by
  have htop : ∀ i, (t.segment i).parent.isNone = (i == t.root) := fun i => by
    rw [Bool.eq_iff_iff, Option.isNone_iff_eq_none, hr.parent_eq_none_iff, beq_iff_eq]
  have hbase : t.isBase t.root = true := (isBase_iff hr).mpr (.inl rfl)
  have hcount : (t.order.foldr t.gather (Vector.replicate t.size 0, [])).2.countP
      (fun g => (t.segment g.base).parent.isNone) = 1 := by
    have hmap := List.countP_map (p := (· == t.root)) (f := InertiaGroup.base)
      (l := (t.order.foldr t.gather (Vector.replicate t.size 0, [])).2)
    rw [map_base_foldr] at hmap
    simp only [htop]
    refine hmap.symm.trans ?_
    refine List.count_eq_one_of_mem (hw.nodup.filter _) ?_
    exact List.mem_filter.mpr ⟨hw.complete _, hbase⟩
  exact ⟨_, if_pos hcount⟩

theorem mem_names_groups (hw : t.WellFormed) (h : t.groups = .ok groups) :
    name ∈ groups.map (·.name) ↔ ∃ i, t.isBase i = true ∧ (t.segment i).name = name := by
  have hnames := congrArg (List.map Prod.snd) (bases_groups h)
  rw [List.map_map, List.map_map] at hnames
  have hnames : groups.map (·.name) = (t.order.filter t.isBase).map fun i => (t.segment i).name :=
    hnames
  rw [hnames]
  simp [hw.complete]

end

/-! ## Records in another order -/

section
variable {records records' : List (SegmentRecord α)} (hp : records.Perm records') {t t' : Tree α}
include hp

theorem Acceptable.perm (h : Acceptable records) : Acceptable records' := by
  obtain ⟨top, htop⟩ := h.top
  refine ⟨?_, ?_, ⟨top, ?_⟩, ?_, ?_⟩
  · intro hnil
    subst hnil
    exact h.nonempty hp.eq_nil
  · exact (hp.map _).nodup_iff.mp h.names
  · have htops : (tops records).Perm (tops records') := hp.filter _
    rw [htop] at htops
    exact (List.singleton_perm.mp htops).symm
  · intro r hr p hparent
    obtain ⟨q, hq, hname⟩ := h.parents r (hp.mem_iff.mpr hr) p hparent
    exact ⟨q, hp.mem_iff.mp hq, hname⟩
  · intro r hr
    exact (h.descends r (hp.mem_iff.mpr hr)).mono fun _ => hp.mem_iff.mp

theorem exists_renumbers (h : ofRecords records = .ok t) (h' : ofRecords records' = .ok t') :
    ∃ e, t.Renumbers t' e := by
  have ha := arranges_of_ofRecords h
  have ha' := arranges_of_ofRecords h'
  have hw' := wellFormed_of_ofRecords h'
  have hfound : ∀ i, ∃ j, t'.record j = t.record i := fun i =>
    ha'.mem_iff.mp (hp.mem_iff.mp (ha.mem_iff.mpr ⟨i, rfl⟩))
  choose e he using hfound
  refine ⟨e, fun j => ?_, he⟩
  obtain ⟨i, hi⟩ := ha.mem_iff.mp (hp.mem_iff.mpr (ha'.mem_iff.mpr ⟨j, rfl⟩))
  exact ⟨i, hw'.name_injective (congrArg SegmentRecord.name ((he i).trans hi))⟩

theorem jointNames_perm_of_perm (h : ofRecords records = .ok t) (h' : ofRecords records' = .ok t') :
    t.jointNames.Perm t'.jointNames :=
  (jointNames_perm h).trans (((hp.filter _).map _).trans (jointNames_perm h').symm)

end

theorem nodup_jointNames {records : List (SegmentRecord α)} {t : Tree α}
    (hnames : (records.map (·.joint.name)).Nodup) (h : ofRecords records = .ok t) :
    t.jointNames.Nodup :=
  (jointNames_perm h).nodup_iff.mpr (hnames.sublist (List.filter_sublist.map _))

/-! ## Trees by name -/

section
variable [Scalar α]

/-- The frames by name once a batch of angles is set from zero, and the names that it leaves over. -/
def posed (t : Tree α) (batch : List (String × α)) :
    Except (ModelError α) ((String → Option (Frame α)) × List String) := do
  let (q, unknown) ← (Coordinates.zeros t).apply t batch
  let frames ← t.place q
  pure (fun name => (t.find? name).map frames.get, unknown)

/-- By their names, the segments of both are the same and do the same. -/
structure SameByName (t t' : Tree α) : Prop where
  names : ∀ name, (t.find? name).isSome = (t'.find? name).isSome
  posed : ∀ batch, t.posed batch = t'.posed batch
  paths : ∀ name i i', t.find? name = some i → t'.find? name = some i' →
    ∃ names, t.MovedBy i names ∧ t'.MovedBy i' names
  bases : ∃ groups groups', t.groups = .ok groups ∧ t'.groups = .ok groups' ∧
    ∀ name, name ∈ groups.map (·.name) ↔ name ∈ groups'.map (·.name)

theorem Renumbers.sameByName {t t' : Tree α} {e : Fin t.size → Fin t'.size} (h : t.Renumbers t' e)
    (hw : t.WellFormed) (hw' : t'.WellFormed) (hr : t.Rooted) (hr' : t'.Rooted)
    (hperm : t.jointNames.Perm t'.jointNames) (hnd : t.jointNames.Nodup) : t.SameByName t' := by
  have hnd' := hperm.nodup_iff.mp hnd
  refine ⟨fun name => ?_, fun batch => ?_, fun name i i' hi hi' => ?_, ?_⟩
  · rw [h.find? hw' hw, Option.isSome_map]
  · have hbatch := Coordinates.Agree.apply hperm batch (Coordinates.agree_zeros hperm)
    unfold posed
    generalize (Coordinates.zeros t).apply t batch = x at hbatch ⊢
    generalize (Coordinates.zeros t').apply t' batch = x' at hbatch ⊢
    cases hbatch with
    | error e => rfl
    | @ok x x' hx =>
      obtain ⟨q, unknown⟩ := x
      obtain ⟨q', unknown'⟩ := x'
      obtain ⟨hq, hunknown⟩ := hx
      obtain rfl : unknown = unknown' := hunknown
      obtain ⟨frames, frames', hf, hf', hget⟩ := h.place hw hw' hr hr' hnd hnd' hq
      have hsame : (fun name => (t.find? name).map frames.get) =
          fun name => (t'.find? name).map frames'.get := by
        funext name
        rw [h.find? hw' hw, Option.map_map]
        exact congrArg (Option.map · _) (funext fun i => (hget i).symm)
      simp only [bind, Except.bind, hf, hf', hsame]
  · rw [h.find? hw' hw, hi] at hi'
    cases hi'
    exact h.movedBy hw hw' hr hr' i
  · obtain ⟨groups, hg⟩ := groups_isOk hw hr
    obtain ⟨groups', hg'⟩ := groups_isOk hw' hr'
    refine ⟨groups, groups', hg, hg', fun name => ?_⟩
    rw [mem_names_groups hw hg, mem_names_groups hw' hg', h.onto.exists]
    simp only [h.isBase hw', h.name]

theorem ofRecords_perm {records records' : List (SegmentRecord α)} (hp : records.Perm records')
    (hnames : (records.map (·.joint.name)).Nodup) :
    ((∃ t, ofRecords records = .ok t) ↔ ∃ t, ofRecords records' = .ok t) ∧
      ∀ t t', ofRecords records = .ok t → ofRecords records' = .ok t' → t.SameByName t' := by
  constructor
  · rw [exists_ofRecords_iff, exists_ofRecords_iff]
    exact ⟨fun h => h.perm hp, fun h => h.perm hp.symm⟩
  · intro t t' h h'
    obtain ⟨e, he⟩ := exists_renumbers hp h h'
    exact he.sameByName (wellFormed_of_ofRecords h) (wellFormed_of_ofRecords h')
      (rooted_of_ofRecords h) (rooted_of_ofRecords h') (jointNames_perm_of_perm hp h h')
      (nodup_jointNames hnames h)

end

/-! ## Two hinges on a base, declared the other way round -/

noncomputable def hingedBack (left right : String) : List (SegmentRecord ℝ) :=
  [⟨"base", none, .identity, ⟨"base_joint", .floating⟩, .pointMass 1 0⟩,
    hinge "right" right, hinge "left" left]

/-- The hinges change places, and with them their coordinates. -/
theorem ofRecords_perm_hinged : ∃ t t', ofRecords (hinged "port" "starboard") = .ok t ∧
    ofRecords (hingedBack "port" "starboard") = .ok t' ∧
      (hinged "port" "starboard").Perm (hingedBack "port" "starboard") ∧
        ((hinged "port" "starboard").map (·.joint.name)).Nodup ∧
          t.jointNames = ["port", "starboard"] ∧ t'.jointNames = ["starboard", "port"] ∧
            t.SameByName t' := by
  have hp : (hinged "port" "starboard").Perm (hingedBack "port" "starboard") :=
    .cons _ (.swap _ _ _)
  have hnames : ((hinged "port" "starboard").map (·.joint.name)).Nodup := by
    decide
  obtain ⟨t, h, hjoints⟩ : ∃ t, ofRecords (hinged "port" "starboard") = .ok t ∧
      t.jointNames = ["port", "starboard"] := ⟨_, rfl, rfl⟩
  obtain ⟨t', h', hjoints'⟩ : ∃ t, ofRecords (hingedBack "port" "starboard") = .ok t ∧
      t.jointNames = ["starboard", "port"] := ⟨_, rfl, rfl⟩
  exact ⟨t, t', h, h', hp, hnames, hjoints, hjoints', (ofRecords_perm hp hnames).2 t t' h h'⟩

end Tree

end Multirotor
