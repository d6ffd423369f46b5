import Multirotor.Proofs.Exact.Scalar
import Multirotor.Proofs.Tree

/-!
# Accepted records

Records make a tree exactly if there are some, their names differ, one of them
has no parent, all parents are declared and every record descends from the one
without. Otherwise the first of these conditions that fails is the error. An
accepted tree keeps every record in its place and orders the segments breadth
first (`ofRecords_outcome`).
-/

namespace Multirotor

namespace Tree

variable {α : Type}

/-! ## Repeated names -/

section
variable {seen names : List String} {name : String}

/-- The name is the first that stands a second time. -/
def Repeats (names : List String) (name : String) : Prop :=
  ∃ before after, names = before ++ name :: after ∧ before.Nodup ∧ name ∈ before

theorem repeated?_eq_some_iff : repeated? seen names = some name ↔
    ∃ before after, names = before ++ name :: after ∧
      (before.Nodup ∧ ∀ x ∈ before, x ∉ seen) ∧ (name ∈ before ∨ name ∈ seen) := by
  induction names generalizing seen with
  | nil => simp [repeated?]
  | cons a names ih =>
    rw [repeated?]
    by_cases ha : a ∈ seen
    · rw [if_pos (List.contains_iff_mem.mpr ha), Option.some.injEq]
      constructor
      · rintro rfl
        exact ⟨[], names, rfl, ⟨List.nodup_nil, by simp⟩, .inr ha⟩
      · rintro ⟨before, after, he, ⟨-, hfresh⟩, -⟩
        cases before with
        | nil => exact (List.cons.inj he).1
        | cons b before =>
          obtain ⟨rfl, -⟩ := List.cons.inj he
          exact absurd ha (hfresh a List.mem_cons_self)
    · rw [if_neg (by simpa using ha), ih]
      constructor
      · rintro ⟨before, after, rfl, ⟨hnd, hfresh⟩, hagain⟩
        refine ⟨a :: before, after, rfl, ⟨List.nodup_cons.mpr ⟨?_, hnd⟩, ?_⟩, ?_⟩
        · intro hm
          exact hfresh a hm List.mem_cons_self
        · intro x hx
          rcases List.mem_cons.mp hx with rfl | hx
          · exact ha
          · exact fun hs => hfresh x hx (List.mem_cons_of_mem a hs)
        · simpa [or_assoc, or_left_comm] using hagain
      · rintro ⟨before, after, he, ⟨hnd, hfresh⟩, hagain⟩
        cases before with
        | nil =>
          obtain ⟨rfl, -⟩ := List.cons.inj he
          rcases hagain with hm | hm
          · cases hm
          · exact absurd hm ha
        | cons b before =>
          obtain ⟨rfl, rfl⟩ := List.cons.inj he
          obtain ⟨hnot, hnd⟩ := List.nodup_cons.mp hnd
          refine ⟨before, after, rfl, ⟨hnd, ?_⟩, ?_⟩
          · intro x hx hs
            rcases List.mem_cons.mp hs with rfl | hs
            · exact hnot hx
            · exact hfresh x (List.mem_cons_of_mem a hx) hs
          · simpa [or_assoc, or_left_comm] using hagain

theorem repeated?_nil_eq_some_iff : repeated? [] names = some name ↔ Repeats names name := by
  simp [repeated?_eq_some_iff, Repeats]

end

/-! ## What is asked of the records -/

section
variable (records : List (SegmentRecord α))

def names : List String := records.map (·.name)

def tops : List (SegmentRecord α) := records.filter fun r => r.parent.isNone

/-- The numbers of the records without a parent. -/
def places : List (Fin records.length) :=
  (List.finRange records.length).filter fun i => (records.get i).parent.isNone

def Declared (name : String) : Prop := ∃ r ∈ records, r.name = name

/-- Parents lead from the record to one that has none. -/
inductive Descends : SegmentRecord α → Prop where
  | top {r : SegmentRecord α} : r.parent = none → Descends r
  | child {r p : SegmentRecord α} :
    p ∈ records → r.parent = some p.name → Descends p → Descends r

structure Acceptable : Prop where
  nonempty : records ≠ []
  names : (names records).Nodup
  top : ∃ r, tops records = [r]
  parents : ∀ r ∈ records, ∀ p, r.parent = some p → Declared records p
  descends : ∀ r ∈ records, Descends records r

/-- What is wrong with the records: the first condition that fails, all before it being met. -/
inductive Refused : ModelError α → Prop where
  | empty : records = [] → Refused (.tree .empty)
  | duplicate {name : String} :
    Repeats (names records) name → Refused (.tree (.duplicate name))
  | noRoot :
    records ≠ [] → (names records).Nodup → tops records = [] → Refused (.tree .noRoot)
  | manyRoots {a b : SegmentRecord α} {rest : List (SegmentRecord α)} :
    (names records).Nodup → tops records = a :: b :: rest →
      Refused (.tree (.manyRoots a.name b.name))
  | missing {top : SegmentRecord α} {before after : List String} {parent : String} :
    (names records).Nodup → tops records = [top] →
      records.filterMap (·.parent) = before ++ parent :: after →
        (∀ p ∈ before, Declared records p) → ¬Declared records parent →
          Refused (.unknownSegment parent)
  | unreachable {top : SegmentRecord α} :
    (names records).Nodup → tops records = [top] →
      (∀ r ∈ records, ∀ p, r.parent = some p → Declared records p) →
        ¬(∀ r ∈ records, Descends records r) → Refused (.tree .unreachable)

end

theorem Descends.mono {records records' : List (SegmentRecord α)}
    (hsub : ∀ r ∈ records, r ∈ records') {r : SegmentRecord α} (h : Descends records r) :
    Descends records' r := by
  induction h with
  | top hp => exact .top hp
  | child hmem hp _ ih => exact .child (hsub _ hmem) hp ih

section
variable {records : List (SegmentRecord α)} {name parent : String}
  {i j root : Fin records.length}

theorem index?_eq_none_iff : index? records name = none ↔ ¬Declared records name := by
  unfold index? Declared
  rw [List.findFinIdx?_eq_none_iff]
  simp

theorem missingParent?_eq_none_iff : missingParent? records = none ↔
    ∀ r ∈ records, ∀ p, r.parent = some p → Declared records p := by
  unfold missingParent?
  simp only [List.find?_eq_none, List.mem_filterMap, Option.isNone_iff_eq_none,
    index?_eq_none_iff, not_not]
  constructor
  · intro h r hr p hp
    exact h p ⟨r, hr, hp⟩
  · rintro h p ⟨r, hr, hp⟩
    exact h r hr p hp

theorem missingParent?_eq_some_iff : missingParent? records = some parent ↔
    ¬Declared records parent ∧ ∃ before after,
      records.filterMap (·.parent) = before ++ parent :: after ∧
        ∀ p ∈ before, Declared records p := by
  unfold missingParent?
  simp only [List.find?_eq_some_iff_append, Option.isNone_iff_eq_none, index?_eq_none_iff,
    Bool.not_eq_true', ← Bool.not_eq_true, not_not]

theorem map_places : (places records).map records.get = tops records := by
  unfold places tops
  conv_rhs => rw [← List.map_get_finRange records, List.filter_map]
  rfl

section
variable (hnames : (names records).Nodup)
include hnames

theorem get_injective (h : (records.get i).name = (records.get j).name) : i = j := by
  have hi : i.val < (names records).length := by
    unfold names
    simp
  have hj : j.val < (names records).length := by
    unfold names
    simp
  have he : (names records)[i.val] = (names records)[j.val] := by
    simpa [names] using h
  exact Fin.ext (hnames.getElem_inj_iff.mp he)

theorem index?_eq_some_iff : index? records name = some i ↔ (records.get i).name = name := by
  unfold index?
  rw [List.findFinIdx?_eq_some_iff]
  constructor
  · intro h
    exact eq_of_beq h.1
  · intro h
    refine ⟨beq_iff_eq.mpr h, fun j hj he => ?_⟩
    exact absurd (get_injective hnames ((eq_of_beq he).trans h.symm)) hj.ne

theorem parentOf_eq_some_iff :
    parentOf records i = some j ↔ (records.get i).parent = some (records.get j).name := by
  unfold parentOf
  rw [Option.bind_eq_some_iff]
  constructor
  · rintro ⟨name, hp, hj⟩
    rw [hp, (index?_eq_some_iff hnames).mp hj]
  · intro h
    exact ⟨_, h, (index?_eq_some_iff hnames).mpr rfl⟩

end

end

/-! ## Descent and the order -/

section
variable {records : List (SegmentRecord α)} {root : Fin records.length}

theorem parentOf_eq_none {i : Fin records.length} (h : (records.get i).parent = none) :
    parentOf records i = none := by
  unfold parentOf
  rw [h]
  rfl

section
variable (hnames : (names records).Nodup)
  (htop : places records = [root])
include htop

theorem parent_eq_none_iff {i : Fin records.length} :
    (records.get i).parent = none ↔ i = root := by
  have hmem : i ∈ places records ↔ i = root := by
    rw [htop, List.mem_singleton]
  unfold places at hmem
  rw [← hmem, List.mem_filter, Option.isNone_iff_eq_none]
  simp

include hnames

theorem descends_iff_depth {i : Fin records.length} :
    Descends records (records.get i) ↔ ∃ k, Ancestry.Depth (parentOf records) root k i := by
  constructor
  · generalize hr : records.get i = r
    intro h
    induction h generalizing i with
    | top hp =>
      subst hr
      rw [(parent_eq_none_iff htop).mp hp]
      exact ⟨0, .root⟩
    | child hmem hp _ ih =>
      subst hr
      obtain ⟨j, rfl⟩ := List.get_of_mem hmem
      obtain ⟨k, hk⟩ := ih rfl
      exact ⟨k + 1, .child ((parentOf_eq_some_iff hnames).mpr hp) hk⟩
  · rintro ⟨k, h⟩
    induction h with
    | root => exact .top ((parent_eq_none_iff htop).mpr rfl)
    | child hp _ ih =>
      exact .child (List.get_mem records _) ((parentOf_eq_some_iff hnames).mp hp) ih

/-- The order is complete if and only if all records descend from the one without a parent. -/
theorem length_order_iff :
    (Ancestry.breadthFirst (parentOf records) root).length = records.length ↔
      ∀ r ∈ records, Descends records r := by
  have hroot := parentOf_eq_none ((parent_eq_none_iff htop).mpr rfl)
  have hnd := Ancestry.nodup_breadthFirst hroot
  constructor
  · intro hlen r hr
    obtain ⟨i, rfl⟩ := List.get_of_mem hr
    exact (descends_iff_depth hnames htop).mpr
      (Ancestry.exists_depth (Ancestry.mem_of_nodup hnd hlen i))
  · intro hall
    refine Ancestry.length_of_complete hnd fun i => ?_
    obtain ⟨k, hk⟩ := (descends_iff_depth hnames htop).mp (hall _ (List.get_mem records i))
    exact hk.mem_breadthFirst hroot

end

/-- The tests of the records, one after the other. -/
theorem ofRecords_eq : ofRecords records =
    if records.isEmpty then .error (.tree .empty)
    else match repeated? [] (names records) with
      | some name => .error (.tree (.duplicate name))
      | none => match places records with
        | [] => .error (.tree .noRoot)
        | a :: b :: _ => .error (.tree (.manyRoots (records.get a).name (records.get b).name))
        | [root] => match missingParent? records with
          | some parent => .error (.unknownSegment parent)
          | none =>
            if (Ancestry.breadthFirst (parentOf records) root).length = records.length then
              .ok (below records (parentOf records) root)
            else .error (.tree .unreachable) := by
  have hparent : (fun i => (Vector.ofFn (parentOf records)).get i) = parentOf records :=
    funext fun i => Vector.get_ofFn _ i
  unfold ofRecords names places
  cases records.isEmpty with
  | true => rfl
  | false =>
    cases repeated? [] (records.map (·.name)) with
    | some name => rfl
    | none =>
      cases (List.finRange records.length).filter fun i => (records.get i).parent.isNone with
      | nil => rfl
      | cons root rest =>
        cases rest with
        | cons b rest => rfl
        | nil =>
          cases missingParent? records with
          | some parent => rfl
          | none =>
            dsimp only
            rw [hparent]
            by_cases hlen : (Ancestry.breadthFirst (parentOf records) root).length = records.length
            · rw [if_pos hlen]
              exact if_neg (not_not.mpr hlen)
            · rw [if_neg hlen]
              exact if_pos hlen

section
variable (hnames : (names records).Nodup)
include hnames

theorem ofRecords_of_names (hne : records ≠ []) : ofRecords records = match places records with
    | [] => .error (.tree .noRoot)
    | a :: b :: _ => .error (.tree (.manyRoots (records.get a).name (records.get b).name))
    | [root] => match missingParent? records with
      | some parent => .error (.unknownSegment parent)
      | none =>
        if (Ancestry.breadthFirst (parentOf records) root).length = records.length then
          .ok (below records (parentOf records) root)
        else .error (.tree .unreachable) := by
  have hunrepeated : repeated? [] (names records) = none :=
    repeated?_eq_none_iff.mpr ⟨hnames, fun _ _ => List.not_mem_nil⟩
  rw [ofRecords_eq, if_neg (fun he => hne (List.isEmpty_iff.mp he)), hunrepeated]

theorem ofRecords_of_places (hplaces : places records = [root]) : ofRecords records =
    match missingParent? records with
    | some parent => .error (.unknownSegment parent)
    | none =>
      if (Ancestry.breadthFirst (parentOf records) root).length = records.length then
        .ok (below records (parentOf records) root)
      else .error (.tree .unreachable) := by
  have hne : records ≠ [] := by
    rintro rfl
    cases hplaces
  rw [ofRecords_of_names hnames hne, hplaces]

end

theorem places_of_tops {top : SegmentRecord α} (h : tops records = [top]) :
    ∃ root, places records = [root] := by
  rw [← map_places, List.map_eq_singleton_iff] at h
  obtain ⟨root, h, -⟩ := h
  exact ⟨root, h⟩

theorem ofRecords_of_refused {e : ModelError α} (h : Refused records e) :
    ofRecords records = .error e := by
  cases h with
  | empty he =>
    subst he
    rfl
  | duplicate hname =>
    have hne : ¬records.isEmpty = true := by
      obtain ⟨before, after, he, -⟩ := hname
      intro hempty
      rw [List.isEmpty_iff.mp hempty] at he
      simp [names] at he
    rw [ofRecords_eq, if_neg hne, repeated?_nil_eq_some_iff.mpr hname]
  | noRoot hne hnames htops =>
    rw [← map_places, List.map_eq_nil_iff] at htops
    rw [ofRecords_of_names hnames hne, htops]
  | @manyRoots a b rest hnames htops =>
    have hne : records ≠ [] := by
      rintro rfl
      cases htops
    rw [← map_places] at htops
    obtain ⟨i, l, hplaces, rfl, hl⟩ := List.map_eq_cons_iff.mp htops
    obtain ⟨j, l, rfl, rfl, -⟩ := List.map_eq_cons_iff.mp hl
    rw [ofRecords_of_names hnames hne, hplaces]
  | missing hnames htops he hbefore hnot =>
    obtain ⟨root, hplaces⟩ := places_of_tops htops
    rw [ofRecords_of_places hnames hplaces,
      missingParent?_eq_some_iff.mpr ⟨hnot, _, _, he, hbefore⟩]
  | unreachable hnames htops hparents hnot =>
    obtain ⟨root, hplaces⟩ := places_of_tops htops
    rw [ofRecords_of_places hnames hplaces, missingParent?_eq_none_iff.mpr hparents]
    exact if_neg fun hlen => hnot ((length_order_iff hnames hplaces).mp hlen)

theorem ofRecords_of_acceptable (h : Acceptable records) :
    ∃ root, places records = [root] ∧
      ofRecords records = .ok (below records (parentOf records) root) := by
  obtain ⟨top, htop⟩ := h.top
  obtain ⟨root, hplaces⟩ := places_of_tops htop
  refine ⟨root, hplaces, ?_⟩
  rw [ofRecords_of_places h.names hplaces, missingParent?_eq_none_iff.mpr h.parents]
  exact if_pos ((length_order_iff h.names hplaces).mpr h.descends)

end

/-- The first condition that fails is what is wrong. -/
theorem acceptable_or_refused (records : List (SegmentRecord α)) :
    Acceptable records ∨ ∃ e, Refused records e := by
  by_cases hne : records = []
  · exact .inr ⟨_, .empty hne⟩
  cases hnames : repeated? [] (names records) with
  | some name => exact .inr ⟨_, .duplicate (repeated?_nil_eq_some_iff.mp hnames)⟩
  | none =>
    have hnames := (repeated?_eq_none_iff.mp hnames).1
    cases htops : tops records with
    | nil => exact .inr ⟨_, .noRoot hne hnames htops⟩
    | cons top rest =>
      cases rest with
      | cons b rest => exact .inr ⟨_, .manyRoots hnames htops⟩
      | nil =>
        cases hparents : missingParent? records with
        | some parent =>
          obtain ⟨hnot, before, after, he, hbefore⟩ := missingParent?_eq_some_iff.mp hparents
          exact .inr ⟨_, .missing hnames htops he hbefore hnot⟩
        | none =>
          have hparents := missingParent?_eq_none_iff.mp hparents
          by_cases hdescends : ∀ r ∈ records, Descends records r
          · exact .inl ⟨hne, hnames, ⟨top, htops⟩, hparents, hdescends⟩
          · exact .inr ⟨_, .unreachable hnames htops hparents hdescends⟩

section
variable {records : List (SegmentRecord α)} {e : ModelError α} {t : Tree α}

theorem ofRecords_eq_error_iff : ofRecords records = .error e ↔ Refused records e := by
  refine ⟨fun h => ?_, ofRecords_of_refused⟩
  rcases acceptable_or_refused records with ha | ⟨e', he⟩
  · obtain ⟨root, -, hok⟩ := ofRecords_of_acceptable ha
    rw [hok] at h
    cases h
  · rw [ofRecords_of_refused he] at h
    cases h
    exact he

theorem acceptable_of_ofRecords (h : ofRecords records = .ok t) : Acceptable records := by
  rcases acceptable_or_refused records with ha | ⟨e, he⟩
  · exact ha
  · rw [ofRecords_of_refused he] at h
    cases h

theorem exists_ofRecords_iff : (∃ t, ofRecords records = .ok t) ↔ Acceptable records := by
  constructor
  · rintro ⟨t, h⟩
    exact acceptable_of_ofRecords h
  · intro h
    obtain ⟨root, -, hok⟩ := ofRecords_of_acceptable h
    exact ⟨_, hok⟩

end

/-! ## How the tree arranges the records -/

/-- The record that a segment was made from. -/
def record (t : Tree α) (i : Fin t.size) : SegmentRecord α where
  name := (t.segment i).name
  parent := (t.segment i).parent.map fun p => (t.segment p).name
  offset := (t.segment i).offset
  joint := (t.segment i).joint
  inertia := (t.segment i).inertia

/-- The segments are the records in their order, linked by parents, children and names, and `order`
goes through them breadth first. -/
structure Arranges (t : Tree α) (records : List (SegmentRecord α)) : Prop where
  records : List.ofFn t.record = records
  root : ∀ i, (t.segment i).parent = none ↔ i = t.root
  nodup : t.order.Nodup
  complete : ∀ i, i ∈ t.order
  queue : t.order = t.root :: t.order.flatMap fun i => (t.segment i).children
  parent_first : t.order.Pairwise fun a b => (t.segment a).parent ≠ some b
  level_by_level : ∃ depth : Fin t.size → Nat, depth t.root = 0 ∧
    (∀ i p, (t.segment i).parent = some p → depth i = depth p + 1) ∧
    t.order.Pairwise fun a b => depth a ≤ depth b
  siblings : t.order.Pairwise fun a b => (t.segment a).parent = (t.segment b).parent → a < b
  children : ∀ p i, i ∈ (t.segment p).children ↔ (t.segment i).parent = some p
  sorted_children : ∀ p, (t.segment p).children.Pairwise (· < ·)
  find : ∀ name i, t.find? name = some i ↔ (t.segment i).name = name

section
variable {records : List (SegmentRecord α)} {root : Fin records.length}

theorem map_parentOf (h : Acceptable records) (i : Fin records.length) :
    (parentOf records i).map (fun p => (records.get p).name) = (records.get i).parent := by
  cases hp : (records.get i).parent with
  | none =>
    rw [parentOf_eq_none hp]
    rfl
  | some name =>
    obtain ⟨r, hr, hname⟩ := h.parents _ (List.get_mem records i) name hp
    obtain ⟨j, rfl⟩ := List.get_of_mem hr
    rw [(parentOf_eq_some_iff h.names).mpr (hp.trans (congrArg some hname.symm))]
    exact congrArg some hname

theorem record_below (h : Acceptable records) (i : Fin records.length) :
    (below records (parentOf records) root).record i = records.get i := by
  have hparent : ((below records (parentOf records) root).segment i).parent.map (fun p =>
      ((below records (parentOf records) root).segment p).name) = (records.get i).parent := by
    rw [parent_below, ← map_parentOf h]
    exact congrArg (Option.map · _) (funext name_below)
  unfold record
  rw [hparent, name_below, offset_below, joint_below, inertia_below]

theorem Arranges.getElem?_record {t : Tree α} (h : t.Arranges records) (i : Fin t.size) :
    records[i.val]? = some (t.record i) := by
  rw [← h.records, List.getElem?_ofFn, dif_pos i.isLt]

theorem Arranges.mem_iff {t : Tree α} (h : t.Arranges records) {r : SegmentRecord α} :
    r ∈ records ↔ ∃ i, t.record i = r := by
  rw [← h.records, List.mem_ofFn]

theorem Arranges.length {t : Tree α} (h : t.Arranges records) : records.length = t.size := by
  rw [← h.records, List.length_ofFn]

theorem WellFormed.parent_eq_some {t : Tree α} (hw : t.WellFormed) {i k : Fin t.size}
    (h : (t.record i).parent = some (t.segment k).name) : (t.segment i).parent = some k := by
  obtain ⟨j, hj, hname⟩ := Option.map_eq_some_iff.mp h
  rw [hj, hw.name_injective hname]

/-- Segments of one record hang from segments of one record. -/
theorem WellFormed.parent_map {t t' : Tree α} (hw' : t'.WellFormed) {e : Fin t.size → Fin t'.size}
    (hrecord : ∀ i, t'.record (e i) = t.record i) (i : Fin t.size) :
    (t'.segment (e i)).parent = (t.segment i).parent.map e := by
  have hparent := congrArg SegmentRecord.parent (hrecord i)
  cases hi : (t.segment i).parent with
  | none =>
    unfold record at hparent
    rw [hi] at hparent
    exact Option.map_eq_none_iff.mp hparent
  | some p =>
    have hname : (t'.segment (e p)).name = (t.segment p).name :=
      congrArg SegmentRecord.name (hrecord p)
    have hp : (t.record i).parent = some (t'.segment (e p)).name := by
      unfold record
      rw [hi, hname]
      rfl
    exact hw'.parent_eq_some (hparent.trans hp)

theorem exists_depths {parent : Fin records.length → Option (Fin records.length)}
    (hroot : parent root = none) (hall : ∀ i, i ∈ Ancestry.breadthFirst parent root) :
    ∃ depth : Fin records.length → Nat, depth root = 0 ∧
      (∀ i p, parent i = some p → depth i = depth p + 1) ∧
      (Ancestry.breadthFirst parent root).Pairwise fun a b => depth a ≤ depth b := by
  choose depth hdepth using fun i => Ancestry.exists_depth (hall i)
  refine ⟨depth, (hdepth root).unique hroot .root, ?_, ?_⟩
  · intro i p hp
    exact (hdepth i).of_parent hroot (hdepth p) hp
  · refine (Ancestry.pairwise_breadthFirst hroot).imp fun {a b} ⟨_, j, k, hjk, ha, hb⟩ => ?_
    rw [(hdepth a).unique hroot ha, (hdepth b).unique hroot hb]
    exact hjk

theorem arranges_below (h : Acceptable records) (hplaces : places records = [root]) :
    (below records (parentOf records) root).Arranges records := by
  have htop : ∀ i, (records.get i).parent = none ↔ i = root := fun i =>
    parent_eq_none_iff hplaces
  have hroot : parentOf records root = none := parentOf_eq_none ((htop root).mpr rfl)
  have hlen := (length_order_iff h.names hplaces).mpr h.descends
  have hw : (below records (parentOf records) root).WellFormed :=
    wellFormed_below hroot h.names hlen
  have hchildren : (fun i => ((below records (parentOf records) root).segment i).children) =
      Ancestry.children (parentOf records) := funext (children_below hroot hw.complete)
  refine ⟨?_, ?_, hw.nodup, hw.complete, ?_, hw.parent_first, ?_, ?_, ?_, ?_, ?_⟩
  · calc List.ofFn (below records (parentOf records) root).record = List.ofFn records.get :=
          congrArg List.ofFn (funext (record_below h))
      _ = records := List.ofFn_get records
  · intro (i : Fin records.length)
    rw [parent_below i]
    exact (Option.map_eq_none_iff.symm.trans (by rw [map_parentOf h])).trans (htop i)
  · rw [hchildren]
    exact Ancestry.breadthFirst_eq hroot
  · obtain ⟨depth, hzero, hstep, hsorted⟩ := exists_depths hroot hw.complete
    exact ⟨depth, hzero, fun i p hp => hstep i p ((parent_below i).symm.trans hp), hsorted⟩
  · refine (Ancestry.sorted_siblings hroot).imp fun {a b} hlt he => hlt ?_
    exact (parent_below a).symm.trans (he.trans (parent_below b))
  · intro (p : Fin records.length) (i : Fin records.length)
    rw [children_below hroot hw.complete p, parent_below i]
    exact Ancestry.mem_children
  · intro (p : Fin records.length)
    rw [children_below hroot hw.complete p]
    exact Ancestry.sorted_children p
  · intro name i
    exact hw.find?_eq_some_iff

theorem arranges_of_ofRecords {t : Tree α} (h : ofRecords records = .ok t) : t.Arranges records := by
  have ha := acceptable_of_ofRecords h
  obtain ⟨root, hplaces, hok⟩ := ofRecords_of_acceptable ha
  rw [hok] at h
  cases h
  exact arranges_below ha hplaces

end

theorem ofRecords_outcome (records : List (SegmentRecord α)) :
    ((∃ t, ofRecords records = .ok t) ↔ Acceptable records) ∧
      (∀ e, ofRecords records = .error e ↔ Refused records e) ∧
        ∀ t, ofRecords records = .ok t → t.Arranges records :=
  ⟨exists_ofRecords_iff, fun _ => ofRecords_eq_error_iff, fun _ => arranges_of_ofRecords⟩

/-! ## An arm, and a ring that hangs from nothing -/

noncomputable def link (name : String) (parent : Option String) : SegmentRecord ℝ :=
  ⟨name, parent, .identity, ⟨name ++ "_joint", .fixed⟩, .pointMass 1 0⟩

/-- Declared from the tip, with the root in the middle. -/
noncomputable def armRecords : List (SegmentRecord ℝ) :=
  [link "hand" (some "arm"), link "lamp" (some "base"), link "base" none, link "arm" (some "base")]

noncomputable def ringRecords : List (SegmentRecord ℝ) :=
  [link "base" none, link "left" (some "right"), link "right" (some "left")]

theorem ofRecords_outcome_arm :
    (Acceptable armRecords ∧ ∃ t, ofRecords armRecords = .ok t ∧ t.Arranges armRecords) ∧
      Refused ringRecords (.tree .unreachable) := by
  obtain ⟨haccept, -, harrange⟩ := ofRecords_outcome armRecords
  obtain ⟨-, hrefuse, -⟩ := ofRecords_outcome ringRecords
  obtain ⟨t, hok⟩ : ∃ t, ofRecords armRecords = .ok t := ⟨_, rfl⟩
  have hring : ofRecords ringRecords = .error (.tree .unreachable) := rfl
  exact ⟨⟨haccept.mp ⟨t, hok⟩, t, hok, harrange t hok⟩, (hrefuse _).mp hring⟩

end Tree

end Multirotor
