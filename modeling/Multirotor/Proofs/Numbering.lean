import Multirotor.Proofs.Ancestry
import Multirotor.Tree

/-!
# Visits

A visit appends a segment to the children of its parent, extends the list of
joints if the segment's is revolute, sets the segment's joint path, and changes
nothing else (`get_visit`, `joints_visit`). Where every segment is visited once
and after its parent, children, joints and paths tell of the visits so far
(`Numbered`). One more visit keeps this (`Numbered.visit`), so a run of them
does (`numbered_foldl`).
-/

namespace Multirotor

variable {α : Type} {n : Nat}

/-- What no visit changes. -/
def Segment.declaration (s : Segment α n) : Segment α n :=
  { s with children := [], jointPath := [] }

namespace Numbering

variable {s : Numbering α n} {i j p : Fin n} {visited l : List (Fin n)}

/-! ## One visit -/

theorem get_adopt (s : Numbering α n) (i j : Fin n) : (s.adopt i).get j =
    { s.segments.get j with children := (s.segments.get j).children ++
        if (s.segments.get i).parent = some j then [i] else [] } := by
  unfold adopt
  cases (s.segments.get i).parent with
  | none => simp
  | some p =>
    by_cases hj : j = p
    · simp [hj, Ancestry.get_assign_self]
    · simp [Ancestry.get_assign_of_ne _ _ _ hj, Ne.symm hj]

/-- The coordinate of the segment if it is visited next. -/
def next (s : Numbering α n) (i : Fin n) : List Nat :=
  if (s.segments.get i).joint.kind.isRevolute then [s.joints.length] else []

theorem visit_eq (s : Numbering α n) (i : Fin n) : s.visit i =
    { segments := Ancestry.assign (s.adopt i) i
        { (s.adopt i).get i with jointPath := s.pathAbove i ++ s.next i }
      joints := s.joints ++ [i].filter fun j => (s.segments.get j).joint.kind.isRevolute } := by
  have hjoint : ((s.adopt i).get i).joint = (s.segments.get i).joint := by rw [get_adopt]
  cases h : (s.segments.get i).joint.kind.isRevolute with
  | true => simp [visit, next, hjoint, h]
  | false => simp [visit, next, hjoint, h]

/-- All that a visit changes in a segment. -/
theorem get_visit (s : Numbering α n) (i j : Fin n) : (s.visit i).segments.get j =
    { s.segments.get j with
      children := (s.segments.get j).children ++
        if (s.segments.get i).parent = some j then [i] else []
      jointPath := if j = i then s.pathAbove i ++ s.next i else (s.segments.get j).jointPath } := by
  rw [visit_eq]
  by_cases hj : j = i
  · subst hj
    rw [Ancestry.get_assign_self, get_adopt, if_pos rfl]
  · rw [Ancestry.get_assign_of_ne _ _ _ hj, get_adopt, if_neg hj]

theorem joints_visit (s : Numbering α n) (i : Fin n) : (s.visit i).joints =
    s.joints ++ [i].filter fun j => (s.segments.get j).joint.kind.isRevolute := by
  rw [visit_eq]

theorem declaration_visit (s : Numbering α n) (i j : Fin n) :
    ((s.visit i).segments.get j).declaration = (s.segments.get j).declaration := by
  rw [get_visit]
  rfl

theorem parent_visit (s : Numbering α n) (i j : Fin n) :
    ((s.visit i).segments.get j).parent = (s.segments.get j).parent := by
  rw [get_visit]

theorem joint_visit (s : Numbering α n) (i j : Fin n) :
    ((s.visit i).segments.get j).joint = (s.segments.get j).joint := by
  rw [get_visit]

theorem jointPath_visit_of_ne (s : Numbering α n) (h : j ≠ i) :
    ((s.visit i).segments.get j).jointPath = (s.segments.get j).jointPath := by
  rw [get_visit]
  exact if_neg h

theorem jointPath_visit_self (s : Numbering α n) (i : Fin n) :
    ((s.visit i).segments.get i).jointPath = s.pathAbove i ++ s.next i := by
  rw [get_visit]
  exact if_pos rfl

/-! ## A run of visits -/

/-- What children, joints and joint paths tell of the segments that were visited. -/
structure Numbered (visited : List (Fin n)) (s : Numbering α n) : Prop where
  children : ∀ p, (s.segments.get p).children =
    visited.filter fun i => (s.segments.get i).parent == some p
  joints : s.joints = visited.filter fun i => (s.segments.get i).joint.kind.isRevolute
  /-- The joint path goes on from that of the parent, with the segment's own coordinate. -/
  jointPath : ∀ i ∈ visited,
    (s.segments.get i).jointPath = s.pathAbove i ++ (s.joints.idxOf? i).toList

theorem pathAbove_of_root (h : (s.segments.get i).parent = none) : s.pathAbove i = [] := by
  rw [pathAbove, h]

theorem pathAbove_of_parent (h : (s.segments.get i).parent = some p) :
    s.pathAbove i = (s.segments.get p).jointPath := by
  rw [pathAbove, h]

theorem pathAbove_congr {s s' : Numbering α n}
    (hparent : (s'.segments.get i).parent = (s.segments.get i).parent)
    (hpath : ∀ p, (s.segments.get i).parent = some p →
      (s'.segments.get p).jointPath = (s.segments.get p).jointPath) :
    s'.pathAbove i = s.pathAbove i := by
  cases hp : (s.segments.get i).parent with
  | none => rw [pathAbove_of_root hp, pathAbove_of_root (hparent.trans hp)]
  | some p => rw [pathAbove_of_parent hp, pathAbove_of_parent (hparent.trans hp), hpath p hp]

theorem idxOf?_append_of_not_mem {xs ys : List (Fin n)} (h : j ∉ ys) :
    (xs ++ ys).idxOf? j = xs.idxOf? j := by
  have hys : ys.findIdx? (· == j) = none := List.idxOf?_eq_none_iff.mpr h
  unfold List.idxOf?
  rw [List.findIdx?_append, hys, Option.map_none, Option.or_none]

theorem idxOf?_concat {xs : List (Fin n)} (h : i ∉ xs) : (xs ++ [i]).idxOf? i = some xs.length := by
  have hxs : xs.findIdx? (· == i) = none := List.idxOf?_eq_none_iff.mpr h
  unfold List.idxOf?
  rw [List.findIdx?_append, hxs]
  simp

section
variable (h : s.Numbered visited) (hi : i ∉ visited)
include h hi

/-- The coordinate that a visit gives is the place among the joints. -/
theorem Numbered.next_eq : s.next i = ((s.visit i).joints.idxOf? i).toList := by
  have hjoints : i ∉ s.joints := fun hm => hi (List.mem_of_mem_filter (h.joints ▸ hm))
  rw [joints_visit, next]
  cases hk : (s.segments.get i).joint.kind.isRevolute with
  | true => simp [hk, idxOf?_concat hjoints]
  | false => simp [hk, List.idxOf?_eq_none_iff.mpr hjoints]

theorem Numbered.visit (hself : (s.segments.get i).parent ≠ some i)
    (hfirst : ∀ j ∈ visited, (s.segments.get j).parent ≠ some i) :
    (s.visit i).Numbered (visited ++ [i]) where
  children p := by
    simp only [parent_visit, List.filter_append]
    rw [get_visit, h.children p]
    by_cases hp : (s.segments.get i).parent = some p <;> simp [hp]
  joints := by
    simp only [joint_visit, List.filter_append]
    rw [joints_visit, h.joints]
  jointPath j hj := by
    -- The parent was not visited now, so it has the path it had.
    have habove : (s.segments.get j).parent ≠ some i → (s.visit i).pathAbove j = s.pathAbove j :=
      fun hne => pathAbove_congr (parent_visit s i j) fun p hp =>
        jointPath_visit_of_ne s fun e => hne (e ▸ hp)
    rcases List.mem_append.mp hj with hj | hj
    · have hne : j ≠ i := fun e => hi (e ▸ hj)
      have hnot : j ∉ [i].filter fun k => (s.segments.get k).joint.kind.isRevolute := fun hm =>
        hne (List.mem_singleton.mp (List.mem_of_mem_filter hm))
      rw [jointPath_visit_of_ne s hne, h.jointPath j hj, habove (hfirst j hj), joints_visit,
        idxOf?_append_of_not_mem hnot]
    · rw [List.mem_singleton.mp hj] at habove ⊢
      rw [jointPath_visit_self, habove hself, h.next_eq hi]

end

theorem declaration_foldl (l : List (Fin n)) (s : Numbering α n) (j : Fin n) :
    ((l.foldl Numbering.visit s).segments.get j).declaration = (s.segments.get j).declaration := by
  induction l generalizing s with
  | nil => rfl
  | cons i l ih => rw [List.foldl_cons, ih, declaration_visit]

/-- Visits from the start, to each segment once and after its parent. -/
theorem numbered_foldl (hchildren : ∀ p, (s.segments.get p).children = []) (hjoints : s.joints = [])
    (hnd : l.Nodup) (hself : ∀ i ∈ l, (s.segments.get i).parent ≠ some i)
    (hfirst : l.Pairwise fun i j => (s.segments.get i).parent ≠ some j) :
    (l.foldl Numbering.visit s).Numbered l := by
  induction l using List.reverseRecOn with
  | nil => exact ⟨hchildren, hjoints, nofun⟩
  | append_singleton l i ih =>
    have hparent : ∀ j, ((l.foldl Numbering.visit s).segments.get j).parent =
        (s.segments.get j).parent := fun j =>
      (congrArg Segment.parent (declaration_foldl l s j) :)
    obtain ⟨hnd, -, hfresh⟩ := List.nodup_append.mp hnd
    obtain ⟨hfirst, -, hbefore⟩ := List.pairwise_append.mp hfirst
    have hprevious := ih hnd (fun j hj => hself j (List.mem_append_left _ hj)) hfirst
    rw [List.foldl_append, List.foldl_cons, List.foldl_nil]
    refine hprevious.visit (fun hi => hfresh i hi i List.mem_cons_self rfl) ?_ fun j hj => ?_
    · rw [hparent]
      exact hself i (List.mem_append_right l List.mem_cons_self)
    · rw [hparent]
      exact hbefore j hj i List.mem_cons_self

/-- The path that the visits hand down is that along the lineage. -/
theorem Numbered.jointPath_lineage (h : s.Numbered visited) (hall : ∀ i, i ∈ visited)
    {root : Fin n} (hroot : (s.segments.get root).parent = none) {k : Nat}
    (hk : Ancestry.Depth (fun i => (s.segments.get i).parent) root k i) :
    (s.segments.get i).jointPath =
      (Ancestry.lineage (fun i => (s.segments.get i).parent) i).filterMap (s.joints.idxOf? ·) := by
  have hown : ∀ i, [i].filterMap (s.joints.idxOf? ·) = (s.joints.idxOf? i).toList := fun i => by
    cases hc : s.joints.idxOf? i <;> simp [hc]
  induction hk with
  | root =>
    rw [Ancestry.lineage_root hroot, hown, h.jointPath _ (hall _), pathAbove_of_root hroot,
      List.nil_append]
  | @child k p i hp hk ih =>
    rw [hk.lineage_child hroot hp, List.filterMap_append, hown, ← ih, h.jointPath i (hall i),
      pathAbove_of_parent hp]

end Numbering

end Multirotor
