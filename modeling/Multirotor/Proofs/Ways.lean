import Mathlib.Data.List.Shortlex
import Multirotor.Proofs.Acceptance
import Multirotor.Proofs.JointPath

/-!
# Ways down a tree

A way goes from a segment down to one below it, child by child. One way leads
from the root to each segment (`Rooted.exists_way`, `Rooted.way_unique`). The
order of an accepted tree is told by these ways: the shorter comes first, and
of two ways of one length the one with the smaller number where they part
(`Arranges.pairwise_before`).
-/

namespace Multirotor

namespace Tree

variable {α : Type} {t : Tree α} {a b c i p : Fin t.size} {l l' : List (Fin t.size)}

/-- Down from `a` to `i` go the segments `l`, each a child of the one before. -/
inductive Way (t : Tree α) (a : Fin t.size) : List (Fin t.size) → Fin t.size → Prop where
  | here : Way t a [] a
  | child {l : List (Fin t.size)} {p i : Fin t.size} :
    Way t a l p → (t.segment i).parent = some p → Way t a (l ++ [i]) i

namespace Way

theorem trans (h : t.Way a l b) (h' : t.Way b l' i) : t.Way a (l ++ l') i := by
  induction h' with
  | here => exact (List.append_nil l).symm ▸ h
  | child _ hp ih => exact List.append_assoc l _ _ ▸ ih.child hp

theorem down (hp : (t.segment c).parent = some a) (h : t.Way c l i) : t.Way a (c :: l) i :=
  (Way.here.child hp).trans h

theorem depth {k : Nat} (h : t.Way a l i)
    (hk : Ancestry.Depth (fun i => (t.segment i).parent) t.root k a) :
    Ancestry.Depth (fun i => (t.segment i).parent) t.root (k + l.length) i := by
  induction h with
  | here => exact hk
  | child _ hp ih =>
    rw [List.length_append, List.length_singleton, ← Nat.add_assoc]
    exact .child hp ih

end Way

section
variable (hr : t.Rooted)
include hr

theorem Rooted.exists_way (i : Fin t.size) : ∃ l, t.Way t.root l i := by
  obtain ⟨k, hk⟩ := hr.depth i
  induction hk with
  | root => exact ⟨[], .here⟩
  | child hp _ ih =>
    obtain ⟨l, hl⟩ := ih
    exact ⟨_, hl.child hp⟩

/-- No way leads from a segment to its parent. -/
theorem Rooted.not_way_parent (hp : (t.segment a).parent = some p) : ¬t.Way a l p := by
  intro h
  obtain ⟨k, hk⟩ := hr.depth a
  have := hk.of_parent hr.parent_root (h.depth hk) hp
  omega

theorem Rooted.way_unique (h : t.Way a l i) (h' : t.Way a l' i) : l = l' := by
  induction h generalizing l' with
  | here =>
    cases h' with
    | here => rfl
    | child h' hp => exact absurd h' (hr.not_way_parent hp)
  | child h hp ih =>
    cases h' with
    | here => exact absurd h (hr.not_way_parent hp)
    | child h' hp' =>
      rw [hp, Option.some.injEq] at hp'
      rw [ih (hp' ▸ h')]

end

/-! ## The order of the segments -/

/-- The way from the root is shorter, or as long and smaller where the two ways part. -/
def Before (t : Tree α) (a b : Fin t.size) : Prop :=
  ∃ l l', t.Way t.root l a ∧ t.Way t.root l' b ∧ l.Shortlex (· < ·) l'

theorem lex_concat {β : Type} {r : β → β → Prop} {l l' : List β} (h : List.Lex r l l')
    (hlen : l.length = l'.length) (x y : β) : List.Lex r (l ++ [x]) (l' ++ [y]) := by
  induction h with
  | nil => simp at hlen
  | cons _ ih => exact .cons (ih (by simpa using hlen))
  | rel h => exact .rel h

theorem Before.children (h : t.Before a b) {i j : Fin t.size} (hi : (t.segment i).parent = some a)
    (hj : (t.segment j).parent = some b) : t.Before i j := by
  obtain ⟨l, l', hl, hl', hlt⟩ := h
  refine ⟨_, _, hl.child hi, hl'.child hj, ?_⟩
  rcases List.shortlex_def.mp hlt with hlen | ⟨hlen, hlex⟩
  · exact .of_length_lt (by simpa using hlen)
  · exact .of_lex (by simpa using hlen) (lex_concat hlex hlen i j)

section
variable {records : List (SegmentRecord α)} (ha : t.Arranges records) (hr : t.Rooted)
include ha hr

theorem Arranges.ne_root (hi : i ∈ t.order.flatMap fun p => (t.segment p).children) :
    i ≠ t.root := by
  rintro rfl
  obtain ⟨p, -, hp⟩ := List.mem_flatMap.mp hi
  have hp := (ha.children p t.root).mp hp
  rw [hr.parent_root] at hp
  cases hp

/-- The order is a queue, so children come in the order of their parents. -/
theorem Arranges.pairwise_before_children {n : Nat}
    (hn : t.order.Pairwise fun p q => ∀ l, t.Way t.root l q → l.length < n → t.Before p q) :
    t.order.Pairwise fun i j => ∀ l, t.Way t.root l j → l.length < n + 1 → t.Before i j := by
  rw [ha.queue]
  refine List.pairwise_cons.mpr ⟨?_, List.pairwise_flatMap.mpr ⟨?_, ?_⟩⟩
  · intro j hj l hl _
    cases hl with
    | here => exact absurd rfl (ha.ne_root hr hj)
    | child hl hp => exact ⟨[], _, .here, hl.child hp, .of_length_lt (by simp)⟩
  · intro p _
    obtain ⟨l, hl⟩ := hr.exists_way p
    refine (ha.sorted_children p).imp_of_mem fun {i j} hi hj hlt _ _ _ => ?_
    refine ⟨_, _, hl.child ((ha.children p i).mp hi), hl.child ((ha.children p j).mp hj), ?_⟩
    exact .of_lex (by simp) (.append_left _ (.rel hlt) l)
  · refine hn.imp fun {p q} hpq i hi j hj l hl hlt => ?_
    have hi := (ha.children p i).mp hi
    have hj := (ha.children q j).mp hj
    cases hl with
    | here =>
      rw [hr.parent_root] at hj
      cases hj
    | child hl hp =>
      rw [hp, Option.some.injEq] at hj
      subst hj
      rw [List.length_append, List.length_singleton] at hlt
      exact (hpq _ hl (by omega)).children hi hp

theorem Arranges.pairwise_before : t.order.Pairwise t.Before := by
  have hall : ∀ n : Nat, t.order.Pairwise fun i j =>
      ∀ l, t.Way t.root l j → l.length < n → t.Before i j := by
    intro n
    induction n with
    | zero => exact List.pairwise_of_forall fun i j l _ hlt => absurd hlt (Nat.not_lt_zero _)
    | succ n ih => exact ha.pairwise_before_children hr ih
  refine List.pairwise_iff_forall_sublist.mpr fun {i j} hij => ?_
  obtain ⟨l, hl⟩ := hr.exists_way j
  exact List.pairwise_iff_forall_sublist.mp (hall (l.length + 1)) hij l hl (Nat.lt_succ_self _)

end

/-- A segment comes after those that it hangs from. -/
theorem Rooted.not_before (hr : t.Rooted) (h : t.Way a l b) : ¬t.Before b a := by
  rintro ⟨l₁, l₂, hb, ha, hlt⟩
  obtain rfl := hr.way_unique hb (ha.trans h)
  cases l with
  | nil =>
    rw [List.append_nil] at hlt
    exact asymm hlt hlt
  | cons c l =>
    have hlen : l₂.length < (l₂ ++ c :: l).length := by simp
    exact asymm (.of_length_lt hlen) hlt

end Tree

end Multirotor
