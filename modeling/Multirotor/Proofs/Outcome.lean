import Mathlib.Tactic.Common

/-!
# Outcomes

Inversion of work that can fail. A sequence succeeds if each part does, a test
if its condition holds, and over a state that a failure leaves as it is by then,
a sequence goes on from where its first part ends. Two sequences have one
outcome if their parts have.
-/

namespace Multirotor

section
variable {ε β γ : Type}

theorem bind_eq_ok {x : Except ε β} {f : β → Except ε γ} {c : γ} :
    x >>= f = .ok c ↔ ∃ b, x = .ok b ∧ f b = .ok c := by
  constructor
  · intro h
    cases x with
    | error e => cases h
    | ok b => exact ⟨b, rfl, h⟩
  · rintro ⟨b, rfl, h⟩
    exact h

theorem bind_eq_error {x : Except ε β} {f : β → Except ε γ} {e : ε} :
    x >>= f = .error e ↔ x = .error e ∨ ∃ b, x = .ok b ∧ f b = .error e := by
  cases x with
  | error e' =>
    have hbind : (Except.error e' : Except ε β) >>= f = .error e' := rfl
    simp [hbind]
  | ok b =>
    have hbind : (Except.ok b : Except ε β) >>= f = f b := rfl
    simp [hbind]

/-- A test that refuses lets through what does not meet its condition. -/
theorem refuse_eq_ok {p : Prop} [Decidable p] {e : ε} {k : Unit → Except ε β} {b : β} :
    (if p then throw e >>= k else k ()) = .ok b ↔ ¬p ∧ k () = .ok b := by
  by_cases h : p
  · rw [if_pos h]
    exact iff_of_false nofun fun hp => hp.1 h
  · rw [if_neg h]
    exact (and_iff_right h).symm

/-- A test that demands lets through what meets its condition. -/
theorem demand_eq_ok {p : Prop} [Decidable p] {e : ε} {k : Unit → Except ε β} {b : β} :
    (if p then k () else throw e >>= k) = .ok b ↔ p ∧ k () = .ok b := by
  by_cases h : p
  · rw [if_pos h]
    exact (and_iff_right h).symm
  · rw [if_neg h]
    exact iff_of_false nofun fun hp => h hp.1

theorem map_eq_ok {x : Except ε β} {f : β → γ} {c : γ} :
    x.map f = .ok c ↔ ∃ b, x = .ok b ∧ f b = c := by
  cases x <;> simp [Except.map]

theorem map_eq_error {x : Except ε β} {f : β → γ} {e : ε} :
    x.map f = .error e ↔ x = .error e := by
  cases x <;> simp [Except.map]

theorem mapError_eq_error {ε' : Type} {x : Except ε β} {f : ε → ε'} {e : ε'} :
    x.mapError f = .error e ↔ ∃ cause, x = .error cause ∧ f cause = e := by
  cases x <;> simp [Except.mapError]

/-- A list of tasks succeeds if each does. -/
theorem forall₂_of_mapM_eq_ok {f : β → Except ε γ} {l : List β} {cs : List γ}
    (h : l.mapM f = .ok cs) : List.Forall₂ (fun b c => f b = .ok c) l cs := by
  induction l generalizing cs with
  | nil =>
    cases h
    exact .nil
  | cons b l ih =>
    rw [List.mapM_cons] at h
    obtain ⟨c', hb, h⟩ := bind_eq_ok.mp h
    obtain ⟨cs', hl, h⟩ := bind_eq_ok.mp h
    cases h
    exact .cons hb (ih hl)

/-- Each result of a list of tasks is the result of one of them. -/
theorem exists_of_mapM_eq_ok {f : β → Except ε γ} {l : List β} {cs : List γ} (h : l.mapM f = .ok cs)
    {c : γ} (hc : c ∈ cs) : ∃ b ∈ l, f b = .ok c := by
  have hall := forall₂_of_mapM_eq_ok h
  clear h
  induction hall with
  | nil => cases hc
  | cons hb _ ih =>
    rcases List.mem_cons.mp hc with rfl | hc
    · exact ⟨_, List.mem_cons_self, hb⟩
    · obtain ⟨b, hb, hf⟩ := ih hc
      exact ⟨b, List.mem_cons_of_mem _ hb, hf⟩

/-- Each of the tasks has one of the results. -/
theorem exists_result_of_mapM_eq_ok {f : β → Except ε γ} {l : List β} {cs : List γ}
    (h : l.mapM f = .ok cs) {b : β} (hb : b ∈ l) : ∃ c ∈ cs, f b = .ok c := by
  have hall := forall₂_of_mapM_eq_ok h
  clear h
  induction hall with
  | nil => cases hb
  | cons hc _ ih =>
    rcases List.mem_cons.mp hb with rfl | hb
    · exact ⟨_, List.mem_cons_self, hc⟩
    · obtain ⟨c, hc, hf⟩ := ih hb
      exact ⟨c, List.mem_cons_of_mem _ hc, hf⟩

theorem mapM_congr {f g : β → Except ε γ} {l : List β} (h : ∀ b ∈ l, f b = g b) :
    l.mapM f = l.mapM g := by
  induction l with
  | nil => rfl
  | cons b l ih =>
    obtain ⟨hb, hl⟩ := List.forall_mem_cons.mp h
    rw [List.mapM_cons, List.mapM_cons, hb, ih hl]

/-- Both succeed, with results that are related, or both fail, with one error. -/
inductive SameOutcome (related : β → γ → Prop) : Except ε β → Except ε γ → Prop where
  | ok {b : β} {c : γ} : related b c → SameOutcome related (.ok b) (.ok c)
  | error (e : ε) : SameOutcome related (.error e) (.error e)

section
variable {β' γ' : Type} {related : β → γ → Prop} {related' : β' → γ' → Prop}

theorem SameOutcome.bind {x : Except ε β} {y : Except ε γ} {f : β → Except ε β'}
    {g : γ → Except ε γ'} (h : SameOutcome related x y)
    (hnext : ∀ b c, related b c → SameOutcome related' (f b) (g c)) :
    SameOutcome related' (x >>= f) (y >>= g) := by
  cases h with
  | ok h => exact hnext _ _ h
  | error e => exact .error e

theorem SameOutcome.imp {x : Except ε β} {y : Except ε γ} {weaker : β → γ → Prop}
    (h : SameOutcome related x y) (himp : ∀ b c, related b c → weaker b c) :
    SameOutcome weaker x y := by
  cases h with
  | ok h => exact .ok (himp _ _ h)
  | error e => exact .error e

theorem SameOutcome.of_eq {x y : Except ε β} (h : x = y) : SameOutcome Eq x y := by
  subst h
  cases x with
  | ok b => exact .ok rfl
  | error e => exact .error e

end

end

section
variable {σ ε ε' β γ : Type}

theorem run_get (s : σ) : (get : ExceptT ε (StateM σ) σ).run s = (.ok s, s) := rfl

theorem run_lift (x : Except ε β) (s : σ) :
    (liftM x : ExceptT ε (StateM σ) β).run s = (x, s) := rfl

theorem run_adapt (f : ε → ε') (x : ExceptT ε (StateM σ) β) (s : σ) :
    (x.adapt f).run s = ((x.run s).1.mapError f, (x.run s).2) := rfl

theorem run_bind (x : ExceptT ε (StateM σ) β) (f : β → ExceptT ε (StateM σ) γ) (s : σ) :
    (x >>= f).run s = match x.run s with
      | (.ok b, s') => (f b).run s'
      | (.error e, s') => (.error e, s') := by
  change (match (x.run s : Except ε β × σ) with | (b, s') => ExceptT.bindCont f b s') = _
  rcases (x.run s : Except ε β × σ) with ⟨_ | _, _⟩ <;> rfl

theorem run_map (f : β → γ) (x : ExceptT ε (StateM σ) β) (s : σ) :
    (f <$> x).run s = ((x.run s).1.map f, (x.run s).2) := by
  rw [map_eq_pure_bind, run_bind]
  rcases (x.run s : Except ε β × σ) with ⟨_ | _, _⟩ <;> rfl

end

end Multirotor
