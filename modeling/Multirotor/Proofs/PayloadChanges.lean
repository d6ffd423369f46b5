import Mathlib.Logic.Function.Basic
import Multirotor.Proofs.CentreOfGravity
import Multirotor.Proofs.DeclarationOrder
import Multirotor.Proofs.History

/-!
# Changes of a payload

Modules are mounted and taken off by requests, some of which are refused.
After any run of them the payload is what the accepted ones make of it. Those
that mount a module are accepted if its name is new and the tree can carry it,
so no module is in the way of adding up the robot (`kept_afterAll`).
-/

namespace Multirotor

namespace Payload

variable {α : Type} [Scalar α] {n : Nat}

/-! ## One change -/

/-- What a change answers, and the payload it leaves. -/
inductive Served (groups : List (InertiaGroup α n)) (p : Payload α) :
    Change α → Except (ModuleError α) (Option (ExtraModule α)) → Payload α → Prop where
  | mounted {m : ExtraModule α} {p' : Payload α} : p.add groups m = .ok p' →
      Served groups p (.mount m) (.ok none) p'
  | dismounted {name : String} {m : ExtraModule α} {p' : Payload α} :
    p.remove name = .ok (m, p') → Served groups p (.dismount name) (.ok (some m)) p'
  | refused {change : Change α} {e : ModuleError α} : Served groups p change (.error e) p

theorem served (groups : List (InertiaGroup α n)) (p : Payload α) (change : Change α) :
    Served groups p change (p.reply groups change) (p.after groups change) := by
  unfold reply after
  cases change with
  | mount m =>
    simp only [serve, run_bind, run_get, run_lift]
    cases h : p.add groups m with
    | error e => exact .refused
    | ok p' => exact .mounted h
  | dismount name =>
    simp only [serve, run_bind, run_get, run_lift]
    cases h : p.remove name with
    | error e => exact .refused
    | ok removed => exact .dismounted h

/-- A table with the change in it. -/
def record (table : String → Option (ExtraModule α)) :
    Change α → String → Option (ExtraModule α)
  | .mount m => Function.update table m.name (some m)
  | .dismount name => Function.update table name none

section
variable {groups : List (InertiaGroup α n)} {p : Payload α} {change : Change α} {m : ExtraModule α}
  {answer : Option (ExtraModule α)} {e : ModuleError α}

theorem after_of_error (h : p.reply groups change = .error e) : p.after groups change = p := by
  have hs := p.served groups change
  rw [h] at hs
  generalize p.after groups change = p' at hs ⊢
  cases hs
  rfl

theorem find?_after_of_ok (h : p.reply groups change = .ok answer) :
    (p.after groups change).find? = record p.find? change := by
  have hs := p.served groups change
  rw [h] at hs
  generalize p.after groups change = p' at hs ⊢
  funext name
  cases hs with
  | mounted hadd =>
    obtain rfl := eq_of_add hadd
    rw [find?_insert (find?_of_add hadd), record, Function.update_apply]
    exact if_congr eq_comm rfl rfl
  | dismounted hremove =>
    rw [find?_remove hremove, record, Function.update_apply]
    exact if_congr eq_comm rfl rfl

theorem Filled.after (h : p.Filled groups) (change : Change α) :
    (p.after groups change).Filled groups := by
  have hs := p.served groups change
  generalize p.reply groups change = given at hs
  generalize p.after groups change = p' at hs ⊢
  cases hs with
  | mounted hadd => exact .add h hadd
  | dismounted hremove => exact .remove h hremove
  | refused => exact h

theorem Filled.ordered (h : p.Filled groups) : p.Ordered := by
  induction h with
  | empty => exact .nil
  | add _ hadd ih => exact ih.add hadd
  | remove _ hremove ih => exact ih.remove hremove

theorem reply_mount_eq_ok_iff : p.reply groups (.mount m) = .ok none ↔
    p.find? m.name = none ∧ Passes groups m := by
  have hreply : p.reply groups (.mount m) = (p.check groups m).map fun _ => none := by
    simp only [reply, serve, run_bind, run_get, run_lift, add]
    cases p.check groups m <;> rfl
  rw [hreply, map_eq_ok, ← check_eq_ok_iff]
  constructor
  · rintro ⟨_, h, -⟩
    exact h
  · intro h
    exact ⟨(), h, rfl⟩

theorem reply_dismount_eq_ok_iff {name : String} :
    p.reply groups (.dismount name) = .ok (some m) ↔ p.find? name = some m := by
  have hreply : p.reply groups (.dismount name) = (p.remove name).map fun removed =>
      some removed.1 := by
    simp only [reply, serve, run_bind, run_get, run_lift]
    cases p.remove name <;> rfl
  rw [hreply, map_eq_ok]
  constructor
  · rintro ⟨⟨m', rest⟩, h, he⟩
    exact (find?_of_remove h).trans he
  · intro h
    exact ⟨(m, _), by rw [remove, h], rfl⟩

theorem run_dismount_of_mount (h : p.reply groups (.mount m) = .ok none) :
    (serve groups (.dismount m.name)).run (p.after groups (.mount m)) = (.ok (some m), p) := by
  have hs := p.served groups (.mount m)
  rw [h] at hs
  generalize p.after groups (.mount m) = p' at hs ⊢
  cases hs with
  | mounted hadd =>
    obtain rfl := eq_of_add hadd
    simp only [serve, run_bind, run_get, run_lift, remove_insert (find?_of_add hadd)]
    rfl

end

/-! ## Runs -/

def afterAll (groups : List (InertiaGroup α n)) (p : Payload α) (changes : List (Change α)) :
    Payload α := changes.foldl (after groups) p

/-- The changes that are not refused when their turn comes. -/
def accepted (groups : List (InertiaGroup α n)) : Payload α → List (Change α) → List (Change α)
  | _, [] => []
  | p, change :: rest =>
    let later := accepted groups (p.after groups change) rest
    if (p.reply groups change).isOk then change :: later else later

section
variable {groups : List (InertiaGroup α n)}

theorem find?_afterAll (p : Payload α) (changes : List (Change α)) :
    (afterAll groups p changes).find? = (accepted groups p changes).foldl record p.find? := by
  induction changes generalizing p with
  | nil => rfl
  | cons change rest ih =>
    change (afterAll groups (p.after groups change) rest).find? = _
    rw [ih, accepted]
    cases h : p.reply groups change with
    | error e =>
      rw [after_of_error h]
      rfl
    | ok answer =>
      rw [find?_after_of_ok h]
      rfl

/-- Without the refused changes, the run is the same and none is refused. -/
theorem run_accepted (p : Payload α) (changes : List (Change α)) :
    ∃ answers, ((accepted groups p changes).mapM (serve groups)).run p =
      (.ok answers, afterAll groups p changes) := by
  induction changes generalizing p with
  | nil => exact ⟨[], rfl⟩
  | cons change rest ih =>
    obtain ⟨answers, hrest⟩ := ih (p.after groups change)
    rw [accepted]
    cases h : p.reply groups change with
    | error e =>
      -- A refused change is left out of the run and leaves the payload as it is.
      have hsame : afterAll groups p (change :: rest) = afterAll groups p rest :=
        congrArg (afterAll groups · rest) (after_of_error h)
      rw [after_of_error h] at hrest ⊢
      rw [hsame]
      exact ⟨answers, hrest⟩
    | ok answer =>
      have hrun : (serve groups change).run p = (.ok answer, p.after groups change) :=
        Prod.ext h rfl
      refine ⟨answer :: answers, ?_⟩
      change (List.mapM (serve groups) (change :: _)).run p = _
      rw [List.mapM_cons, run_bind, hrun]
      dsimp only
      rw [run_bind, hrest]
      rfl

theorem Filled.afterAll {p : Payload α} (h : p.Filled groups) (changes : List (Change α)) :
    (afterAll groups p changes).Filled groups := by
  induction changes generalizing p with
  | nil => exact h
  | cons change rest ih => exact ih (h.after change)

end

/-! ## What a run leaves -/

/-- What a module has to satisfy to be mounted on the tree. -/
structure Mountable (t : Tree α) (m : ExtraModule α) : Prop where
  base : ∃ i, t.isBase i = true ∧ (t.segment i).name = m.parent
  mass : Scalar.isFinite m.inertia.mass = true ∧ 0 < m.inertia.mass
  finite : m.position.isFinite = true ∧ m.inertia.cog.isFinite = true ∧
    m.inertia.aboutCog.isFinite = true
  orientation : Scalar.abs (1 - m.orientation.normSq) ≤ (1e-6 : α)

section
variable {t : Tree α} {groups : List (InertiaGroup α t.size)} {p : Payload α} {m : ExtraModule α}

theorem passes_iff (hw : t.WellFormed) (hg : t.groups = .ok groups) :
    Passes groups m ↔ Mountable t m := by
  have hparent : (InertiaGroup.index? groups m.parent).isSome ↔
      ∃ i, t.isBase i = true ∧ (t.segment i).name = m.parent := by
    rw [← Tree.mem_names_groups hw hg, InertiaGroup.index?, List.findIdx?_isSome]
    simp
  constructor
  · rintro ⟨hp, hmass, hfinite, hunit⟩
    exact ⟨hparent.mp hp, hmass, hfinite, of_decide_eq_true hunit⟩
  · rintro ⟨hbase, hmass, hfinite, hnorm⟩
    exact ⟨hparent.mpr hbase, hmass, hfinite, decide_eq_true hnorm⟩

theorem Filled.aggregate_ne (h : p.Filled groups) (frames : Placement α t.size)
    (baselink : Fin t.size) (desired : Quat α) (name : String) :
    InertiaGroup.aggregate groups p frames baselink desired ≠ .error (.unknownSegment name) := by
  intro herror
  obtain ⟨loads, hloaded⟩ := InertiaGroup.loaded_isOk h
  rcases bind_eq_error.mp herror with hload | ⟨loads', -, hrest⟩
  · exact absurd (hloaded.symm.trans hload) nofun
  rcases bind_eq_error.mp hrest with hbody | ⟨_, _, hdone⟩
  · rcases CentreOfGravity.ofBody_eq_error hbody with he | he <;> cases he
  · cases hdone

/-- What holds of a payload that a run of changes has left. -/
structure Kept (t : Tree α) (groups : List (InertiaGroup α t.size)) (changes : List (Change α))
    (p : Payload α) : Prop where
  keyed : ∀ name m, p.find? name = some m ↔ m ∈ p.modules ∧ m.name = name
  mountable : ∀ m ∈ p.modules, Mountable t m
  ordered : p.modules.Pairwise fun a b => a.name < b.name
  /-- The table is that of the accepted changes, and in a run of their own they are all accepted. -/
  tabled : p.find? = (accepted groups .empty changes).foldl record fun _ => none
  replayed : ∃ answers, ((accepted groups .empty changes).mapM (serve groups)).run .empty =
    (.ok answers, p)
  refused : ∀ change e, p.reply groups change = .error e → p.after groups change = p
  mounts : ∀ m, p.reply groups (.mount m) = .ok none ↔ p.find? m.name = none ∧ Mountable t m
  dismounts : ∀ name m, p.reply groups (.dismount name) = .ok (some m) ↔ p.find? name = some m
  undone : ∀ m, p.reply groups (.mount m) = .ok none →
    (serve groups (.dismount m.name)).run (p.after groups (.mount m)) = (.ok (some m), p)
  aggregate : ∀ frames baselink desired name,
    InertiaGroup.aggregate groups p frames baselink desired ≠ .error (.unknownSegment name)

theorem kept_afterAll {records : List (SegmentRecord α)} (ht : Tree.ofRecords records = .ok t)
    (hg : t.groups = .ok groups) (changes : List (Change α)) :
    Kept t groups changes (afterAll groups .empty changes) := by
  have hw := Tree.wellFormed_of_ofRecords ht
  have hfilled : (afterAll groups .empty changes).Filled groups := Filled.afterAll .empty changes
  exact
    { keyed := fun _ _ => hfilled.ordered.find?_eq_some_iff
      mountable := fun _ hm => (passes_iff hw hg).mp (hfilled.passes hm)
      ordered := hfilled.ordered
      tabled := find?_afterAll .empty changes
      replayed := run_accepted .empty changes
      refused := fun _ _ => after_of_error
      mounts := fun _ => reply_mount_eq_ok_iff.trans (and_congr_right fun _ => passes_iff hw hg)
      dismounts := fun _ _ => reply_dismount_eq_ok_iff
      undone := fun _ => run_dismount_of_mount
      aggregate := hfilled.aggregate_ne }

end

/-! ## A gripper and a lamp -/

def lamp (mass : Float) : ExtraModule Float :=
  ⟨"lamp", "fc", 0, .identity, .pointMass mass 0⟩

/-- The lamp is too light at first, and there is but one gripper. -/
def outfitting : List (Change Float) :=
  [.mount (lamp 0), .mount gripper, .mount (lamp 0.25), .mount gripper, .dismount "camera",
    .dismount "gripper"]

theorem kept_afterAll_quad : ∃ t groups, Tree.ofRecords quad = .ok t ∧ t.groups = .ok groups ∧
    Kept t groups outfitting (afterAll groups .empty outfitting) := by
  have h : (Tree.ofRecords quad >>= fun t => t.groups.map fun _ => ()).isOk = true := by
    decide +kernel
  generalize hs : (Tree.ofRecords quad >>= fun t => t.groups.map fun _ => ()) = out at h
  cases out with
  | error e => cases h
  | ok _ =>
    obtain ⟨t, ht, hs⟩ := bind_eq_ok.1 hs
    obtain ⟨groups, hg, -⟩ := map_eq_ok.1 hs
    exact ⟨t, groups, ht, hg, kept_afterAll ht hg outfitting⟩

example : (Tree.ofRecords quad >>= fun t => t.groups.map fun groups =>
    ((accepted groups .empty outfitting).length,
      (afterAll groups .empty outfitting).modules.map (·.name))).toOption = some (3, ["lamp"]) := by
  decide +kernel

end Payload

end Multirotor
