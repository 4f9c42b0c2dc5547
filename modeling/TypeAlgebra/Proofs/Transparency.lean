import TypeAlgebra.Algebra.Difference
import TypeAlgebra.Algebra.Normal
import TypeAlgebra.Proofs.Rules

namespace TypeAlgebra

namespace Run

variable {α : Type}

/-- Where the first run warns of nothing, neither does the second one, and their outcomes are related. -/
def silent : Coupling Run Run where
  rel R run run' := run.warnings = [] → run'.warnings = [] ∧ Coupling.mirrored.rel R run.outcome run'.outcome
  rel_pure h _ := ⟨rfl, Coupling.mirrored.rel_pure h⟩
  rel_bind := by
    rintro α β γ δ R S ⟨_ | a, warnings⟩ ⟨y, warnings'⟩ f g h hf hw
    · obtain ⟨hw', ⟨_, _, hx, _⟩ | ⟨_, hx, rfl⟩⟩ := h hw
      · cases hx
      · cases hx
        exact ⟨hw', .inr ⟨_, rfl, rfl⟩⟩
    · obtain ⟨hw, hfa⟩ := List.append_eq_nil_iff.1 hw
      obtain ⟨hw', ⟨_, b, hx, rfl, hr⟩ | ⟨_, hx, _⟩⟩ := h hw
      · cases hx
        obtain ⟨hgb, hrel⟩ := hf a b hr hfa
        exact ⟨List.append_eq_nil_iff.2 ⟨hw', hgb⟩, hrel⟩
      · cases hx

theorem silent_eq_iff {run run' : Run α} : silent.rel Eq run run' ↔ (run.warnings = [] → run' = run) := by
  constructor
  · intro h hw
    obtain ⟨hw', hrel⟩ := h hw
    rcases run with ⟨outcome, warnings⟩
    rcases run' with ⟨outcome', warnings'⟩
    rw [mk.injEq]
    exact ⟨(Coupling.mirrored_eq_iff.1 hrel).symm, hw'.trans hw.symm⟩
  · intro h hw
    rw [h hw]
    exact ⟨hw, Coupling.mirrored_eq_iff.2 rfl⟩

theorem silent_refl (run : Run α) : silent.rel Eq run run :=
  silent_eq_iff.2 fun _ ↦ rfl

/-- A run that warns is related to every run. -/
theorem silent_warn {β γ : Type} {R : β → γ → Prop} (warning : Warning) (f : Unit → Run β) (run : Run γ) :
    silent.rel R (warn warning >>= f) run := by
  intro hw
  cases (List.append_eq_nil_iff.1 hw).1

end Run

namespace Env

open Run (silent silent_refl)

def unlimited (env : Env) : Env :=
  { env with limit := 0 }

variable {env : Env} {d : Nat} {s t : Ty} {ts : List Ty}

theorem exceeds_unlimited (unions : List (List Ty)) : env.unlimited.exceeds unions = false :=
  rfl

theorem equalTo_unlimited (d : Nat) : env.unlimited.equalTo d = env.equalTo d := by
  induction d with
  | zero => rfl
  | succ d ih =>
    funext s t
    rw [equalTo, equalTo, ih]
    rfl

theorem formTo_unlimited (d : Nat) : env.unlimited.formTo d = env.formTo d := by
  induction d with
  | zero => rfl
  | succ d ih =>
    funext t
    rw [formTo, formTo, ih]
    rfl

theorem orderBy_silent {p q : Ty → Ty → Run Bool} (hp : ∀ a b, silent.rel Eq (p a b) (q a b)) (d : Nat)
    (general : Ordering) (s t : Ty) :
    silent.rel Eq (env.orderBy d p general s t) (env.unlimited.orderBy d q general s t) := by
  have hkey (t : Ty) : env.unlimited.sortKeyTo d t = env.sortKeyTo d t := by
    rw [sortKeyTo, sortKeyTo, formTo_unlimited]
  unfold orderBy
  rw [equalTo_unlimited, hkey, hkey]
  refine silent.rel_test (silent_refl _) (silent.rel_pure rfl) ?_
  refine silent.rel_test (hp t s) (silent.rel_pure rfl) ?_
  exact silent.rel_test (hp s t) (silent.rel_pure rfl) (silent_refl _)

structure Transparent (env : Env) (d : Nat) : Prop where
  subtype : ∀ s t, silent.rel Eq (env.subtypeTo d s t) (env.unlimited.subtypeTo d s t)
  join : ∀ ts, silent.rel Eq (env.joinTo d ts) (env.unlimited.joinTo d ts)
  meet : ∀ ts, silent.rel Eq (env.meetTo d ts) (env.unlimited.meetTo d ts)
  distribute : ∀ t, silent.rel Eq (env.distributeTo d t) (env.unlimited.distributeTo d t)

section Layers

variable (h : env.Transparent d)

include h

theorem Transparent.leftForm (s : Ty) :
    silent.rel Eq (env.leftForm (env.meetTo d) s) (env.unlimited.leftForm (env.unlimited.meetTo d) s) := by
  cases s with
  | inter parts => exact silent.rel_bind_eq (h.meet parts) fun r ↦ silent_refl _
  | _ => exact silent.rel_pure rfl

theorem Transparent.rightForm (t : Ty) :
    silent.rel Eq (env.rightForm (env.joinTo d) t) (env.unlimited.rightForm (env.unlimited.joinTo d) t) := by
  cases t with
  | union parts => exact silent.rel_bind_eq (h.join parts) fun r ↦ silent_refl _
  | _ => exact silent.rel_pure rfl

theorem Transparent.subtype_succ (s t : Ty) :
    silent.rel Eq (env.subtypeTo (d + 1) s t) (env.unlimited.subtypeTo (d + 1) s t) := by
  rw [subtypeTo, subtypeTo, equalTo_unlimited]
  refine silent.rel_bind_eq (silent_refl _) fun s ↦ ?_
  refine silent.rel_bind_eq (silent_refl _) fun t ↦ ?_
  refine silent.rel_bind_eq (h.leftForm s) fun s ↦ ?_
  refine silent.rel_bind_eq (h.rightForm t) fun t ↦ ?_
  refine silent.rel_test (silent_refl _) (silent.rel_pure rfl) ?_
  change silent.rel Eq (if t.isAny || s.isNever then _ else _) (if t.isAny || s.isNever then _ else _)
  refine silent.rel_ite (silent_refl _) ?_
  exact silent.rel_subtypeBy_same (fun a _ ↦ h.subtype a t) (fun b _ ↦ h.subtype s b)
    fun a _ b _ ↦ ⟨h.subtype a b, h.subtype b a⟩

/-- Both canonical constructors drop parts, sort the other ones and distribute what they make of them. -/
theorem Transparent.arrange {p q : Ty → Ty → Run Bool} (hp : ∀ a b, silent.rel Eq (p a b) (q a b))
    (general : Ordering) (build : List Ty → Ty) (parts : List Ty) :
    silent.rel Eq
      (do
        let kept ← prune p parts
        let sorted ← stableSort (env.orderBy d (env.subtypeTo d) general) kept
        env.distributeTo d (build sorted))
      (do
        let kept ← prune q parts
        let sorted ← stableSort (env.unlimited.orderBy d (env.unlimited.subtypeTo d) general) kept
        env.unlimited.distributeTo d (build sorted)) := by
  refine silent.rel_bind_eq (silent.rel_prune_eq hp parts) fun kept ↦ ?_
  refine silent.rel_bind_eq (silent.rel_stableSort_eq (orderBy_silent h.subtype d general) kept) fun sorted ↦ ?_
  exact h.distribute (build sorted)

theorem Transparent.join_succ (ts : List Ty) :
    silent.rel Eq (env.joinTo (d + 1) ts) (env.unlimited.joinTo (d + 1) ts) := by
  rw [joinTo, joinTo]
  exact h.arrange h.subtype .gt Ty.ofAlternatives _

theorem Transparent.meet_succ (ts : List Ty) :
    silent.rel Eq (env.meetTo (d + 1) ts) (env.unlimited.meetTo (d + 1) ts) := by
  rw [meetTo, meetTo]
  exact silent.rel_ite (silent_refl _) (h.arrange (fun a b ↦ h.subtype b a) .lt Ty.ofFactors _)

theorem Transparent.distribute_succ (t : Ty) :
    silent.rel Eq (env.distributeTo (d + 1) t) (env.unlimited.distributeTo (d + 1) t) := by
  cases t with
  | inter parts =>
    rw [distributeTo, distributeTo]
    refine silent.rel_ite (silent_refl _) ?_
    rw [exceeds_unlimited, if_neg Bool.false_ne_true]
    -- This is where the limit counts, and a warning comes with it.
    split
    · exact Run.silent_warn _ _ _
    · refine silent.rel_bind_eq (silent.rel_mapM_eq (fun choice ↦ h.meet _) _) fun disjuncts ↦ ?_
      exact h.join disjuncts
  | _ => exact silent_refl _

end Layers

theorem transparent (env : Env) (d : Nat) : env.Transparent d := by
  induction d with
  | zero => exact ⟨fun _ _ ↦ silent_refl _, fun _ ↦ silent_refl _, fun _ ↦ silent_refl _, fun _ ↦ silent_refl _⟩
  | succ d ih => exact ⟨ih.subtype_succ, ih.join_succ, ih.meet_succ, ih.distribute_succ⟩

theorem subtype_silent (env : Env) (s t : Ty) : silent.rel Eq (env.subtype s t) (env.unlimited.subtype s t) :=
  (env.transparent _).subtype s t

theorem join_silent (env : Env) (ts : List Ty) : silent.rel Eq (env.join ts) (env.unlimited.join ts) :=
  (env.transparent _).join ts

theorem meet_silent (env : Env) (ts : List Ty) : silent.rel Eq (env.meet ts) (env.unlimited.meet ts) :=
  (env.transparent _).meet ts

theorem normalizeEach_silent (h : ∀ t ∈ ts, silent.rel Eq (env.normalize t) (env.unlimited.normalize t)) :
    silent.rel Eq (env.normalizeEach ts) (env.unlimited.normalizeEach ts) := by
  induction ts with
  | nil => exact silent_refl _
  | cons t ts ih =>
    obtain ⟨ht, hts⟩ := List.forall_mem_cons.1 h
    refine silent.rel_bind_eq ht fun r ↦ ?_
    exact silent.rel_bind_eq (ih hts) fun rs ↦ silent_refl _

theorem normalize_silent (env : Env) (t : Ty) : silent.rel Eq (env.normalize t) (env.unlimited.normalize t) := by
  induction t using Ty.induction_children with
  | step t ih =>
    cases t with
    | union parts =>
      rw [normalize, normalize]
      exact silent.rel_bind_eq (normalizeEach_silent ih) env.join_silent
    | inter parts =>
      rw [normalize, normalize]
      exact silent.rel_bind_eq (normalizeEach_silent ih) env.meet_silent
    | proc params result =>
      rw [normalize, normalize]
      refine silent.rel_bind_eq (normalizeEach_silent fun s hs ↦ ih s (List.mem_append_left _ hs)) fun rs ↦ ?_
      exact silent.rel_bind_eq (ih result (by simp [Ty.children])) fun r ↦ silent_refl _
    | tuple elems =>
      rw [normalize, normalize]
      exact silent.rel_bind_eq (normalizeEach_silent ih) fun rs ↦ silent_refl _
    | pred inner =>
      rw [normalize, normalize]
      exact silent.rel_bind_eq (ih inner List.mem_cons_self) fun r ↦ silent_refl _
    | _ =>
      rw [normalize, normalize]
      exact silent_refl _

theorem unrelated_silent (env : Env) (ts : List Ty) :
    silent.rel Eq (env.unrelated ts) (env.unlimited.unrelated ts) := by
  induction ts with
  | nil => exact silent_refl _
  | cons s rest ih =>
    rw [unrelated, unrelated]
    refine silent.rel_test (silent.rel_anyM (List.forall₂_same.2 fun t _ ↦ ?_)) (silent.rel_pure rfl) ih
    exact silent.rel_test (env.subtype_silent s t) (silent.rel_pure rfl) (env.subtype_silent t s)

theorem isUnrelatedInter_silent (env : Env) (t : Ty) :
    silent.rel Eq (env.isUnrelatedInter t) (env.unlimited.isUnrelatedInter t) := by
  cases t with
  | inter parts =>
    rw [isUnrelatedInter, isUnrelatedInter]
    exact silent.rel_ite (silent_refl _) (env.unrelated_silent parts)
  | _ => exact silent_refl _

theorem withoutSubtypes_silent (env : Env) (t : Ty) (parts : List Ty) :
    silent.rel Eq (env.withoutSubtypes t parts) (env.unlimited.withoutSubtypes t parts) :=
  silent.rel_filterM_eq (fun part ↦ silent.rel_bind_eq (env.subtype_silent part t) fun _ ↦ silent_refl _) parts

theorem diffTo_silent (env : Env) (d : Nat) (s t : Ty) :
    silent.rel Eq (env.diffTo d s t) (env.unlimited.diffTo d s t) := by
  induction d generalizing s t with
  | zero => exact silent_refl _
  | succ d ih =>
    rw [diffTo, diffTo]
    refine silent.rel_bind_eq (silent_refl _) fun s ↦ ?_
    refine silent.rel_bind_eq (silent_refl _) fun t ↦ ?_
    have hequal : env.unlimited.equal s t = env.equal s t := congrFun₂ (equalTo_unlimited _) s t
    rw [hequal]
    refine silent.rel_bind_eq (silent_refl _) fun b ↦ silent.rel_ite (silent_refl _) ?_
    refine silent.rel_ite (silent_refl _) (silent.rel_ite (silent_refl _) ?_)
    refine silent.rel_bind_eq (env.isUnrelatedInter_silent t) fun b ↦ silent.rel_ite (silent_refl _) ?_
    cases s with
    | union parts => exact silent.rel_bind_eq (env.withoutSubtypes_silent t parts) env.join_silent
    | inter parts => exact silent.rel_bind_eq (env.withoutSubtypes_silent t parts) env.meet_silent
    | _ =>
      cases t with
      | union parts => exact silent.rel_bind_eq (ih _ _) fun r ↦ env.meet_silent _
      | inter parts => exact silent.rel_bind_eq (silent.rel_mapM_eq (ih _) parts) env.join_silent
      | _ => exact silent.rel_bind_eq (env.subtype_silent _ _) fun b ↦ silent_refl _

/--
What warns of nothing is the same without a limit: every canonical union, intersection and normal form, every
difference, every subtype test and every comparison.
-/
theorem eq_unlimited_of_silent (env : Env) :
    (∀ ts, (env.join ts).warnings = [] → env.unlimited.join ts = env.join ts) ∧
      (∀ ts, (env.meet ts).warnings = [] → env.unlimited.meet ts = env.meet ts) ∧
      (∀ t, (env.normalize t).warnings = [] → env.unlimited.normalize t = env.normalize t) ∧
      (∀ s t, (env.diff s t).warnings = [] → env.unlimited.diff s t = env.diff s t) ∧
      (∀ s t, (env.subtype s t).warnings = [] → env.unlimited.subtype s t = env.subtype s t) ∧
      ∀ s t, (env.order s t).warnings = [] → env.unlimited.order s t = env.order s t := by
  simp only [← Run.silent_eq_iff]
  refine ⟨env.join_silent, env.meet_silent, env.normalize_silent, ?_, env.subtype_silent, ?_⟩
  · intro s t
    exact env.diffTo_silent (env.depth [s, t]) s t
  · intro s t
    exact orderBy_silent env.subtype_silent (env.depth [s, t]) .gt s t

/-- A limit of two leaves two alternatives alone; a limit of one warns of them, and changes the intersection. -/
theorem eq_unlimited_of_silent_two_alternatives :
    let parts : List Ty := [.union [.atomic .number, .atomic .string], .var ⟨"T", none⟩]
    (Env.mk [] 2).unlimited.meet parts = (Env.mk [] 2).meet parts ∧
      ((Env.mk [] 1).meet parts).warnings ≠ [] ∧
      ((Env.mk [] 1).unlimited.meet parts).outcome ≠ ((Env.mk [] 1).meet parts).outcome := by
  intro parts
  have hsilent : ((Env.mk [] 2).meet parts).warnings = [] := by decide +kernel
  obtain ⟨-, hmeet, -⟩ := eq_unlimited_of_silent ⟨[], 2⟩
  exact ⟨hmeet parts hsilent, by decide +kernel, by decide +kernel⟩

end Env

end TypeAlgebra
