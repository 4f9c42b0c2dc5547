import TypeAlgebra.Algebra.Difference
import TypeAlgebra.Proofs.CanonicalForm

namespace TypeAlgebra

namespace Env

variable {env : Env} {s t : Ty} {ts parts : List Ty}

def Free (env : Env) (t : Ty) : Prop :=
  ∀ v ∈ t.vars, env.cells.contents v = .ok none

instance (env : Env) (t : Ty) : Decidable (env.Free t) :=
  inferInstanceAs (Decidable (∀ v ∈ t.vars, env.cells.contents v = .ok none))

theorem Free.of_vars (ht : env.Free t) (h : s.vars ⊆ t.vars) : env.Free s :=
  fun v hv ↦ ht v (h hv)

theorem Free.child (ht : env.Free t) (h : s ∈ t.children) : env.Free s :=
  ht.of_vars fun _ ↦ Ty.mem_vars_of_child h

theorem free_atomic (env : Env) (kind : Kind) : env.Free (.atomic kind) :=
  nofun

theorem free_union : env.Free (.union ts) ↔ ∀ t ∈ ts, env.Free t := by
  constructor
  · exact fun h t ht ↦ h.child ht
  · intro h v hv
    obtain ⟨t, ht, hvt⟩ := Ty.mem_varsEach.1 hv
    exact h t ht v hvt

theorem free_inter : env.Free (.inter ts) ↔ ∀ t ∈ ts, env.Free t :=
  free_union

theorem Free.resolved (ht : env.Free t) : env.Resolved t := by
  rintro v rfl
  exact ht v (List.mem_singleton_self v)

/-- A type without bound variables reaches its own variables only. -/
theorem Free.mem_vars {v : Var} (ht : env.Free t) (h : env.Reaches t v) : v ∈ t.vars := by
  obtain ⟨u, hu, hl⟩ := h
  rcases hl.cases_head with rfl | ⟨w, ⟨c, hc, -⟩, -⟩
  · exact hu
  · cases (ht u hu).symm.trans hc

theorem Free.not_binds {v : Var} {u : Ty} (ht : env.Free t) (h : env.Reaches t v) : ¬env.Binds v u :=
  fun hb ↦ nomatch (ht v (ht.mem_vars h)).symm.trans hb

theorem Free.founded (ht : env.Free t) : env.Founded t where
  owned v hv := ⟨none, ht v (ht.mem_vars hv)⟩
  acyclic _ _ hv hb := absurd hb (ht.not_binds hv)

theorem Free.sound (ht : env.Free t) (hw : t.Whole) : env.Sound t where
  toFounded := ht.founded
  whole := hw
  contents _ _ hv hb := absurd hb (ht.not_binds hv)

theorem Free.deref (ht : env.Free t) : env.deref t = .ok t := by
  have h := (resolved_spec ht.founded).1
  rwa [ht.resolved.resolved_eq] at h

theorem Free.joined (h : ∀ t ∈ ts, env.Free t) : env.Free (env.joined ts) :=
  (free_union.2 h).of_vars (joinTo_ample (free_union.2 h).founded).1.vars

theorem Free.met (h : ∀ t ∈ ts, env.Free t) : env.Free (env.met ts) :=
  (free_inter.2 h).of_vars (meetTo_ample (free_inter.2 h).founded).1.vars

/-- A canonical type without bound variables. -/
structure Settled (env : Env) (t : Ty) : Prop where
  free : env.Free t
  whole : t.Whole
  canonical : env.Canonical t

theorem Settled.sound (ht : env.Settled t) : env.Sound t :=
  ht.free.sound ht.whole

theorem Settled.founded (ht : env.Settled t) : env.Founded t :=
  ht.free.founded

theorem Settled.child (ht : env.Settled t) (h : s ∈ t.children) : env.Settled s :=
  ⟨ht.free.child h, ht.whole.child h, ht.canonical.child h⟩

theorem Settled.unionParts_sifted (h : env.Settled (.union parts)) : env.Sifted parts :=
  ((unionParts_iff fun _ hp ↦ (h.child hp).sound).1 h.canonical.unionParts).2.2

theorem Settled.interParts_sifted (h : env.Settled (.inter parts)) : env.Sifted parts :=
  ((interParts_iff fun _ hp ↦ (h.child hp).sound).1 h.canonical.interParts).2.2.1

theorem settled_atomic (env : Env) (kind : Kind) : env.Settled (.atomic kind) :=
  ⟨nofun, Ty.whole_atomic kind, canonical_atomic env kind⟩

theorem Settled.joined (h : ∀ t ∈ ts, env.Settled t) : env.Settled (env.joined ts) := by
  have hs : ∀ t ∈ ts, env.Sound t := fun t ht ↦ (h t ht).sound
  obtain ⟨hsound, hcanon⟩ := joined_canonical hs fun t ht ↦ (h t ht).canonical
  exact ⟨.joined fun t ht ↦ (h t ht).free, hsound.whole, hcanon⟩

theorem Settled.met (h : ∀ t ∈ ts, env.Settled t) : env.Settled (env.met ts) := by
  have hs : ∀ t ∈ ts, env.Sound t := fun t ht ↦ (h t ht).sound
  obtain ⟨hsound, hcanon⟩ := met_canonical hs fun t ht ↦ (h t ht).canonical
  exact ⟨.met fun t ht ↦ (h t ht).free, hsound.whole, hcanon⟩

theorem subtype_ends (hs : env.Founded s) (ht : env.Founded t) :
    (env.subtype s t).Ends fun _ ↦ True :=
  ⟨_, subtype_eq hs ht, trivial⟩

theorem anyM_ends {α : Type} {as : List α} {p : α → Run Bool}
    (h : ∀ a ∈ as, (p a).Ends fun _ ↦ True) : (as.anyM p).Ends fun _ ↦ True := by
  induction as with
  | nil => exact .pure trivial
  | cons a as ih =>
    refine (h a List.mem_cons_self).bind fun b _ ↦ ?_
    cases b
    · exact ih fun b hb ↦ h b (List.mem_cons_of_mem a hb)
    · exact .pure trivial

theorem unrelated_ends (h : ∀ p ∈ parts, env.Founded p) :
    (env.unrelated parts).Ends fun _ ↦ True := by
  induction parts with
  | nil => exact .pure trivial
  | cons s rest ih =>
    have hs := h s List.mem_cons_self
    have hrest : ∀ p ∈ rest, env.Founded p := fun p hp ↦ h p (List.mem_cons_of_mem s hp)
    refine (anyM_ends fun t ht ↦ ?_).bind fun b _ ↦ ?_
    · refine (subtype_ends hs (hrest t ht)).bind fun b _ ↦ ?_
      cases b
      · exact subtype_ends (hrest t ht) hs
      · exact .pure trivial
    · cases b
      · exact ih hrest
      · exact .pure trivial

theorem isUnrelatedInter_ends (ht : env.Founded t) :
    (env.isUnrelatedInter t).Ends fun _ ↦ True := by
  cases t with
  | inter parts =>
    rw [isUnrelatedInter]
    split
    · exact .pure trivial
    · exact unrelated_ends fun p hp ↦ ht.child hp
  | _ => exact .pure trivial

theorem filterM_decided {α : Type} {as : List α} {p : α → Run Bool} {q : α → Bool}
    (h : ∀ a ∈ as, (p a).outcome = .ok (q a)) : (as.filterM p).outcome = .ok (as.filter q) := by
  have loop (kept : List α) :
      (List.filterAuxM p as kept).outcome = .ok ((as.filter q).reverse ++ kept) := by
    induction as generalizing kept with
    | nil => rfl
    | cons a as ih =>
      obtain ⟨ha, has⟩ := List.forall_mem_cons.1 h
      have hstep : (List.filterAuxM p (a :: as) kept).outcome =
          (List.filterAuxM p as (cond (q a) (a :: kept) kept)).outcome := by
        rw [List.filterAuxM, Run.outcome_bind, ha]
        rfl
      rw [hstep, ih has]
      cases hq : q a <;> simp [hq]
  rw [List.filterM, Run.outcome_bind, loop]
  simp [bind, Except.bind, Run.outcome_pure]

theorem withoutSubtypes_eq (ht : env.Founded t) (h : ∀ p ∈ parts, env.Founded p) :
    (env.withoutSubtypes t parts).outcome = .ok (parts.filter (!env.below · t)) := by
  refine filterM_decided fun p hp ↦ ?_
  rw [Run.outcome_bind, subtype_eq (h p hp) ht]
  rfl

theorem withoutSubtypes_ends (ht : env.Founded t) (h : ∀ p ∈ parts, env.Founded p) :
    (env.withoutSubtypes t parts).Ends (∀ r ∈ ·, r ∈ parts) :=
  ⟨_, withoutSubtypes_eq ht h, fun _ hr ↦ (List.mem_filter.1 hr).1⟩

theorem mapM_ends {α : Type} {P : Ty → Prop} {as : List α} {f : α → Run Ty} (h : ∀ a ∈ as, (f a).Ends P) :
    (as.mapM f).Ends (∀ r ∈ ·, P r) := by
  induction as with
  | nil => exact .pure nofun
  | cons a as ih =>
    rw [List.mapM_cons]
    refine (h a List.mem_cons_self).bind fun r hr ↦ ?_
    refine (ih fun b hb ↦ h b (List.mem_cons_of_mem a hb)).bind fun rs hrs ↦ .pure ?_
    exact List.forall_mem_cons.2 ⟨hr, hrs⟩

structure Inherited (env : Env) (P : Ty → Prop) : Prop where
  founded : ∀ {t}, P t → env.Founded t
  resolved : ∀ {t}, P t → P (env.resolved t)
  child : ∀ {s t}, P t → s ∈ t.children → P s
  atomic : ∀ kind, P (.atomic kind)
  joined : ∀ {ts}, (∀ t ∈ ts, P t) → P (env.joined ts)
  met : ∀ {ts}, (∀ t ∈ ts, P t) → P (env.met ts)

theorem settled_inherited (env : Env) : env.Inherited env.Settled where
  founded := Settled.founded
  resolved ht := by rwa [ht.free.resolved.resolved_eq]
  child := Settled.child
  atomic := settled_atomic env
  joined := .joined
  met := .met

theorem founded_inherited (env : Env) : env.Inherited env.Founded where
  founded := id
  resolved := .resolved
  child := .child
  atomic kind := (free_atomic env kind).founded
  joined h := (founded_union.2 h).joined
  met h := (founded_inter.2 h).met

def Simple (t : Ty) : Prop :=
  (∀ parts, t ≠ .union parts) ∧ ∀ parts, t ≠ .inter parts

section Inherited

variable {P : Ty → Prop} (hP : env.Inherited P)

include hP

theorem Inherited.join (h : ∀ t ∈ ts, P t) : (env.join ts).Ends P :=
  ⟨_, join_eq (founded_union.2 fun t ht ↦ hP.founded (h t ht)), hP.joined h⟩

theorem Inherited.meet (h : ∀ t ∈ ts, P t) : (env.meet ts).Ends P :=
  ⟨_, meet_eq (founded_inter.2 fun t ht ↦ hP.founded (h t ht)), hP.met h⟩

/-- One layer of a difference, over the differences that it asks for. -/
theorem Inherited.diffTo_succ {d : Nat} (hs : P s) (ht : P t)
    (hflip : Simple (env.resolved s) → ∀ parts, env.resolved t = .union parts →
      (env.diffTo d (.union parts) (env.resolved s)).Ends P)
    (heach : Simple (env.resolved s) → ∀ parts, env.resolved t = .inter parts →
      ∀ p ∈ parts, (env.diffTo d (env.resolved s) p).Ends P) :
    (env.diffTo (d + 1) s t).Ends P := by
  have lift {α : Type} {x : Except Fault α} {a : α} (h : x = .ok a) : (liftM x : Run α).Ends (· = a) :=
    ⟨a, h, rfl⟩
  have hsr := hP.resolved hs
  have htr := hP.resolved ht
  have hfs := hP.founded hsr
  have hft := hP.founded htr
  rw [diffTo]
  refine (lift (resolved_spec (hP.founded hs)).1).bind ?_
  rintro s rfl
  refine (lift (resolved_spec (hP.founded ht)).1).bind ?_
  rintro t rfl
  refine (lift (equal_eq hfs hft)).bind fun _ _ ↦ ?_
  refine .ite (.pure (hP.atomic _)) (.ite (.pure (hP.atomic _)) (.ite (.pure hsr) ?_))
  refine (isUnrelatedInter_ends hft).bind fun _ _ ↦ .ite (.pure hsr) ?_
  generalize env.resolved s = s, env.resolved t = t at *
  split
  · refine (withoutSubtypes_ends hft fun p hp ↦ hfs.child hp).bind fun rs hrs ↦ ?_
    exact hP.join fun r hr ↦ hP.child hsr (hrs r hr)
  · refine (withoutSubtypes_ends hft fun p hp ↦ hfs.child hp).bind fun rs hrs ↦ ?_
    exact hP.meet fun r hr ↦ hP.child hsr (hrs r hr)
  · next hu hi _ =>
    refine (hflip ⟨hu, hi⟩ _ rfl).bind fun r hr ↦ hP.meet ?_
    simpa using ⟨hsr, hr⟩
  · next hu hi _ =>
    exact (mapM_ends (heach ⟨hu, hi⟩ _ rfl)).bind fun rs hrs ↦ hP.join hrs
  · refine (subtype_ends hfs hft).bind fun _ _ ↦ ?_
    exact .ite (.pure (hP.atomic _)) (.pure hsr)

/-- Once a union stands on the left no further difference is asked for. -/
theorem Inherited.diffTo_union {d : Nat} (hs : P (.union parts)) (ht : P t) :
    (env.diffTo (d + 1) (.union parts) t).Ends P :=
  hP.diffTo_succ hs ht (fun h ↦ absurd rfl (h.1 parts)) fun h ↦ absurd rfl (h.1 parts)

/-- Only the parts of an intersection on the right are gone into, and a union there changes sides. -/
theorem Inherited.diffTo {d : Nat} (hs : P s) (ht : P t) (hd : env.rank t < d) : (env.diffTo d s t).Ends P := by
  induction d generalizing s t with
  | zero => exact absurd hd (Nat.not_lt_zero _)
  | succ d ih =>
    refine hP.diffTo_succ hs ht ?_ ?_
    · intro _ parts he
      have := rank_pos env t
      obtain ⟨d, rfl⟩ := Nat.exists_eq_add_of_le' (show 1 ≤ d by omega)
      exact hP.diffTo_union (he ▸ hP.resolved ht) (hP.resolved hs)
    · intro _ parts he p hp
      have hp : p ∈ (env.resolved t).children := he ▸ hp
      have hrank := (rank_lt_of_child env hp).trans_le (resolved_spec (hP.founded ht)).2.2.2
      exact ih (hP.resolved hs) (hP.child (hP.resolved ht) hp) (by omega)

theorem Inherited.diff (hs : P s) (ht : P t) : (env.diff s t).Ends P :=
  hP.diffTo hs ht (rank_lt_depth (List.mem_cons_of_mem s List.mem_cons_self))

end Inherited

theorem diffTo_founded {d : Nat} (hs : env.Founded s) (ht : env.Founded t) (hd : env.rank t < d) :
    (env.diffTo d s t).Ends env.Founded :=
  (founded_inherited env).diffTo hs ht hd

theorem diff_settled (hs : env.Settled s) (ht : env.Settled t) : (env.diff s t).Ends env.Settled :=
  (settled_inherited env).diff hs ht

end Env

end TypeAlgebra
