import TypeAlgebra.Proofs.NameMatching

namespace TypeAlgebra

namespace Run

variable {α β : Type} {P : α → Prop} {Q : β → Prop}

def Yields (P : α → Prop) (run : Run α) : Prop :=
  ∀ a, run.outcome = .ok a → P a

theorem Yields.pure {a : α} (h : P a) : Yields P (Pure.pure a) := by
  rintro _ ⟨⟩
  exact h

theorem Yields.bind {run : Run α} {f : α → Run β} (h : run.Yields P) (hf : ∀ a, P a → (f a).Yields Q) :
    (run >>= f).Yields Q := by
  intro b hb
  rw [outcome_bind] at hb
  cases ho : run.outcome with
  | error e =>
    rw [ho] at hb
    cases hb
  | ok a =>
    rw [ho] at hb
    exact hf a (h a ho) b hb

theorem Yields.ite {b : Bool} {run run' : Run α} (h : run.Yields P) (h' : run'.Yields P) :
    (if b then run else run').Yields P := by
  cases b
  · exact h'
  · exact h

theorem yields_true (run : Run α) : run.Yields fun _ ↦ True :=
  fun _ _ ↦ trivial

def yielding : Coupling Run Run where
  rel R run _ := run.Yields fun a ↦ ∃ b, R a b
  rel_pure h := .pure ⟨_, h⟩
  rel_bind h hf := by
    refine h.bind ?_
    rintro a ⟨b, hab⟩
    exact hf a b hab

theorem yielding_eq (run run' : Run α) : yielding.rel Eq run run' :=
  fun a _ ↦ ⟨a, rfl⟩

theorem Yields.of_yielding {as : List α} {run run' : Run (List α)}
    (h : yielding.rel (List.Forall₂ fun a b ↦ a ∈ as ∧ a = b) run run') : run.Yields (∀ a ∈ ·, a ∈ as) := by
  intro rs hrs
  obtain ⟨bs, hbs⟩ := h rs hrs
  exact ((List.forall₂_and_left _ _).1 hbs).1

theorem prune_yields (p : α → α → Run Bool) (as : List α) : (prune p as).Yields (∀ a ∈ ·, a ∈ as) :=
  .of_yielding (yielding.rel_prune (q := p) (fun _ _ _ _ _ _ ↦ yielding_eq _ _)
    (List.forall₂_same.2 fun _ ha ↦ ⟨ha, rfl⟩))

theorem stableSort_yields (p : α → α → Run Ordering) (as : List α) :
    (stableSort p as).Yields (∀ a ∈ ·, a ∈ as) :=
  .of_yielding (yielding.rel_stableSort (q := p) (fun _ _ _ _ _ _ ↦ yielding_eq _ _)
    (List.forall₂_same.2 fun _ ha ↦ ⟨ha, rfl⟩))

theorem mapM_yields {as : List α} {f : α → Run β} (h : ∀ a ∈ as, (f a).Yields Q) :
    (as.mapM f).Yields (∀ b ∈ ·, Q b) := by
  induction as with
  | nil => exact .pure (List.forall_mem_nil _)
  | cons a as ih =>
    obtain ⟨ha, has⟩ := List.forall_mem_cons.1 h
    rw [List.mapM_cons]
    exact ha.bind fun b hb ↦ (ih has).bind fun bs hbs ↦ .pure (List.forall_mem_cons.2 ⟨hb, hbs⟩)

end Run

namespace Ty

mutual

/-- What a type is made of by unions and intersections, to any depth. -/
def constituents : Ty → List Ty
  | union parts => constituentsEach parts
  | inter parts => constituentsEach parts
  | t => [t]

def constituentsEach : List Ty → List Ty
  | [] => []
  | t :: ts => t.constituents ++ constituentsEach ts

end

def Made (Q : Ty → Prop) (t : Ty) : Prop :=
  ∀ s ∈ t.constituents, s = any ∨ s = never ∨ Q s

variable {Q : Ty → Prop} {s t : Ty} {ts parts : List Ty}

theorem mem_constituentsEach : s ∈ constituentsEach ts ↔ ∃ t ∈ ts, s ∈ t.constituents := by
  induction ts with
  | nil => simp [constituentsEach]
  | cons t ts ih => simp [constituentsEach, ih]

theorem made_union : (union parts).Made Q ↔ ∀ p ∈ parts, p.Made Q := by
  simp only [Made, constituents, mem_constituentsEach]
  grind

theorem made_inter : (inter parts).Made Q ↔ ∀ p ∈ parts, p.Made Q :=
  made_union

theorem made_any : any.Made Q :=
  List.forall_mem_singleton.2 (.inl rfl)

theorem made_never : never.Made Q :=
  List.forall_mem_singleton.2 (.inr (.inl rfl))

theorem Made.alternativesEach (h : ∀ t ∈ ts, t.Made Q) : ∀ p ∈ alternativesEach ts, p.Made Q := by
  intro p hp
  obtain ⟨t, ht, hpt⟩ := mem_alternativesEach.1 hp
  exact alternative_of_part (fun h hs ↦ made_union.1 h _ hs) (h t ht) hpt

theorem Made.factorsEach (h : ∀ t ∈ ts, t.Made Q) : ∀ p ∈ factorsEach ts, p.Made Q := by
  intro p hp
  obtain ⟨t, ht, hpt⟩ := mem_factorsEach.1 hp
  exact factor_of_part (fun h hs ↦ made_inter.1 h _ hs) (h t ht) hpt

theorem Made.choice {choice : List Ty} (h : ∀ p ∈ parts, p.Made Q) (hc : choice ∈ choices (unionsIn parts)) :
    ∀ p ∈ choice ++ othersIn parts, p.Made Q := by
  intro p hp
  rcases mem_choice hc hp with hp | ⟨us, hus, hp⟩
  · exact h p hp
  · exact made_union.1 (h _ hus) p hp

end Ty

namespace Env

variable {env : Env} {Q : Ty → Prop} {r s t : Ty} {ts : List Ty} {d : Nat}

structure Rearranges (env : Env) (Q : Ty → Prop) (d : Nat) : Prop where
  join : ∀ {ts}, (∀ t ∈ ts, t.Made Q) → (env.joinTo d ts).Yields (Ty.Made Q)
  meet : ∀ {ts}, (∀ t ∈ ts, t.Made Q) → (env.meetTo d ts).Yields (Ty.Made Q)
  distribute : ∀ {t}, t.Made Q → (env.distributeTo d t).Yields (Ty.Made Q)

theorem Rearranges.join_succ (h : env.Rearranges Q d) (hts : ∀ t ∈ ts, t.Made Q) :
    (env.joinTo (d + 1) ts).Yields (Ty.Made Q) := by
  rw [joinTo]
  refine (Run.prune_yields _ _).bind fun kept hkept ↦ ?_
  refine (Run.stableSort_yields _ _).bind fun sorted hsorted ↦ ?_
  refine h.distribute (Ty.ofAlternatives_closed Ty.made_any Ty.made_never Ty.made_union.2 fun p hp ↦ ?_)
  exact Ty.Made.alternativesEach hts p (List.mem_filter.1 (hkept p (hsorted p hp))).1

theorem Rearranges.meet_succ (h : env.Rearranges Q d) (hts : ∀ t ∈ ts, t.Made Q) :
    (env.meetTo (d + 1) ts).Yields (Ty.Made Q) := by
  rw [meetTo]
  refine .ite (.pure Ty.made_never) ?_
  refine (Run.prune_yields _ _).bind fun kept hkept ↦ ?_
  refine (Run.stableSort_yields _ _).bind fun sorted hsorted ↦ ?_
  refine h.distribute (Ty.ofFactors_closed Ty.made_any Ty.made_inter.2 fun p hp ↦ ?_)
  exact Ty.Made.factorsEach hts p (List.mem_filter.1 (hkept p (hsorted p hp))).1

theorem Rearranges.distribute_succ (h : env.Rearranges Q d) (ht : t.Made Q) :
    (env.distributeTo (d + 1) t).Yields (Ty.Made Q) := by
  cases t with
  | inter parts =>
    rw [distributeTo]
    refine .ite (.pure ht) (.ite ((Run.yields_true _).bind fun _ _ ↦ .pure ht) ?_)
    refine (Run.mapM_yields fun choice hc ↦ ?_).bind fun disjuncts hd ↦ h.join hd
    exact h.meet (Ty.Made.choice (Ty.made_inter.1 ht) hc)
  | _ => exact .pure ht

theorem rearranges (env : Env) (Q : Ty → Prop) (d : Nat) : env.Rearranges Q d := by
  induction d with
  | zero => exact ⟨fun _ _ ↦ nofun, fun _ _ ↦ nofun, fun _ _ ↦ nofun⟩
  | succ d ih => exact ⟨ih.join_succ, ih.meet_succ, ih.distribute_succ⟩

/-- The variables in what a type stands for are those in what its own variables stand for. -/
theorem mem_vars_substituted {w : Var} (ht : env.Founded t) :
    w ∈ (env.substituted t).vars ↔ ∃ v ∈ t.vars, w ∈ (env.substituted (.var v)).vars := by
  induction t using Ty.induction_children with
  | step t ih =>
    cases hv : t.isVar with
    | true =>
      cases t <;> cases hv
      simp [Ty.vars]
    | false =>
      have hne (v : Var) : t.mapChildren env.substituted ≠ .var v := by
        cases t <;> first | exact Ty.noConfusion | cases hv
      have hne' (v : Var) : t ≠ .var v := by
        rintro rfl
        cases hv
      rw [substituted_of_not_var ht hv, Ty.mem_vars_iff, Ty.children_mapChildren]
      simp only [hne, false_or, List.mem_map, exists_exists_and_eq_and]
      constructor
      · rintro ⟨c, hc, hw⟩
        obtain ⟨v, hvc, hw⟩ := (ih c hc (ht.child hc)).1 hw
        exact ⟨v, Ty.mem_vars_of_child hc hvc, hw⟩
      · rintro ⟨v, hvt, hw⟩
        obtain ⟨c, hc, hvc⟩ := (Ty.mem_vars_iff.1 hvt).resolve_left (hne' v)
        exact ⟨c, hc, (ih c hc (ht.child hc)).2 ⟨v, hvc, hw⟩⟩

/-- A type in which only variables are free that are so in one of the given types. -/
structure Within (env : Env) (given : List Ty) (t : Ty) : Prop where
  founded : env.Founded t
  vars : ∀ w ∈ (env.substituted t).vars, ∃ g ∈ given, w ∈ (env.substituted g).vars

variable {given : List Ty}

theorem Within.of_vars (hts : ∀ t ∈ ts, env.Within given t) (h : r.vars ⊆ (Ty.union ts).vars) :
    env.Within given r := by
  have hr : env.Founded r := (founded_union.2 fun t ht ↦ (hts t ht).founded).of_vars h
  refine ⟨hr, fun w hw ↦ ?_⟩
  obtain ⟨v, hv, hw⟩ := (mem_vars_substituted hr).1 hw
  obtain ⟨t, ht, hvt⟩ := Ty.mem_varsEach.1 (h hv)
  exact (hts t ht).vars w ((mem_vars_substituted (hts t ht).founded).2 ⟨v, hvt, hw⟩)

theorem within_self (hg : ∀ g ∈ given, env.Founded g) (h : t ∈ given) : env.Within given t :=
  ⟨hg t h, fun _ hw ↦ ⟨t, h, hw⟩⟩

theorem within_of_children (hv : t.isVar = false) (h : ∀ s ∈ t.children, env.Within given s) :
    env.Within given t := by
  refine .of_vars h fun v hvt ↦ ?_
  rcases Ty.mem_vars_iff.1 hvt with he | hvc
  · rw [he] at hv
    cases hv
  · exact Ty.mem_varsEach.2 hvc

theorem within_inherited (env : Env) (given : List Ty) : env.Inherited (env.Within given) where
  founded := Within.founded
  resolved ht := ⟨ht.founded.resolved, (substituted_resolved ht.founded).symm ▸ ht.vars⟩
  child ht hs := .of_vars (List.forall_mem_singleton.2 ht) fun _ hv ↦
    Ty.mem_varsEach.2 ⟨_, List.mem_singleton_self _, Ty.mem_vars_of_child hs hv⟩
  atomic _ := within_of_children rfl (List.forall_mem_nil _)
  joined h := .of_vars h (joinTo_ample (founded_union.2 fun t ht ↦ (h t ht).founded)).1.vars
  met h := .of_vars h (meetTo_ample (founded_inter.2 fun t ht ↦ (h t ht).founded)).1.vars

def NamesFrom (env : Env) (given : List Ty) (t : Ty) : Prop :=
  ∃ names, env.freeNames t = .ok names ∧
    ∀ n ∈ names, ∃ g ∈ given, ∃ names', env.freeNames g = .ok names' ∧ n ∈ names'

theorem Within.namesFrom (hg : ∀ g ∈ given, env.Founded g) (h : env.Within given t) :
    env.NamesFrom given t := by
  obtain ⟨names, hnames, hmem⟩ := exists_freeNames h.founded
  refine ⟨names, hnames, fun n hn ↦ ?_⟩
  obtain ⟨w, hw, hwn⟩ := (hmem n).1 hn
  obtain ⟨g, hgm, hwg⟩ := h.vars w hw
  obtain ⟨names', hnames', hmem'⟩ := exists_freeNames (hg g hgm)
  exact ⟨g, hgm, names', hnames', (hmem' n).2 ⟨w, hwg, hwn⟩⟩

structure Drawn (env : Env) (given : List Ty) (t : Ty) : Prop where
  names : env.NamesFrom given t
  made : t.Made fun c ↦ ∃ g ∈ given, c ∈ g.constituents

theorem made_self (h : t ∈ given) : t.Made fun c ↦ ∃ g ∈ given, c ∈ g.constituents :=
  fun _ hc ↦ .inr (.inr ⟨t, h, hc⟩)

theorem join_drawn (hts : ∀ t ∈ ts, env.Founded t) : (env.join ts).Ends (env.Drawn ts) := by
  obtain ⟨r, hr, hw⟩ := (within_inherited env ts).join fun t ht ↦ within_self hts ht
  exact ⟨r, hr, hw.namesFrom hts, (env.rearranges _ _).join (fun t ht ↦ made_self ht) r hr⟩

theorem meet_drawn (hts : ∀ t ∈ ts, env.Founded t) : (env.meet ts).Ends (env.Drawn ts) := by
  obtain ⟨r, hr, hw⟩ := (within_inherited env ts).meet fun t ht ↦ within_self hts ht
  exact ⟨r, hr, hw.namesFrom hts, (env.rearranges _ _).meet (fun t ht ↦ made_self ht) r hr⟩

/--
Under any limit, what join and meet return has no free name that none of their arguments has, and it is made by
unions and intersections of what these are made of, of `any` and of `never`. Normalizing a type adds no free
name, and those of a difference are free on its left or on its right.
-/
theorem nothing_invented (hts : ∀ t ∈ ts, env.Founded t) (hs : env.Founded s) (ht : env.Founded t) :
    (env.join ts).Ends (env.Drawn ts) ∧ (env.meet ts).Ends (env.Drawn ts) ∧
      (env.normalize t).Ends (env.NamesFrom [t]) ∧ (env.diff s t).Ends (env.NamesFrom [s, t]) := by
  have hone : ∀ g ∈ [t], env.Founded g := List.forall_mem_singleton.2 ht
  have htwo : ∀ g ∈ [s, t], env.Founded g := List.forall_mem_cons.2 ⟨hs, hone⟩
  refine ⟨join_drawn hts, meet_drawn hts, ?_, ?_⟩
  · obtain ⟨r, hr, hw⟩ := (within_inherited env [t]).normalize within_of_children
      (within_self hone (List.mem_singleton_self t))
    exact ⟨r, hr, hw.namesFrom hone⟩
  · obtain ⟨r, hr, hw⟩ := (within_inherited env [s, t]).diff (within_self htwo List.mem_cons_self)
      (within_self htwo (List.mem_cons_of_mem s List.mem_cons_self))
    exact ⟨r, hr, hw.namesFrom htwo⟩

-- `x` is bound to a union, and the limit is too low to distribute over two unions.
def boundUnion : Env :=
  ⟨[⟨"x", some (.union [.var ⟨"y", some 1⟩, .atomic .number])⟩, ⟨"y", none⟩], 1⟩

theorem nothing_invented_bound_union :
    (boundUnion.meet [.union [.var ⟨"x", some 0⟩, .pred .any], .union [.var ⟨"y", some 1⟩, .empty]]).Ends
        (boundUnion.Drawn [.union [.var ⟨"x", some 0⟩, .pred .any], .union [.var ⟨"y", some 1⟩, .empty]]) ∧
      (boundUnion.diff (.var ⟨"x", some 0⟩) (.var ⟨"y", some 1⟩)).Ends
        (boundUnion.NamesFrom [.var ⟨"x", some 0⟩, .var ⟨"y", some 1⟩]) := by
  have hcontents : boundUnion.Free (.union [.var ⟨"y", some 1⟩, .atomic .number]) := by decide +kernel
  have hx : boundUnion.Founded (.var ⟨"x", some 0⟩) :=
    founded_var rfl hcontents.founded fun h ↦ absurd (hcontents.mem_vars h) (by decide)
  have hy : boundUnion.Founded (.var ⟨"y", some 1⟩) := hcontents.founded.child List.mem_cons_self
  have hleft : boundUnion.Founded (.union [.var ⟨"x", some 0⟩, .pred .any]) :=
    hx.of_vars (by simp [Ty.vars, Ty.varsEach, Ty.any])
  have hright : boundUnion.Founded (.union [.var ⟨"y", some 1⟩, .empty]) :=
    hy.of_vars (by simp [Ty.vars, Ty.varsEach])
  obtain ⟨-, hmeet, -, hdiff⟩ :=
    nothing_invented (List.forall_mem_cons.2 ⟨hleft, List.forall_mem_singleton.2 hright⟩) hx hy
  exact ⟨hmeet, hdiff⟩

end Env

end TypeAlgebra
