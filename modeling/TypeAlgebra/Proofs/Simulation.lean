import TypeAlgebra.Algebra.Difference
import TypeAlgebra.Algebra.FreeNames
import TypeAlgebra.Algebra.Normal
import TypeAlgebra.Algebra.Renaming
import TypeAlgebra.Proofs.Renaming
import TypeAlgebra.Proofs.Termination

namespace TypeAlgebra

def Ty.Over (Q : Var → Prop) (t : Ty) : Prop :=
  ∀ v ∈ t.vars, Q v

theorem Ty.Over.of_vars {Q : Var → Prop} {s t : Ty} (ht : t.Over Q) (h : s.vars ⊆ t.vars) : s.Over Q :=
  fun v hv ↦ ht v (h hv)

theorem Ty.Over.child {Q : Var → Prop} {s t : Ty} (ht : t.Over Q) (h : s ∈ t.children) : s.Over Q :=
  ht.of_vars fun _ ↦ Ty.mem_vars_of_child h

def Failure.Excused (E : Fault → Prop) : Failure → Prop
  | .problem _ => False
  | .fault e => E e

namespace Coupling

variable {f : Var → Var} {s t : Ty}

theorem rel_mapM_rename {ε α : Type} (c : Coupling (Except ε) (Except ε)) {p q : Ty → Except ε α}
    {ts : List Ty} (h : ∀ s ∈ ts, c.rel Eq (p s) (q (s.rename f))) :
    c.rel Eq (ts.mapM p) ((Ty.renameEach f ts).mapM q) := by
  rw [← List.forall₂_eq_eq_eq]
  refine c.rel_mapM ((forall₂_rename f ts).imp ?_)
  rintro s _ ⟨hs, rfl⟩
  exact h s hs

theorem rel_formBy {F : Failure → Prop} {p q : Ty → Except Failure (List Tree)}
    (hf : ∀ v, (f v).name = v.name) (h : ∀ s ∈ t.children, (excused F).rel Eq (p s) (q (s.rename f))) :
    (excused F).rel Eq (t.formBy p) ((t.rename f).formBy q) := by
  have each {ts : List Ty} {g : List (List Tree) → List Tree}
      (h : ∀ s ∈ ts, (excused F).rel Eq (p s) (q (s.rename f))) :
      (excused F).rel Eq (ts.mapM p >>= fun forms ↦ pure (g forms))
        ((Ty.renameEach f ts).mapM q >>= fun forms ↦ pure (g forms)) := by
    refine (excused F).rel_bind ((excused F).rel_mapM_rename h) ?_
    rintro forms _ rfl
    exact excused_refl _
  cases t with
  | var v =>
    rw [Ty.rename, Ty.formBy, Ty.formBy, hf]
    exact excused_refl _
  | proc params result =>
    refine (excused F).rel_bind ((excused F).rel_mapM_rename fun s hs ↦ h s (List.mem_append_left _ hs)) ?_
    rintro forms _ rfl
    refine (excused F).rel_bind (h result (by simp [Ty.children])) ?_
    rintro form _ rfl
    exact excused_refl _
  | tuple elems => exact each h
  | union parts => exact each h
  | inter parts => exact each h
  | pred inner =>
    refine (excused F).rel_bind (h inner List.mem_cons_self) ?_
    rintro form _ rfl
    exact excused_refl _
  | _ => exact excused_refl _

theorem rel_namesBy (c : Coupling (Except Fault) (Except Fault)) {p q : Ty → Except Fault (List String)}
    (hf : ∀ v, (f v).name = v.name) (h : ∀ s ∈ t.children, c.rel Eq (p s) (q (s.rename f))) :
    c.rel Eq (t.namesBy p) ((t.rename f).namesBy q) := by
  have each {ts : List Ty} (h : ∀ s ∈ ts, c.rel Eq (p s) (q (s.rename f))) :
      c.rel Eq (ts.mapM p >>= fun names ↦ pure names.flatten)
        ((Ty.renameEach f ts).mapM q >>= fun names ↦ pure names.flatten) := by
    refine c.rel_bind (c.rel_mapM_rename h) ?_
    rintro names _ rfl
    exact c.rel_pure rfl
  cases t with
  | var v =>
    rw [Ty.rename, Ty.namesBy, Ty.namesBy, hf]
    exact c.rel_pure rfl
  | proc params result =>
    have hp := each h
    rw [Ty.renameEach_eq, Ty.children, List.map_append, ← Ty.renameEach_eq] at hp
    exact hp
  | tuple elems => exact each h
  | union parts => exact each h
  | inter parts => exact each h
  | pred inner => exact h inner List.mem_cons_self
  | _ => exact c.rel_pure rfl

theorem rel_failure {m n : Type → Type} [Monad m] [Monad n] (c : Coupling m n) {α β : Type}
    {R : α → β → Prop} : c.optional.rel R failure failure :=
  c.rel_pure .none

theorem rel_liftOption {m n : Type → Type} [Monad m] [Monad n] (c : Coupling m n) {α β : Type}
    {R : α → β → Prop} {x : m α} {y : n β} (h : c.rel R x y) : c.optional.rel R (liftM x) (liftM y) :=
  c.rel_bind h fun _ _ hr ↦ c.rel_pure (.some hr)

theorem rel_matchEach (c : Coupling (Except Fault) (Except Fault)) {p q : Ty → Ty → Matching}
    {ss ts : List Ty} (h : ∀ a ∈ ss, ∀ b ∈ ts, c.optional.rel Eq (p a b) (q (a.rename f) (b.rename f))) :
    c.optional.rel Eq (Ty.matchEach p ss ts) (Ty.matchEach q (Ty.renameEach f ss) (Ty.renameEach f ts)) := by
  rw [Ty.renameEach_eq, Ty.renameEach_eq, Ty.matchEach, Ty.matchEach, List.length_map, List.length_map]
  split
  · rw [List.zip_map]
    refine c.optional.rel_bind (R := Eq) ?_ ?_
    · rw [← List.forall₂_eq_eq_eq]
      refine c.optional.rel_mapM ?_
      rw [List.forall₂_map_right_iff]
      exact List.forall₂_same.2 fun x hx ↦ h x.1 (List.of_mem_zip hx).1 x.2 (List.of_mem_zip hx).2
    · rintro pairs _ rfl
      exact c.optional.rel_pure rfl
  · exact c.rel_failure

theorem rel_matchBy (c : Coupling (Except Fault) (Except Fault)) {p q : Ty → Ty → Matching}
    (hf : ∀ v, (f v).name = v.name)
    (h : ∀ a ∈ s.children, ∀ b ∈ t.children, c.optional.rel Eq (p a b) (q (a.rename f) (b.rename f))) :
    c.optional.rel Eq (Ty.matchBy p s t) (Ty.matchBy q (s.rename f) (t.rename f)) := by
  cases s <;> cases t <;> try exact c.rel_failure
  case var.var v w =>
    simp only [Ty.rename, Ty.matchBy, hf]
    exact c.optional.rel_pure rfl
  case atomic.atomic j k =>
    rw [Ty.rename, Ty.rename, Ty.matchBy, Ty.matchBy]
    split
    · exact c.optional.rel_pure rfl
    · exact c.rel_failure
  case proc.proc params result params' result' =>
    have hall := c.rel_matchEach h
    simp only [Ty.rename, Ty.matchBy, Ty.renameEach_eq, List.length_map, Ty.children,
      List.map_append] at hall ⊢
    split
    · exact hall
    · exact c.rel_failure
  case empty.empty => exact c.optional.rel_pure rfl
  case tuple.tuple => exact c.rel_matchEach h
  case union.union => exact c.rel_matchEach h
  case inter.inter => exact c.rel_matchEach h
  case pred.pred inner inner' => exact h inner List.mem_cons_self inner' List.mem_cons_self

theorem excused_mapError {E : Fault → Prop} {α β : Type} {R : α → β → Prop} {x : Except Fault α}
    {y : Except Fault β} (h : (excused E).rel R x y) :
    (excused (Failure.Excused E)).rel R (x.mapError Failure.fault) (y.mapError Failure.fault) := by
  rcases h with ⟨e, he, rfl⟩ | ⟨a, b, rfl, rfl, hr⟩ | ⟨e, rfl, rfl⟩
  · exact .inl ⟨.fault e, he, rfl⟩
  · exact .inr (.inl ⟨a, b, rfl, rfl, hr⟩)
  · exact .inr (.inr ⟨.fault e, rfl, rfl⟩)

end Coupling

namespace Env

open Coupling (excused excused_refl)

variable {E : Fault → Prop} {env env' : Env} {f : Var → Var} {Q : Var → Prop} {lag d : Nat} {s t : Ty}
  {ts parts : List Ty}

def Renamed (f : Var → Var) (Q : Var → Prop) (t u : Ty) : Prop :=
  t.Over Q ∧ u = t.rename f

/--
What follows bindings in one environment does so in the other one, on types over some variables. With a lag
the other environment has that much depth to spare, which needs running out of depth to be excused.
-/
structure Simulation (E : Fault → Prop) (env env' : Env) (f : Var → Var) (Q : Var → Prop) (lag : Nat) :
    Prop where
  name : ∀ v, (f v).name = v.name
  limit : env'.limit = env.limit
  deref : ∀ t : Ty, t.Over Q → (excused E).rel (Renamed f Q) (env.deref t) (env'.deref (t.rename f))
  exhausted : lag = 0 ∨ E .unfounded

section Simulated

variable (h : Simulation E env env' f Q lag)

include h

theorem Simulation.unfounded {α β : Type} {R : α → β → Prop} {y : Nat → Except Fault β}
    (hy : y 0 = .error .unfounded) : (excused E).rel R (.error .unfounded) (y (0 + lag)) := by
  rcases h.exhausted with rfl | he
  · exact .inr (.inr ⟨_, rfl, hy⟩)
  · exact .inl ⟨_, he, rfl⟩

theorem Simulation.equalTo (d : Nat) (hs : s.Over Q) (ht : t.Over Q) :
    (excused E).rel Eq (env.equalTo d s t) (env'.equalTo (d + lag) (s.rename f) (t.rename f)) := by
  induction d generalizing s t with
  | zero => exact h.unfounded (y := fun d ↦ env'.equalTo d _ _) rfl
  | succ d ih =>
    rw [Nat.add_right_comm, Env.equalTo, Env.equalTo]
    refine (excused E).rel_bind (h.deref s hs) ?_
    rintro s _ ⟨hs, rfl⟩
    refine (excused E).rel_bind (h.deref t ht) ?_
    rintro t _ ⟨ht, rfl⟩
    exact (excused E).rel_equalBy h.name fun a ha b hb ↦ ih (hs.child ha) (ht.child hb)

theorem Simulation.namesTo (d : Nat) (ht : t.Over Q) :
    (excused E).rel Eq (env.namesTo d t) (env'.namesTo (d + lag) (t.rename f)) := by
  induction d generalizing t with
  | zero => exact h.unfounded (y := fun d ↦ env'.namesTo d _) rfl
  | succ d ih =>
    rw [Nat.add_right_comm, Env.namesTo, Env.namesTo]
    refine (excused E).rel_bind (h.deref t ht) ?_
    rintro t _ ⟨ht, rfl⟩
    exact (excused E).rel_namesBy h.name fun s hs ↦ ih (ht.child hs)

theorem Simulation.matchTo (d : Nat) (hs : s.Over Q) (ht : t.Over Q) :
    (excused E).optional.rel Eq (env.matchTo d s t) (env'.matchTo (d + lag) (s.rename f) (t.rename f)) := by
  induction d generalizing s t with
  | zero => exact h.unfounded (y := fun d ↦ (env'.matchTo d _ _).run) rfl
  | succ d ih =>
    rw [Nat.add_right_comm, Env.matchTo, Env.matchTo]
    refine (excused E).optional.rel_bind ((excused E).rel_liftOption (h.deref s hs)) ?_
    rintro s _ ⟨hs, rfl⟩
    refine (excused E).optional.rel_bind ((excused E).rel_liftOption (h.deref t ht)) ?_
    rintro t _ ⟨ht, rfl⟩
    exact (excused E).rel_matchBy h.name fun a ha b hb ↦ ih (hs.child ha) (ht.child hb)

theorem Simulation.formTo (d : Nat) (ht : t.Over Q) :
    (excused (Failure.Excused E)).rel Eq (env.formTo d t) (env'.formTo (d + lag) (t.rename f)) := by
  induction d generalizing t with
  | zero =>
    rcases h.exhausted with rfl | he
    · exact excused_refl _
    · exact .inl ⟨.fault .unfounded, he, rfl⟩
  | succ d ih =>
    rw [Nat.add_right_comm, Env.formTo, Env.formTo]
    refine (excused _).rel_bind (Coupling.excused_mapError (h.deref t ht)) ?_
    rintro t _ ⟨ht, rfl⟩
    exact Coupling.rel_formBy h.name fun s hs ↦ ih (ht.child hs)

theorem Simulation.sortKeyTo (d : Nat) (ht : t.Over Q) :
    (excused E).rel Eq (env.sortKeyTo d t) (env'.sortKeyTo (d + lag) (t.rename f)) := by
  rw [Env.sortKeyTo, Env.sortKeyTo, Ty.text_rename h.name]
  rcases h.formTo d ht with ⟨e | e, he, hx⟩ | ⟨a, b, hx, hy, rfl⟩ | ⟨e, hx, hy⟩
  · cases he
  · rw [hx]
    exact .inl ⟨e, he, rfl⟩
  · rw [hx, hy]
    exact excused_refl _
  · rw [hx, hy]
    exact excused_refl _

theorem Simulation.orderBy (d : Nat) (general : Ordering) {p q : Ty → Ty → Run Bool}
    (hp : ∀ a b : Ty, a.Over Q → b.Over Q → (Run.excused E).rel Eq (p a b) (q (a.rename f) (b.rename f)))
    (hs : s.Over Q) (ht : t.Over Q) :
    (Run.excused E).rel Eq (env.orderBy d p general s t)
      (env'.orderBy (d + lag) q general (s.rename f) (t.rename f)) := by
  have pure (o : Ordering) : (Run.excused E).rel Eq (Pure.pure o) (Pure.pure o) := excused_refl _
  refine (Run.excused E).rel_test (h.equalTo d hs ht) (pure .eq) ?_
  refine (Run.excused E).rel_test (hp t s ht hs) (pure general) ?_
  refine (Run.excused E).rel_test (hp s t hs ht) (pure general.swap) ?_
  refine (Run.excused E).rel_bind (h.sortKeyTo d hs) ?_
  rintro key _ rfl
  refine (Run.excused E).rel_bind (h.sortKeyTo d ht) ?_
  rintro key' _ rfl
  exact pure _

end Simulated

structure Simulates (E : Fault → Prop) (env env' : Env) (f : Var → Var) (Q : Var → Prop) (lag d : Nat) :
    Prop where
  subtype : ∀ s t : Ty, s.Over Q → t.Over Q →
    (Run.excused E).rel Eq (env.subtypeTo d s t) (env'.subtypeTo (d + lag) (s.rename f) (t.rename f))
  join : ∀ ts : List Ty, (∀ t ∈ ts, t.Over Q) →
    (Run.excused E).rel (Renamed f Q) (env.joinTo d ts) (env'.joinTo (d + lag) (ts.map (Ty.rename f)))
  meet : ∀ ts : List Ty, (∀ t ∈ ts, t.Over Q) →
    (Run.excused E).rel (Renamed f Q) (env.meetTo d ts) (env'.meetTo (d + lag) (ts.map (Ty.rename f)))
  distribute : ∀ t : Ty, t.Over Q →
    (Run.excused E).rel (Renamed f Q) (env.distributeTo d t) (env'.distributeTo (d + lag) (t.rename f))

theorem over_of_children (hv : t.isVar = false) (h : ∀ s ∈ t.children, s.Over Q) : t.Over Q := by
  intro v hm
  rcases Ty.mem_vars_iff.1 hm with he | ⟨s, hs, hvs⟩
  · rw [he] at hv
    cases hv
  · exact h s hs v hvs

theorem over_atomic (kind : Kind) : (Ty.atomic kind).Over Q :=
  nofun

theorem over_union : (Ty.union ts).Over Q ↔ ∀ t ∈ ts, t.Over Q :=
  ⟨fun h _ ht ↦ h.child ht, fun h ↦ over_of_children rfl h⟩

theorem over_inter : (Ty.inter ts).Over Q ↔ ∀ t ∈ ts, t.Over Q :=
  over_union

theorem over_ofAlternatives (h : ∀ p ∈ parts, p.Over Q) : (Ty.ofAlternatives parts).Over Q :=
  Ty.ofAlternatives_closed (over_atomic _) (over_atomic _) over_union.2 h

theorem over_ofFactors (h : ∀ p ∈ parts, p.Over Q) : (Ty.ofFactors parts).Over Q :=
  Ty.ofFactors_closed (over_atomic _) over_inter.2 h

theorem forall₂_renamed (h : ∀ t ∈ ts, t.Over Q) : List.Forall₂ (Renamed f Q) ts (ts.map (Ty.rename f)) :=
  Coupling.forall₂_image_iff.2 ⟨h, rfl⟩

theorem eq_map_of_renamed {us : List Ty} (h : List.Forall₂ (Renamed f Q) ts us) :
    (∀ t ∈ ts, t.Over Q) ∧ us = ts.map (Ty.rename f) :=
  Coupling.forall₂_image_iff.1 h

theorem meetFactors_rename (f : Var → Var) (ts : List Ty) :
    meetFactors (ts.map (Ty.rename f)) = (meetFactors ts).map (Ty.rename f) := by
  have he : Ty.factorsEach (ts.map (Ty.rename f)) = (Ty.factorsEach ts).map (Ty.rename f) :=
    Ty.factorsEach_map _ fun t _ ↦ Ty.factors_rename _ t
  simp only [meetFactors, he, List.filter_map, Function.comp_def, Ty.isAny_rename]

section Layers

variable (h : Simulation E env env' f Q lag) (hd : Simulates E env env' f Q lag d)

include h hd

theorem Simulates.leftForm (hs : s.Over Q) :
    (Run.excused E).rel (Renamed f Q) (env.leftForm (env.meetTo d) s)
      (env'.leftForm (env'.meetTo (d + lag)) (s.rename f)) := by
  cases s with
  | inter parts =>
    rw [Ty.rename, Ty.renameEach_eq]
    refine (Run.excused E).rel_bind (hd.meet parts (over_inter.1 hs)) ?_
    rintro r _ ⟨hr, rfl⟩
    exact h.deref r hr
  | _ => exact (Run.excused E).rel_pure ⟨hs, rfl⟩

theorem Simulates.rightForm (ht : t.Over Q) :
    (Run.excused E).rel (Renamed f Q) (env.rightForm (env.joinTo d) t)
      (env'.rightForm (env'.joinTo (d + lag)) (t.rename f)) := by
  cases t with
  | union parts =>
    rw [Ty.rename, Ty.renameEach_eq]
    refine (Run.excused E).rel_bind (hd.join parts (over_union.1 ht)) ?_
    rintro r _ ⟨hr, rfl⟩
    exact h.deref r hr
  | _ => exact (Run.excused E).rel_pure ⟨ht, rfl⟩

theorem Simulates.subtype_succ (hs : s.Over Q) (ht : t.Over Q) :
    (Run.excused E).rel Eq (env.subtypeTo (d + 1) s t)
      (env'.subtypeTo (d + 1 + lag) (s.rename f) (t.rename f)) := by
  rw [Nat.add_right_comm, subtypeTo, subtypeTo]
  refine (Run.excused E).rel_bind (h.deref s hs) ?_
  rintro s _ ⟨hs, rfl⟩
  refine (Run.excused E).rel_bind (h.deref t ht) ?_
  rintro t _ ⟨ht, rfl⟩
  refine (Run.excused E).rel_bind (hd.leftForm h hs) ?_
  rintro s _ ⟨hs, rfl⟩
  refine (Run.excused E).rel_bind (hd.rightForm h ht) ?_
  rintro t _ ⟨ht, rfl⟩
  refine (Run.excused E).rel_test (h.equalTo d hs ht) ((Run.excused E).rel_pure rfl) ?_
  change (Run.excused E).rel Eq (if t.isAny || s.isNever then _ else _)
    (if (t.rename f).isAny || (s.rename f).isNever then _ else _)
  rw [Ty.isAny_rename, Ty.isNever_rename]
  split
  · exact (Run.excused E).rel_pure rfl
  · exact (Run.excused E).rel_subtypeBy h.name (fun a ha ↦ hd.subtype a t (hs.child ha) ht)
      (fun b hb ↦ hd.subtype s b hs (ht.child hb)) fun a ha b hb ↦
        ⟨hd.subtype a b (hs.child ha) (ht.child hb), hd.subtype b a (ht.child hb) (hs.child ha)⟩

theorem Simulates.join_succ (hts : ∀ t ∈ ts, t.Over Q) :
    (Run.excused E).rel (Renamed f Q) (env.joinTo (d + 1) ts)
      (env'.joinTo (d + 1 + lag) (ts.map (Ty.rename f))) := by
  have hparts : (Ty.alternativesEach (ts.map (Ty.rename f))).filter (!·.isNever) =
      ((Ty.alternativesEach ts).filter (!·.isNever)).map (Ty.rename f) := by
    have he : Ty.alternativesEach (ts.map (Ty.rename f)) = (Ty.alternativesEach ts).map (Ty.rename f) :=
      Ty.alternativesEach_map _ fun t _ ↦ Ty.alternatives_rename _ t
    simp only [he, List.filter_map, Function.comp_def, Ty.isNever_rename]
  have hover : ∀ p ∈ (Ty.alternativesEach ts).filter (!·.isNever), p.Over Q := by
    intro p hp
    obtain ⟨t, ht, hpt⟩ := Ty.mem_alternativesEach.1 (List.mem_filter.1 hp).1
    exact (hts t ht).of_vars (Ty.alternatives_spec hpt).2.2
  rw [Nat.add_right_comm, joinTo, joinTo, hparts]
  refine (Run.excused E).rel_bind ((Run.excused E).rel_prune ?_ (forall₂_renamed hover))
    fun kept kept' hk ↦ ?_
  · rintro a _ b _ ⟨ha, rfl⟩ ⟨hb, rfl⟩
    exact hd.subtype a b ha hb
  refine (Run.excused E).rel_bind ((Run.excused E).rel_stableSort ?_ hk) fun sorted sorted' hsort ↦ ?_
  · rintro a _ b _ ⟨ha, rfl⟩ ⟨hb, rfl⟩
    exact h.orderBy d .gt hd.subtype ha hb
  obtain ⟨hf, rfl⟩ := eq_map_of_renamed hsort
  rw [Ty.ofAlternatives_rename]
  exact hd.distribute _ (over_ofAlternatives hf)

theorem Simulates.meet_succ (hts : ∀ t ∈ ts, t.Over Q) :
    (Run.excused E).rel (Renamed f Q) (env.meetTo (d + 1) ts)
      (env'.meetTo (d + 1 + lag) (ts.map (Ty.rename f))) := by
  have hparts := meetFactors_rename f ts
  have hover : ∀ p ∈ meetFactors ts, p.Over Q := by
    intro p hp
    obtain ⟨t, ht, hpt⟩ := Ty.mem_factorsEach.1 (List.mem_filter.1 hp).1
    exact (hts t ht).of_vars (Ty.factors_spec hpt).2
  have hnever : ((meetFactors ts).map (Ty.rename f)).any Ty.isNever = (meetFactors ts).any Ty.isNever := by
    simp only [List.any_map, Function.comp_def, Ty.isNever_rename]
  rw [Nat.add_right_comm, meetTo, meetTo]
  change (Run.excused E).rel _ (if (meetFactors ts).any Ty.isNever then _ else _)
    (if (meetFactors (ts.map (Ty.rename f))).any Ty.isNever then _ else _)
  rw [hparts, hnever]
  split
  · exact (Run.excused E).rel_pure ⟨over_atomic _, rfl⟩
  change (Run.excused E).rel _ (prune _ (meetFactors ts) >>= _)
    (prune _ (meetFactors (ts.map (Ty.rename f))) >>= _)
  rw [hparts]
  refine (Run.excused E).rel_bind ((Run.excused E).rel_prune ?_ (forall₂_renamed hover))
    fun kept kept' hk ↦ ?_
  · rintro a _ b _ ⟨ha, rfl⟩ ⟨hb, rfl⟩
    exact hd.subtype b a hb ha
  refine (Run.excused E).rel_bind ((Run.excused E).rel_stableSort ?_ hk) fun sorted sorted' hsort ↦ ?_
  · rintro a _ b _ ⟨ha, rfl⟩ ⟨hb, rfl⟩
    exact h.orderBy d .lt hd.subtype ha hb
  obtain ⟨hf, rfl⟩ := eq_map_of_renamed hsort
  rw [Ty.ofFactors_rename]
  exact hd.distribute _ (over_ofFactors hf)

theorem Simulates.distribute_succ (ht : t.Over Q) :
    (Run.excused E).rel (Renamed f Q) (env.distributeTo (d + 1) t)
      (env'.distributeTo (d + 1 + lag) (t.rename f)) := by
  rw [Nat.add_right_comm]
  cases t with
  | inter parts =>
    have hu := Ty.unionsIn_rename f parts
    have ho := Ty.othersIn_rename f parts
    have hexceeds (unions : List (List Ty)) :
        env'.exceeds (unions.map (List.map (Ty.rename f))) = env.exceeds unions := by
      simp only [exceeds, h.limit, List.map_map, Function.comp_def, List.length_map]
    have hover := over_inter.1 ht
    have hinter : (Ty.inter parts).rename f = .inter (parts.map (Ty.rename f)) :=
      congrArg Ty.inter (Ty.renameEach_eq f parts)
    rw [hinter, distributeTo, distributeTo]
    change (Run.excused E).rel _ (if (Ty.unionsIn parts).isEmpty then _
        else if env.exceeds (Ty.unionsIn parts) then _ else _)
      (if (Ty.unionsIn (parts.map (Ty.rename f))).isEmpty then _
        else if env'.exceeds (Ty.unionsIn (parts.map (Ty.rename f))) then _ else _)
    rw [hu, hexceeds, List.isEmpty_map]
    split
    · exact (Run.excused E).rel_pure ⟨ht, hinter.symm⟩
    split
    · exact .inr (.inl ⟨_, _, rfl, rfl, ht, hinter.symm⟩)
    change (Run.excused E).rel _ ((choices (Ty.unionsIn parts)).mapM _ >>= _)
      ((choices (Ty.unionsIn (parts.map (Ty.rename f)))).mapM
        (fun choice ↦ env'.meetTo (d + lag) (choice ++ Ty.othersIn (parts.map (Ty.rename f)))) >>= _)
    rw [hu, choices_map, ho]
    refine (Run.excused E).rel_bind ((Run.excused E).rel_mapM (S := Renamed f Q) ?_) fun ds ds' hds ↦ ?_
    · rw [List.forall₂_map_right_iff]
      refine List.forall₂_same.2 fun choice hc ↦ ?_
      rw [← List.map_append]
      refine hd.meet _ fun p hp ↦ ?_
      rcases Ty.mem_choice hc hp with hp | ⟨us, hus, hp⟩
      · exact hover p hp
      · exact (hover _ hus).child hp
    · obtain ⟨hf, rfl⟩ := eq_map_of_renamed hds
      exact hd.join ds hf
  | _ => exact (Run.excused E).rel_pure ⟨ht, rfl⟩

end Layers

/-- The algebra is simulated at every depth. -/
theorem Simulation.simulates (h : Simulation E env env' f Q lag) (d : Nat) :
    Simulates E env env' f Q lag d := by
  induction d with
  | zero =>
    have fail {α β : Type} {R : α → β → Prop} {y : Nat → Run β} (hy : (y 0).outcome = .error .unfounded) :
        (Run.excused E).rel R (Run.fail .unfounded) (y (0 + lag)) :=
      h.unfounded (y := fun d ↦ (y d).outcome) hy
    exact ⟨fun _ _ _ _ ↦ fail (y := fun d ↦ env'.subtypeTo d _ _) rfl,
      fun _ _ ↦ fail (y := fun d ↦ env'.joinTo d _) rfl, fun _ _ ↦ fail (y := fun d ↦ env'.meetTo d _) rfl,
      fun _ _ ↦ fail (y := fun d ↦ env'.distributeTo d _) rfl⟩
  | succ d ih =>
    exact ⟨fun _ _ ↦ ih.subtype_succ h, fun _ ↦ ih.join_succ h, fun _ ↦ ih.meet_succ h,
      fun _ ↦ ih.distribute_succ h⟩

theorem rel_normalizeEach
    (hn : ∀ t ∈ ts, (Run.excused E).rel (Renamed f Q) (env.normalize t) (env'.normalize (t.rename f))) :
    (Run.excused E).rel (List.Forall₂ (Renamed f Q)) (env.normalizeEach ts)
      (env'.normalizeEach (Ty.renameEach f ts)) := by
  induction ts with
  | nil => exact (Run.excused E).rel_pure .nil
  | cons t ts ih =>
    obtain ⟨ht, hts⟩ := List.forall_mem_cons.1 hn
    refine (Run.excused E).rel_bind ht fun r r' hr ↦ ?_
    refine (Run.excused E).rel_bind (ih hts) fun rs rs' hrs ↦ ?_
    exact (Run.excused E).rel_pure (.cons hr hrs)

structure Agreement (E : Fault → Prop) (env env' : Env) (f : Var → Var) (Q : Var → Prop) : Prop where
  deref : ∀ t : Ty, t.Over Q → (excused E).rel (Renamed f Q) (env.deref t) (env'.deref (t.rename f))
  equal : ∀ s t : Ty, s.Over Q → t.Over Q →
    (excused E).rel Eq (env.equal s t) (env'.equal (s.rename f) (t.rename f))
  subtype : ∀ s t : Ty, s.Over Q → t.Over Q →
    (Run.excused E).rel Eq (env.subtype s t) (env'.subtype (s.rename f) (t.rename f))
  join : ∀ ts : List Ty, (∀ t ∈ ts, t.Over Q) →
    (Run.excused E).rel (Renamed f Q) (env.join ts) (env'.join (ts.map (Ty.rename f)))
  meet : ∀ ts : List Ty, (∀ t ∈ ts, t.Over Q) →
    (Run.excused E).rel (Renamed f Q) (env.meet ts) (env'.meet (ts.map (Ty.rename f)))

theorem Simulation.agreement (h : Simulation E env env' f Q 0)
    (hdepth : ∀ ts, env'.depth (ts.map (Ty.rename f)) = env.depth ts) : Agreement E env env' f Q where
  deref := h.deref
  equal s t hs ht := by
    have hd : env'.depth [s.rename f, t.rename f] = env.depth [s, t] := hdepth [s, t]
    have hst := h.equalTo (env.depth [s, t]) hs ht
    rw [Env.equal, Env.equal, hd]
    rwa [Nat.add_zero] at hst
  subtype s t hs ht := by
    have hd : env'.depth [s.rename f, t.rename f] = env.depth [s, t] := hdepth [s, t]
    have hst := (h.simulates (env.depth [s, t])).subtype s t hs ht
    rw [Env.subtype, Env.subtype, hd]
    rwa [Nat.add_zero] at hst
  join ts hts := by
    have hj := (h.simulates (env.depth ts)).join ts hts
    rw [Env.join, Env.join, hdepth]
    rwa [Nat.add_zero] at hj
  meet ts hts := by
    have hm := (h.simulates (env.depth ts)).meet ts hts
    rw [Env.meet, Env.meet, hdepth]
    rwa [Nat.add_zero] at hm

section Whole

variable (h : Agreement E env env' f Q)

include h

theorem Agreement.unrelated (hts : ∀ t ∈ ts, t.Over Q) :
    (Run.excused E).rel Eq (env.unrelated ts) (env'.unrelated (ts.map (Ty.rename f))) := by
  induction ts with
  | nil => exact (Run.excused E).rel_pure rfl
  | cons s rest ih =>
    obtain ⟨hs, hrest⟩ := List.forall_mem_cons.1 hts
    rw [List.map_cons, Env.unrelated, Env.unrelated]
    refine (Run.excused E).rel_test ((Run.excused E).rel_anyM ?_) ((Run.excused E).rel_pure rfl) (ih hrest)
    refine (forall₂_renamed hrest).imp ?_
    rintro t _ ⟨ht, rfl⟩
    exact (Run.excused E).rel_test (h.subtype s t hs ht) ((Run.excused E).rel_pure rfl)
      (h.subtype t s ht hs)

theorem Agreement.isUnrelatedInter (ht : t.Over Q) :
    (Run.excused E).rel Eq (env.isUnrelatedInter t) (env'.isUnrelatedInter (t.rename f)) := by
  cases t with
  | inter parts =>
    have hn : (parts.map (Ty.rename f)).any Ty.isNever = parts.any Ty.isNever := by
      simp only [List.any_map, Function.comp_def, Ty.isNever_rename]
    rw [Ty.rename_inter, Env.isUnrelatedInter, Env.isUnrelatedInter, hn]
    split
    · exact (Run.excused E).rel_pure rfl
    · exact h.unrelated (over_inter.1 ht)
  | _ => exact (Run.excused E).rel_pure rfl

theorem Agreement.withoutSubtypes (ht : t.Over Q) (hp : ∀ p ∈ parts, p.Over Q) :
    (Run.excused E).rel (List.Forall₂ (Renamed f Q)) (env.withoutSubtypes t parts)
      (env'.withoutSubtypes (t.rename f) (parts.map (Ty.rename f))) := by
  refine (Run.excused E).rel_filterM (forall₂_renamed hp) ?_
  rintro p _ ⟨hp, rfl⟩
  refine (Run.excused E).rel_bind (h.subtype p t hp ht) ?_
  rintro b _ rfl
  exact (Run.excused E).rel_pure rfl

theorem Agreement.join_each {r : Run (List Ty)} {r' : Run (List Ty)}
    (hr : (Run.excused E).rel (List.Forall₂ (Renamed f Q)) r r') :
    (Run.excused E).rel (Renamed f Q) (r >>= env.join) (r' >>= env'.join) := by
  refine (Run.excused E).rel_bind hr fun rs rs' hrs ↦ ?_
  obtain ⟨hf, rfl⟩ := eq_map_of_renamed hrs
  exact h.join rs hf

theorem Agreement.meet_each {r : Run (List Ty)} {r' : Run (List Ty)}
    (hr : (Run.excused E).rel (List.Forall₂ (Renamed f Q)) r r') :
    (Run.excused E).rel (Renamed f Q) (r >>= env.meet) (r' >>= env'.meet) := by
  refine (Run.excused E).rel_bind hr fun rs rs' hrs ↦ ?_
  obtain ⟨hf, rfl⟩ := eq_map_of_renamed hrs
  exact h.meet rs hf

/-- One layer of a difference, over the differences that it asks for. -/
theorem Agreement.diffTo_succ
    (ih : ∀ a b : Ty, a.Over Q → b.Over Q →
      (Run.excused E).rel (Renamed f Q) (env.diffTo d a b) (env'.diffTo (d + lag) (a.rename f) (b.rename f)))
    (hs : s.Over Q) (ht : t.Over Q) :
    (Run.excused E).rel (Renamed f Q) (env.diffTo (d + 1) s t)
      (env'.diffTo (d + 1 + lag) (s.rename f) (t.rename f)) := by
  have done {t : Ty} (ht : t.Over Q) : (Run.excused E).rel (Renamed f Q) (pure t) (pure (t.rename f)) :=
    (Run.excused E).rel_pure ⟨ht, rfl⟩
  rw [Nat.add_right_comm, Env.diffTo, Env.diffTo]
  refine (Run.excused E).rel_bind (h.deref s hs) ?_
  rintro s _ ⟨hs, rfl⟩
  refine (Run.excused E).rel_bind (h.deref t ht) ?_
  rintro t _ ⟨ht, rfl⟩
  refine (Run.excused E).rel_bind (h.equal s t hs ht) ?_
  rintro b _ rfl
  rw [Ty.isAny_rename, Ty.isNever_rename]
  refine (Run.excused E).rel_ite (done (over_atomic _)) ((Run.excused E).rel_ite (done (over_atomic _)) ?_)
  refine (Run.excused E).rel_ite (done hs) ?_
  refine (Run.excused E).rel_bind (h.isUnrelatedInter ht) ?_
  rintro b _ rfl
  refine (Run.excused E).rel_ite (done hs) ?_
  -- The first two rules go by what is on the left, the other ones by what is on the right.
  cases s with
  | union parts =>
    rw [Ty.rename_union]
    exact h.join_each (h.withoutSubtypes ht (over_union.1 hs))
  | inter parts =>
    rw [Ty.rename_inter]
    exact h.meet_each (h.withoutSubtypes ht (over_inter.1 hs))
  | _ =>
    cases t with
    | union parts =>
      have hflip := ih _ _ ht hs
      rw [Ty.rename_union] at hflip ⊢
      refine (Run.excused E).rel_bind hflip ?_
      rintro r _ ⟨hr, rfl⟩
      exact h.meet [_, r] (List.forall_mem_cons.2 ⟨hs, List.forall_mem_singleton.2 hr⟩)
    | inter parts =>
      rw [Ty.rename_inter]
      refine h.join_each ((Run.excused E).rel_mapM ?_)
      rw [List.forall₂_map_right_iff]
      exact List.forall₂_same.2 fun p hp ↦ ih _ _ hs (ht.child hp)
    | _ =>
      refine (Run.excused E).rel_bind (h.subtype _ _ hs ht) ?_
      rintro b _ rfl
      exact (Run.excused E).rel_ite (done (over_atomic _)) (done hs)

theorem Agreement.diffTo (hlag : Simulation E env env' f Q lag) (d : Nat) (hs : s.Over Q) (ht : t.Over Q) :
    (Run.excused E).rel (Renamed f Q) (env.diffTo d s t)
      (env'.diffTo (d + lag) (s.rename f) (t.rename f)) := by
  induction d generalizing s t with
  | zero => exact hlag.unfounded (y := fun d ↦ (env'.diffTo d _ _).outcome) rfl
  | succ d ih => exact h.diffTo_succ (fun _ _ ↦ ih) hs ht

theorem Agreement.normalize (ht : t.Over Q) :
    (Run.excused E).rel (Renamed f Q) (env.normalize t) (env'.normalize (t.rename f)) := by
  induction t using Ty.induction_children with
  | step t ih =>
    have each {ts : List Ty} (hts : ∀ s ∈ ts, s ∈ t.children) :
        (Run.excused E).rel (List.Forall₂ (Renamed f Q)) (env.normalizeEach ts)
          (env'.normalizeEach (Ty.renameEach f ts)) :=
      rel_normalizeEach fun s hs ↦ ih s (hts s hs) (ht.child (hts s hs))
    cases t with
    | union parts =>
      rw [Ty.rename, Env.normalize, Env.normalize]
      exact h.join_each (each fun s hs ↦ hs)
    | inter parts =>
      rw [Ty.rename, Env.normalize, Env.normalize]
      exact h.meet_each (each fun s hs ↦ hs)
    | proc params result =>
      have hresult : result ∈ (Ty.proc params result).children := by simp [Ty.children]
      rw [Ty.rename, Env.normalize, Env.normalize]
      refine (Run.excused E).rel_bind (each fun s hs ↦ List.mem_append_left _ hs) fun rs rs' hrs ↦ ?_
      obtain ⟨hf, rfl⟩ := eq_map_of_renamed hrs
      refine (Run.excused E).rel_bind (ih result hresult (ht.child hresult)) ?_
      rintro r _ ⟨hr, rfl⟩
      refine (Run.excused E).rel_pure ⟨over_of_children rfl ?_, ?_⟩
      · exact List.forall_mem_append.2 ⟨hf, List.forall_mem_singleton.2 hr⟩
      · rw [Ty.rename, Ty.renameEach_eq]
    | tuple elems =>
      rw [Ty.rename, Env.normalize, Env.normalize]
      refine (Run.excused E).rel_bind (each fun s hs ↦ hs) fun rs rs' hrs ↦ ?_
      obtain ⟨hf, rfl⟩ := eq_map_of_renamed hrs
      refine (Run.excused E).rel_pure ⟨over_of_children rfl hf, ?_⟩
      rw [Ty.rename, Ty.renameEach_eq]
    | pred inner =>
      rw [Ty.rename, Env.normalize, Env.normalize]
      refine (Run.excused E).rel_bind (ih inner List.mem_cons_self (ht.child List.mem_cons_self)) ?_
      rintro r _ ⟨hr, rfl⟩
      exact (Run.excused E).rel_pure ⟨over_of_children rfl (List.forall_mem_singleton.2 hr), rfl⟩
    | _ =>
      rw [Ty.rename, Env.normalize, Env.normalize]
      exact (Run.excused E).rel_pure ⟨ht, rfl⟩

end Whole

end Env

end TypeAlgebra
