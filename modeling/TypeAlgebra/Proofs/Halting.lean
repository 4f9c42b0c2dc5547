import TypeAlgebra.Proofs.Enclosure
import TypeAlgebra.Proofs.Normalization

namespace TypeAlgebra

open Coupling (excused)

def FailsBy {ε α : Type} (F : ε → Prop) (x : Except ε α) : Prop :=
  ∀ e, x = .error e → F e

/-- From this depth on the recursion comes to one and the same end, which is an answer or such a failure. -/
def Halts {ε α : Type} (F : ε → Prop) (run : Nat → Except ε α) (depth : Nat) : Prop :=
  ∀ d ≥ depth, run d = run depth ∧ FailsBy F (run d)

def Failure.Unwritten : Failure → Prop
  | .problem _ => True
  | .fault e => e.Foreign

theorem failsBy_of_ok {ε α : Type} {F : ε → Prop} {x : Except ε α} {a : α} (h : x = .ok a) : FailsBy F x :=
  fun _ he ↦ nomatch h.symm.trans he

theorem FailsBy.of_excused {ε α β : Type} {E F : ε → Prop} {R : α → β → Prop} {x : Except ε α}
    {y : Except ε β} (h : (excused E).rel R x y) (hE : ∀ e, E e → F e) (hy : FailsBy F y) : FailsBy F x := by
  rintro e rfl
  rcases h with ⟨e', he, hx⟩ | ⟨a, b, hx, -⟩ | ⟨e', hx, hy'⟩
  · cases hx
    exact hE e he
  · cases hx
  · cases hx
    exact hy e hy'

theorem FailsBy.bind {ε α β : Type} {F : ε → Prop} {x : Except ε α} {f : α → Except ε β} (hx : FailsBy F x)
    (hf : ∀ a, FailsBy F (f a)) : FailsBy F (x >>= f) := by
  cases x with
  | error e => exact fun e' he ↦ hx e' (by cases he; rfl)
  | ok a => exact hf a

/-- A recursion halts if it gives the same with more depth unless it runs out of depth, which it does not. -/
theorem halts_of_deepened {ε α : Type} {U F : ε → Prop} {R : α → α → Prop} {run : Nat → Except ε α}
    {depth : Nat} (hdeep : ∀ lag, (excused U).rel R (run depth) (run (depth + lag)))
    (hR : ∀ a b, R a b → b = a) (hF : ∀ e, F e → ¬U e) (hend : FailsBy F (run depth)) :
    Halts F run depth := by
  intro d hd
  obtain ⟨lag, rfl⟩ := Nat.exists_eq_add_of_le hd
  have he : run (depth + lag) = run depth := by
    rcases hdeep lag with ⟨e, hu, he⟩ | ⟨a, b, ha, hb, hr⟩ | ⟨e, ha, hb⟩
    · exact absurd hu (hF e (hend e he))
    · rw [ha, hb, hR a b hr]
    · rw [ha, hb]
  rw [he]
  exact ⟨rfl, hend⟩

def Coupling.joint {ε : Type} : Coupling (Except ε) (Except ε) where
  rel R x y := ∃ a b, x = .ok a ∧ y = .ok b ∧ R a b
  rel_pure h := ⟨_, _, rfl, rfl, h⟩
  rel_bind := by
    rintro α β γ δ R S _ _ f g ⟨a, b, rfl, rfl, h⟩ hf
    exact hf a b h

namespace Env

variable {env : Env} {s t : Ty} {ts : List Ty}

theorem namesTo_founded {d : Nat} (ht : env.Founded t) (hd : env.rank t < d) :
    Coupling.joint.rel Eq (env.namesTo d t) (env.namesTo d t) := by
  induction d generalizing t with
  | zero => exact absurd hd (Nat.not_lt_zero _)
  | succ d ih =>
    have h := Coupling.joint.rel_namesBy (f := id) (p := env.namesTo d) (q := env.namesTo d)
      (t := env.resolved t) (fun _ ↦ rfl) fun s hs ↦ by
        have hrank := (rank_lt_of_child env hs).trans_le (resolved_spec ht).2.2.2
        rw [Ty.rename_id]
        exact ih (ht.resolved.child hs) (by omega)
    rw [Ty.rename_id] at h
    rw [namesTo, (resolved_spec ht).1]
    exact h

theorem matchTo_founded {d : Nat} (hs : env.Founded s) (ht : env.Founded t) (hd : env.rank s < d) :
    Coupling.joint.optional.rel Eq (env.matchTo d s t) (env.matchTo d s t) := by
  induction d generalizing s t with
  | zero => exact absurd hd (Nat.not_lt_zero _)
  | succ d ih =>
    have h := Coupling.joint.rel_matchBy (f := id) (p := env.matchTo d) (q := env.matchTo d)
      (s := env.resolved s) (t := env.resolved t) (fun _ ↦ rfl) fun a ha b hb ↦ by
        have hrank := (rank_lt_of_child env ha).trans_le (resolved_spec hs).2.2.2
        rw [Ty.rename_id, Ty.rename_id]
        exact ih (hs.resolved.child ha) (ht.resolved.child hb) (by omega)
    rw [Ty.rename_id, Ty.rename_id] at h
    rw [matchTo, (resolved_spec hs).1, (resolved_spec ht).1]
    exact h

/-- Normalizing passes on what a type has of its components, and makes new types by join and meet alone. -/
theorem Inherited.normalize {P : Ty → Prop} (hP : env.Inherited P)
    (hnode : ∀ {t}, t.isVar = false → (∀ s ∈ t.children, P s) → P t) (ht : P t) : (env.normalize t).Ends P := by
  induction t using Ty.induction_children with
  | step t ih =>
    have each {ts : List Ty} (h : ∀ s ∈ ts, s ∈ t.children) : (env.normalizeEach ts).Ends (∀ r ∈ ·, P r) := by
      obtain ⟨rs, hrs, hf⟩ := normalizeEach_ends (R := fun _ ↦ P) fun s hs ↦ ih s (h s hs) (hP.child ht (h s hs))
      exact ⟨rs, hrs, forall_mem_right hf fun _ _ h ↦ h⟩
    cases t with
    | union parts =>
      rw [Env.normalize]
      exact (each fun s hs ↦ hs).bind fun rs hrs ↦ hP.join hrs
    | inter parts =>
      rw [Env.normalize]
      exact (each fun s hs ↦ hs).bind fun rs hrs ↦ hP.meet hrs
    | proc params result =>
      have hresult : result ∈ (Ty.proc params result).children := by simp [Ty.children]
      rw [Env.normalize]
      refine (each fun s hs ↦ List.mem_append_left _ hs).bind fun rs hrs ↦ ?_
      refine (ih result hresult (hP.child ht hresult)).bind fun r hr ↦ .pure ?_
      refine hnode rfl (List.forall_mem_append.2 ⟨hrs, ?_⟩)
      exact List.forall_mem_singleton.2 hr
    | tuple elems =>
      rw [Env.normalize]
      exact (each fun s hs ↦ hs).bind fun rs hrs ↦ .pure (hnode rfl hrs)
    | pred inner =>
      rw [Env.normalize]
      refine (ih inner List.mem_cons_self (hP.child ht List.mem_cons_self)).bind fun r hr ↦ .pure ?_
      exact hnode rfl (List.forall_mem_singleton.2 hr)
    | _ =>
      rw [Env.normalize]
      exact .pure ht

theorem normalize_founded (ht : env.Founded t) : (env.normalize t).Ends env.Founded :=
  (founded_inherited env).normalize founded_of_children ht

/-- More depth makes a difference only where a recursion runs out of it. -/
theorem deepening (env : Env) (lag : Nat) : Simulation (· = .unfounded) env env id (fun _ ↦ True) lag where
  name _ := rfl
  limit := rfl
  deref t _ := by
    rw [Ty.rename_id]
    cases env.deref t with
    | error e => exact .inr (.inr ⟨e, rfl, rfl⟩)
    | ok u => exact .inr (.inl ⟨u, u, rfl, rfl, fun _ _ ↦ trivial, u.rename_id.symm⟩)
  exhausted := .inr rfl

theorem Renamed.eq {u : Ty} (h : Renamed id (fun _ ↦ True) t u) : u = t :=
  h.2.trans t.rename_id

theorem depth_rename_id (env : Env) (ts : List Ty) : env.depth (ts.map (Ty.rename id)) = env.depth ts := by
  rw [← Ty.renameEach_eq, Ty.renameEach_id]

theorem over_true (t : Ty) : t.Over fun _ ↦ True :=
  fun _ _ ↦ trivial

theorem rank_enclosed_lt (env : Env) (h : t ∈ ts) : env.enclosed.rank (t.rename env.own) < env.depth ts := by
  rw [← depth_enclosed env ts]
  exact rank_lt_depth (List.mem_map_of_mem h)

/-- A recursion halts if its run in the enclosed environment succeeds. -/
theorem halts_of_enclosed {α β : Type} {R : α → α → Prop} {S : α → β → Prop} {run : Nat → Except Fault α}
    {result : Except Fault β} {b : β} {depth : Nat} (hR : ∀ a a', R a a' → a' = a)
    (hdeep : ∀ lag, (excused (· = Fault.unfounded)).rel R (run depth) (run (depth + lag)))
    (hsim : (excused Fault.Foreign).rel S (run depth) result) (hb : result = .ok b) :
    Halts Fault.Foreign run depth := by
  refine halts_of_deepened hdeep hR ?_ (.of_excused hsim (fun _ ↦ id) (failsBy_of_ok hb))
  rintro _ ⟨name, rfl⟩
  exact nofun

-- The depth is a power, which is not to be computed where two depths are compared.
attribute [local irreducible] depth

namespace Acyclic

variable (h : env.Acyclic) (s t : Ty) (ts : List Ty)

include h

theorem agreement : Agreement Fault.Foreign env env.enclosed env.own fun _ ↦ True :=
  h.enclosure.agreement (depth_enclosed env)

theorem subtypeTo_halts : Halts Fault.Foreign (fun d ↦ (env.subtypeTo d s t).outcome) (env.depth [s, t]) := by
  have hdeep (lag : Nat) :=
    ((deepening env lag).simulates (env.depth [s, t])).subtype s t (over_true s) (over_true t)
  have hsim := h.agreement.subtype s t (over_true s) (over_true t)
  simp only [Ty.rename_id] at hdeep
  exact halts_of_enclosed (fun _ _ ↦ Eq.symm) hdeep hsim (subtype_eq (h.founded s) (h.founded t))

theorem orderBy_halts (general : Ordering) : Halts Fault.Foreign
    (fun d ↦ (env.orderBy d (env.subtypeTo d) general s t).outcome) (env.depth [s, t]) := by
  have hdeep (lag : Nat) := (deepening env lag).orderBy (env.depth [s, t]) general
    ((deepening env lag).simulates (env.depth [s, t])).subtype (over_true s) (over_true t)
  have hsim := h.enclosure.orderBy (env.depth [s, t]) general
    (h.enclosure.simulates (env.depth [s, t])).subtype (over_true s) (over_true t)
  have hneed := need_le_depth env.enclosed (s.rename env.own) (t.rename env.own)
  rw [← List.map_singleton, ← List.map_cons, depth_enclosed] at hneed
  have hst := decided (h.founded s) (h.founded t) hneed
  rw [need_comm] at hneed
  have hts := decided (h.founded t) (h.founded s) hneed
  simp only [Ty.rename_id] at hdeep
  rw [Nat.add_zero] at hsim
  exact halts_of_enclosed (fun _ _ ↦ Eq.symm) hdeep hsim (orderBy_decided hst hts)

theorem order_failsBy : FailsBy Fault.Foreign (env.order s t).outcome := by
  have hsim := h.enclosure.orderBy (env.depth [s, t]) .gt
    h.agreement.subtype (over_true s) (over_true t)
  have hok := orderBy_eq (h.founded s) (h.founded t) .gt
  rw [← List.map_singleton, ← List.map_cons, depth_enclosed] at hok
  exact .of_excused hsim (fun _ ↦ id) (failsBy_of_ok hok)

theorem joinTo_halts : Halts Fault.Foreign (fun d ↦ (env.joinTo d ts).outcome) (env.depth ts) := by
  have hdeep (lag : Nat) := ((deepening env lag).simulates (env.depth ts)).join ts fun t _ ↦ over_true t
  have hsim := h.agreement.join ts fun t _ ↦ over_true t
  simp only [← Ty.renameEach_eq, Ty.renameEach_id] at hdeep
  exact halts_of_enclosed (fun _ _ ↦ Renamed.eq) hdeep hsim (join_eq (founded_union.2 (h.founded_each ts)))

theorem meetTo_halts : Halts Fault.Foreign (fun d ↦ (env.meetTo d ts).outcome) (env.depth ts) := by
  have hdeep (lag : Nat) := ((deepening env lag).simulates (env.depth ts)).meet ts fun t _ ↦ over_true t
  have hsim := h.agreement.meet ts fun t _ ↦ over_true t
  simp only [← Ty.renameEach_eq, Ty.renameEach_id] at hdeep
  exact halts_of_enclosed (fun _ _ ↦ Renamed.eq) hdeep hsim (meet_eq (founded_inter.2 (h.founded_each ts)))

theorem distributeTo_halts :
    Halts Fault.Foreign (fun d ↦ (env.distributeTo d t).outcome) (env.depth [t]) := by
  have hdeep (lag : Nat) := ((deepening env lag).simulates (env.depth [t])).distribute t (over_true t)
  have hsim := (h.enclosure.simulates (env.depth [t])).distribute t (over_true t)
  have hle := ample_le_depth env.enclosed (t.rename env.own)
  rw [← List.map_singleton, depth_enclosed] at hle
  simp only [Ty.rename_id] at hdeep
  exact halts_of_enclosed (fun _ _ ↦ Renamed.eq) hdeep hsim ((distributeTo_ample (h.founded t)).2 _ hle)

theorem diffTo_halts : Halts Fault.Foreign (fun d ↦ (env.diffTo d s t).outcome) (env.depth [s, t]) := by
  have hdeep (lag : Nat) := ((deepening env 0).agreement (depth_rename_id env)).diffTo (deepening env lag)
    (env.depth [s, t]) (over_true s) (over_true t)
  have hsim := h.agreement.diffTo h.enclosure (env.depth [s, t])
    (over_true s) (over_true t)
  obtain ⟨r, hr, -⟩ := diffTo_founded (h.founded s) (h.founded t)
    (rank_enclosed_lt env (show t ∈ [s, t] by simp))
  simp only [Ty.rename_id] at hdeep
  exact halts_of_enclosed (fun _ _ ↦ Renamed.eq) hdeep hsim hr

theorem equalTo_halts : Halts Fault.Foreign (fun d ↦ env.equalTo d s t) (env.depth [s, t]) := by
  have hdeep (lag : Nat) := (deepening env lag).equalTo (env.depth [s, t]) (over_true s) (over_true t)
  have hsim := h.enclosure.equalTo (env.depth [s, t]) (over_true s) (over_true t)
  have hok := equalTo_eq_same (h.founded s) (h.founded t) (rank_enclosed_lt env (show s ∈ [s, t] by simp))
  simp only [Ty.rename_id] at hdeep
  exact halts_of_enclosed (fun _ _ ↦ Eq.symm) hdeep hsim hok

theorem matchTo_halts : Halts Fault.Foreign (fun d ↦ (env.matchTo d s t).run) (env.depth [s, t]) := by
  have hdeep (lag : Nat) := (deepening env lag).matchTo (env.depth [s, t]) (over_true s) (over_true t)
  have hsim := h.enclosure.matchTo (env.depth [s, t]) (over_true s) (over_true t)
  obtain ⟨r, -, hr, -⟩ := matchTo_founded (h.founded s) (h.founded t)
    (rank_enclosed_lt env (show s ∈ [s, t] by simp))
  simp only [Ty.rename_id] at hdeep
  refine halts_of_enclosed ?_ hdeep hsim hr
  rintro _ _ (rfl | _) <;> rfl

theorem namesTo_halts : Halts Fault.Foreign (fun d ↦ env.namesTo d t) (env.depth [t]) := by
  have hdeep (lag : Nat) := (deepening env lag).namesTo (env.depth [t]) (over_true t)
  have hsim := h.enclosure.namesTo (env.depth [t]) (over_true t)
  obtain ⟨r, -, hr, -⟩ := namesTo_founded (h.founded t) (rank_enclosed_lt env (List.mem_singleton_self t))
  simp only [Ty.rename_id] at hdeep
  exact halts_of_enclosed (fun _ _ ↦ Eq.symm) hdeep hsim hr

theorem formTo_halts : Halts Failure.Unwritten (fun d ↦ env.formTo d t) (env.depth [t]) := by
  have hdeep (lag : Nat) := (deepening env lag).formTo (env.depth [t]) (over_true t)
  have hsim := h.enclosure.formTo (env.depth [t]) (over_true t)
  have hok := form_faultless (h.founded t)
  rw [← formTo_eq_form (h.founded t) (rank_enclosed_lt env (List.mem_singleton_self t))] at hok
  simp only [Ty.rename_id] at hdeep
  refine halts_of_deepened hdeep (fun _ _ ↦ Eq.symm) ?_ (.of_excused hsim ?_ ?_)
  · rintro (problem | _) he hu
    · exact hu
    · obtain ⟨name, rfl⟩ := he
      cases hu
  · rintro (problem | e) he
    · cases he
    · exact he
  · rintro (problem | e) he
    · trivial
    · exact absurd he (hok e)

theorem normalize_failsBy : FailsBy Fault.Foreign (env.normalize t).outcome := by
  have hsim := h.agreement.normalize (over_true t)
  obtain ⟨r, hr, -⟩ := normalize_founded (h.founded t)
  exact .of_excused hsim (fun _ ↦ id) (failsBy_of_ok hr)

end Acyclic

/-- Whatever types they are started on, the recursions of the algebra halt, and its functions stop for no
other reason than that a variable is foreign, or a type not there to be written. -/
structure Terminating (env : Env) : Prop where
  subtype : ∀ s t, Halts Fault.Foreign (fun d ↦ (env.subtypeTo d s t).outcome) (env.depth [s, t])
  unionOrder : ∀ s t,
    Halts Fault.Foreign (fun d ↦ (env.unionOrder d (env.subtypeTo d) s t).outcome) (env.depth [s, t])
  interOrder : ∀ s t,
    Halts Fault.Foreign (fun d ↦ (env.interOrder d (env.subtypeTo d) s t).outcome) (env.depth [s, t])
  order : ∀ s t, FailsBy Fault.Foreign (env.order s t).outcome
  join : ∀ ts, Halts Fault.Foreign (fun d ↦ (env.joinTo d ts).outcome) (env.depth ts)
  meet : ∀ ts, Halts Fault.Foreign (fun d ↦ (env.meetTo d ts).outcome) (env.depth ts)
  distribute : ∀ t, Halts Fault.Foreign (fun d ↦ (env.distributeTo d t).outcome) (env.depth [t])
  normalize : ∀ t, FailsBy Fault.Foreign (env.normalize t).outcome
  diff : ∀ s t, Halts Fault.Foreign (fun d ↦ (env.diffTo d s t).outcome) (env.depth [s, t])
  equal : ∀ s t, Halts Fault.Foreign (fun d ↦ env.equalTo d s t) (env.depth [s, t])
  matching : ∀ s t, Halts Fault.Foreign (fun d ↦ (env.matchTo d s t).run) (env.depth [s, t])
  equivalent : ∀ s t, FailsBy Fault.Foreign (env.equivalent s t)
  names : ∀ t, Halts Fault.Foreign (fun d ↦ env.namesTo d t) (env.depth [t])
  freeNames : ∀ t, FailsBy Fault.Foreign (env.freeNames t)
  form : ∀ t, Halts Failure.Unwritten (fun d ↦ env.formTo d t) (env.depth [t])
  unparse : ∀ t, FailsBy Failure.Unwritten (env.unparse t)

theorem algebra_terminates (h : env.Acyclic) : env.Terminating where
  subtype := h.subtypeTo_halts
  unionOrder s t := h.orderBy_halts s t .gt
  interOrder s t := h.orderBy_halts s t .lt
  order := h.order_failsBy
  join := h.joinTo_halts
  meet := h.meetTo_halts
  distribute := h.distributeTo_halts
  normalize := h.normalize_failsBy
  diff := h.diffTo_halts
  equal := h.equalTo_halts
  matching := h.matchTo_halts
  equivalent s t := by
    refine (h.matchTo_halts s t _ le_rfl).2.bind fun pairs ↦ ?_
    cases pairs <;> exact failsBy_of_ok rfl
  names := h.namesTo_halts
  freeNames t := (h.namesTo_halts t _ le_rfl).2.bind fun _ ↦ failsBy_of_ok rfl
  form := h.formTo_halts
  unparse t := by
    have hform : FailsBy Failure.Unwritten (env.formTo (env.depth [t]) t) := (h.formTo_halts t _ le_rfl).2
    rw [unparse]
    cases hf : env.formTo (env.depth [t]) t with
    | error e => exact fun e' he ↦ hform e' (by rw [hf]; cases he; rfl)
    | ok form => exact failsBy_of_ok rfl

-- `x` is bound to a type that mentions `y`, and `z` has no cell here.
theorem algebra_terminates_bound_variable :
    (∀ d ≥ (Env.mk [⟨"x", some (.union [.var ⟨"y", some 1⟩, .atomic .number])⟩, ⟨"y", none⟩] 1).depth
        [.var ⟨"x", some 0⟩, .var ⟨"y", some 1⟩],
      ((Env.mk [⟨"x", some (.union [.var ⟨"y", some 1⟩, .atomic .number])⟩, ⟨"y", none⟩] 1).diffTo d
        (.var ⟨"x", some 0⟩) (.var ⟨"y", some 1⟩)).outcome = .ok (.atomic .number)) ∧
    ∀ d ≥ (Env.mk [⟨"x", some (.union [.var ⟨"y", some 1⟩, .atomic .number])⟩, ⟨"y", none⟩] 1).depth
        [.inter [.var ⟨"x", some 0⟩, .var ⟨"z", some 7⟩], .absent],
      ((Env.mk [⟨"x", some (.union [.var ⟨"y", some 1⟩, .atomic .number])⟩, ⟨"y", none⟩] 1).subtypeTo d
        (.inter [.var ⟨"x", some 0⟩, .var ⟨"z", some 7⟩]) .absent).outcome = .error (.foreign "z") := by
  have hacyclic :
      (Env.mk [⟨"x", some (.union [.var ⟨"y", some 1⟩, .atomic .number])⟩, ⟨"y", none⟩] 1).Acyclic := by
    intro v t hb hr
    obtain ⟨i, cell, hi, hc, ht⟩ := hb.cell
    rcases i with _ | _ | i
    · cases hc
      cases ht
      cases List.mem_singleton.1 (Free.mem_vars (by decide +kernel) hr)
      cases hi
    · cases hc
      cases ht
    · cases hc
  have h := algebra_terminates hacyclic
  exact ⟨fun d hd ↦ (h.diff _ _ d hd).1.trans (by decide +kernel),
    fun d hd ↦ (h.subtype _ _ d hd).1.trans (by decide +kernel)⟩

end Env

end TypeAlgebra
