import TypeAlgebra.Command.Evaluate
import TypeAlgebra.Proofs.Denotation
import TypeAlgebra.Proofs.Halting

namespace TypeAlgebra

open Coupling (excused)

/-- A recursion that halts gives the same at any two depths where it has halted. -/
theorem Halts.eq {ε α : Type} {F : ε → Prop} {run : Nat → Except ε α} {d d' : Nat} (h : Halts F run d)
    (h' : Halts F run d') : run d = run d' :=
  (h (max d d') (le_max_left d d')).1.symm.trans (h' (max d d') (le_max_right d d')).1

/-- A recursion that succeeds has halted, if it gives the same with more depth. -/
theorem halts_of_ok {α : Type} {R : α → α → Prop} {run : Nat → Except Fault α} {depth : Nat} {a : α}
    (hR : ∀ a b, R a b → b = a)
    (hdeep : ∀ lag, (excused (· = Fault.unfounded)).rel R (run depth) (run (depth + lag)))
    (h : run depth = .ok a) : Halts (fun _ ↦ False) run depth :=
  halts_of_deepened hdeep hR (fun _ he ↦ he.elim) (failsBy_of_ok h)

namespace Env

variable {env : Env} {s t : Ty} {d : Nat}

theorem diffTo_halts {r : Ty} (h : (env.diffTo d s t).outcome = .ok r) :
    Halts (fun _ ↦ False) (fun d ↦ (env.diffTo d s t).outcome) d := by
  have hdeep (lag : Nat) := ((deepening env 0).agreement (depth_rename_id env)).diffTo (deepening env lag) d
    (over_true s) (over_true t)
  simp only [Ty.rename_id] at hdeep
  exact halts_of_ok (fun _ _ ↦ Renamed.eq) hdeep h

theorem matchTo_halts {found : Option (List (String × String))} (h : (env.matchTo d s t).run = .ok found) :
    Halts (fun _ ↦ False) (fun d ↦ (env.matchTo d s t).run) d := by
  have hdeep (lag : Nat) := (deepening env lag).matchTo d (over_true s) (over_true t)
  simp only [Ty.rename_id] at hdeep
  refine halts_of_ok ?_ hdeep h
  rintro _ _ (rfl | _) <;> rfl

theorem detachment_agreement (env : Env) :
    Agreement (fun _ ↦ False) env (vacant env.limit) Var.detached
      fun v ↦ env.cells.contents v = .ok none where
  deref := (detachment env).deref
  equal s t hs ht := by
    have hs' := free_detached env.limit s
    have ht' := free_detached env.limit t
    refine .inr (.inl ⟨_, _, equal_eq (Free.founded hs) (Free.founded ht), equal_eq hs'.founded ht'.founded, ?_⟩)
    exact same_detached hs ht
  subtype s t hs ht := by
    have hs' := free_detached env.limit s
    have ht' := free_detached env.limit t
    refine .inr (.inl ⟨_, _, subtype_eq (Free.founded hs) (Free.founded ht),
      subtype_eq hs'.founded ht'.founded, ?_⟩)
    exact below_detached hs ht
  join ts hts := by
    have hts' : (vacant env.limit).Free (.union (ts.map Ty.detached)) :=
      free_union.2 (List.forall_mem_map.2 fun t _ ↦ free_detached _ t)
    refine .inr (.inl ⟨_, _, join_eq (free_union.2 hts).founded, join_eq hts'.founded, ?_⟩)
    exact ⟨Free.joined hts, (joined_detached hts).symm⟩
  meet ts hts := by
    have hts' : (vacant env.limit).Free (.inter (ts.map Ty.detached)) :=
      free_inter.2 (List.forall_mem_map.2 fun t _ ↦ free_detached _ t)
    refine .inr (.inl ⟨_, _, meet_eq (free_inter.2 hts).founded, meet_eq hts'.founded, ?_⟩)
    exact ⟨Free.met hts, (met_detached hts).symm⟩

def difference (env : Env) (s t : Ty) : Ty :=
  answer (env.diff s t).outcome

theorem diff_detached (hs : env.Free s) (ht : env.Free t) :
    ∃ r, (env.diff s t).outcome = .ok r ∧
      env.Detaches r ((vacant env.limit).difference s.detached t.detached) := by
  obtain ⟨r, hr, -⟩ := diffTo_founded hs.founded ht.founded (rank_lt_depth (show t ∈ [s, t] by simp))
  obtain ⟨r', hr', -⟩ := diffTo_founded (free_detached env.limit s).founded (free_detached env.limit t).founded
    (rank_lt_depth (show t.detached ∈ [s.detached, t.detached] by simp))
  have hsim := ((detachment_agreement env).diffTo (detachment env) (env.depth [s, t]) hs ht).resolve_left nofun
  rcases hsim with ⟨u, _, hu, hv, hf, rfl⟩ | ⟨e, he, -⟩
  · cases hr.symm.trans hu
    have hd : ((vacant env.limit).diff s.detached t.detached).outcome = .ok r.detached :=
      ((diffTo_halts hr').eq (diffTo_halts hv)).trans hv
    refine ⟨r, hr, hf, ?_⟩
    rw [difference, hd]
    rfl
  · cases hr.symm.trans he

theorem matchTo_detached (d : Nat) (hs : env.Free s) (ht : env.Free t) :
    (env.matchTo d s t).run = ((vacant env.limit).matchTo d s.detached t.detached).run := by
  rcases ((detachment env).matchTo d hs ht).resolve_left nofun with ⟨_, _, hx, hy, rfl | _⟩ | ⟨e, hx, hy⟩
  · exact hx.trans hy.symm
  · exact hx.trans hy.symm
  · exact hx.trans hy.symm

theorem equivalent_detached (hs : env.Free s) (ht : env.Free t) :
    env.equivalent s t = (vacant env.limit).equivalent s.detached t.detached := by
  obtain ⟨found, -, hm, -⟩ := matchTo_founded hs.founded ht.founded (rank_lt_depth (show s ∈ [s, t] by simp))
  obtain ⟨found', -, hm', -⟩ := matchTo_founded (free_detached env.limit s).founded
    (free_detached env.limit t).founded (rank_lt_depth (show s.detached ∈ [s.detached, t.detached] by simp))
  rw [matchTo_detached _ hs ht] at hm
  have hd := (matchTo_halts hm).eq (matchTo_halts hm')
  rw [equivalent, equivalent, matchTo_detached _ hs ht, hd]

theorem exists_equivalent (hs : env.Free s) (ht : env.Free t) : ∃ verdict, env.equivalent s t = .ok verdict := by
  obtain ⟨found, -, hm, -⟩ := matchTo_founded hs.founded ht.founded (rank_lt_depth (show s ∈ [s, t] by simp))
  rw [equivalent, hm]
  cases found <;> exact ⟨_, rfl⟩

theorem unparse_eq (ht : env.Free t) : env.unparse t = (vacant env.limit).unparse t.detached :=
  congrArg (Except.map Tree.format) (form_detached ht)

theorem unparse_faultless (ht : env.Founded t) : Faultless (env.unparse t) := by
  have hf : Faultless (env.form t) := form_faultless ht
  change Faultless ((env.form t).map Tree.format)
  intro fault he
  cases hr : env.form t with
  | ok trees =>
    rw [hr] at he
    cases he
  | error failure =>
    rw [hr] at he
    cases he
    exact hf fault hr

end Env

namespace Operator

def value (limit : Int64) : Operator → Ty → Ty → Except Failure String
  | subtype, s, t => .ok (toString ((Env.vacant limit).below s t))
  | equivalence, s, t => .ok (toString (answer ((Env.vacant limit).equivalent s t)))
  | difference, s, t => (Env.vacant limit).unparse ((Env.vacant limit).difference s t)

end Operator

namespace Step

variable {α : Type} {context : Context} {s t u v : Ty}

theorem run_ask (question : Env → Except Failure α) (context : Context) :
    (ask question).run context = (question context.env, context) := by
  change (ask fun _ ↦ question context.env).run context = _
  cases question context.env <;> rfl

theorem run_map {β : Type} (f : α → β) (step : Step α) (context : Context) :
    (f <$> step).run context = ((step.run context).1.map f, (step.run context).2) := by
  rw [map_eq_pure_bind, run_bind]
  rcases step.run context with ⟨_ | a, next⟩ <;> rfl

theorem apply_eq_value (operator : Operator) (hs : context.env.Detaches s u) (ht : context.env.Detaches t v) :
    ((operator.apply s t).run context).1 = operator.value context.limit u v ∧
      Faultless (operator.value context.limit u v) := by
  obtain ⟨hs, rfl⟩ := hs
  obtain ⟨ht, rfl⟩ := ht
  cases operator with
  | subtype =>
    refine ⟨?_, faultless_ok _⟩
    rw [Operator.apply, Step.subtype, run_map, run_ofRun, Env.subtype_eq hs.founded ht.founded,
      Env.below_detached hs ht]
    rfl
  | equivalence =>
    refine ⟨?_, faultless_ok _⟩
    obtain ⟨verdict, hv⟩ := Env.exists_equivalent hs ht
    have hd : (Env.vacant context.limit).equivalent s.detached t.detached = .ok verdict :=
      (Env.equivalent_detached hs ht).symm.trans hv
    rw [Operator.apply, Step.equivalent, run_map, run_ask, Operator.value, hv, hd]
    rfl
  | difference =>
    obtain ⟨r, hr, hf, hd⟩ := Env.diff_detached hs ht
    have hvalue : Operator.difference.value context.limit s.detached t.detached = context.env.unparse r := by
      rw [Operator.value, show (Env.vacant context.limit).difference _ _ = _ from hd]
      exact (Env.unparse_eq hf).symm
    rw [hvalue]
    refine ⟨?_, Env.unparse_faultless (Env.Free.founded hf)⟩
    rw [Operator.apply, run_bind, Step.diff, run_ofRun, hr]
    change ((ask (·.unparse r)).run _).1 = _
    rw [run_ask]
    rfl

theorem Realizes.bind_value {β γ : Type} {R : Context → α → β → Prop} {step : Step α} {f : α → Step γ}
    {x : Except Problem β} {g : β → Except Failure γ} (h : Realizes step context R x)
    (hf : ∀ a b next, context.Grows next → R next a b → ((f a).run next).1 = g b ∧ Faultless (g b)) :
    ((step >>= f).run context).1 = x.mapError .problem >>= g ∧ Faultless (x.mapError .problem >>= g) := by
  rw [run_bind]
  cases h with
  | failed _ hr =>
    rw [hr]
    exact ⟨rfl, nofun⟩
  | done hg hr hab =>
    rw [hr]
    exact hf _ _ _ hg hab

def value (limit : Int64) (line : String) : Except Failure String :=
  match Operator.split? line with
  | some (operator, left, right) => do
    let (s, t) ← (Parser.denotePair limit left right).mapError .problem
    operator.value limit s t
  | none => do (Env.vacant limit).unparse (← (Parser.denoteText limit line).mapError .problem)

/-- A line is evaluated to its value in every context. -/
theorem evaluate_eq_value (line : String) (context : Context) :
    ((evaluate line).run context).1 = value context.limit line ∧ Faultless (value context.limit line) := by
  unfold evaluate value
  rcases Operator.split? line with _ | ⟨operator, left, right⟩
  · refine (parse_realizes line context).bind_value fun t u next hg h ↦ ?_
    obtain ⟨hf, rfl⟩ := h
    have ht : next.env.unparse t = (Env.vacant context.limit).unparse t.detached := by
      rw [Env.unparse_eq hf, ← hg.limit]
      rfl
    refine ⟨?_, ht ▸ Env.unparse_faultless (Env.Free.founded hf)⟩
    rw [unparse, run_ask, ht]
  · refine (parsePair_realizes left right context).bind_value fun st uv next hg h ↦ ?_
    rw [← hg.limit]
    exact apply_eq_value operator h.1 h.2

theorem bind_grows {β : Type} {step : Step α} {f : α → Step β} (h : context.Grows (step.run context).2)
    (hf : ∀ a (next : Context), next.Grows ((f a).run next).2) : context.Grows ((step >>= f).run context).2 := by
  rw [run_bind]
  rcases hr : step.run context with ⟨_ | a, next⟩
  · rwa [hr] at h
  · rw [hr] at h
    exact h.trans (hf a next)

theorem ask_grows (question : Env → Except Failure α) (context : Context) :
    context.Grows ((ask question).run context).2 := by
  rw [run_ask]
  exact .refl context

theorem ofRun_grows (run : Env → Run α) (context : Context) : context.Grows ((ofRun run).run context).2 := by
  rw [run_ofRun]
  exact Parser.grows_warnings context _

theorem apply_grows (operator : Operator) (s t : Ty) (context : Context) :
    context.Grows ((operator.apply s t).run context).2 := by
  cases operator with
  | subtype =>
    rw [Operator.apply, run_map]
    exact ofRun_grows _ context
  | equivalence =>
    rw [Operator.apply, run_map]
    exact ask_grows _ context
  | difference => exact bind_grows (ofRun_grows _ context) fun r next ↦ ask_grows _ next

theorem evaluate_grows (line : String) (context : Context) : context.Grows ((evaluate line).run context).2 := by
  unfold evaluate
  rcases Operator.split? line with _ | ⟨operator, left, right⟩
  · exact bind_grows (parse_realizes line context).grows fun t next ↦ ask_grows _ next
  · exact bind_grows (parsePair_realizes left right context).grows fun st next ↦
      apply_grows operator st.1 st.2 next

end Step

theorem Faultless.exists_eq {α : Type} {x : Except Failure α} (h : Faultless x) :
    ∃ y : Except Problem α, x = y.mapError .problem := by
  match x with
  | .ok a => exact ⟨.ok a, rfl⟩
  | .error (.problem problem) => exact ⟨.error problem, rfl⟩
  | .error (.fault fault) => exact absurd rfl (h fault)

end TypeAlgebra
