import TypeAlgebra.Proofs.Bindings
import TypeAlgebra.Proofs.Evaluation

namespace TypeAlgebra

namespace Step

variable {α β : Type}

def Steady (step : Step α) : Prop :=
  ∀ context, (step.run context).2.stem = context.stem ∧ (step.run context).2.issued = context.issued

theorem steady_pure (a : α) : Steady (pure a) :=
  fun _ ↦ ⟨rfl, rfl⟩

theorem steady_fail (problem : Problem) : Steady (fail problem : Step α) :=
  fun _ ↦ ⟨rfl, rfl⟩

theorem Steady.bind {step : Step α} {f : α → Step β} (h : Steady step) (hf : ∀ a, Steady (f a)) :
    Steady (step >>= f) := by
  intro context
  have hstep := h context
  rw [run_bind]
  rcases hr : step.run context with ⟨_ | a, next⟩
  · rw [hr] at hstep
    exact hstep
  · rw [hr] at hstep
    obtain ⟨hs, hi⟩ := hf a next
    exact ⟨hs.trans hstep.1, hi.trans hstep.2⟩

theorem steady_ofRun (run : Env → Run α) : Steady (ofRun run) := by
  intro context
  rw [run_ofRun]
  exact ⟨rfl, rfl⟩

end Step

namespace Parser

open Step (Steady steady_pure steady_fail steady_ofRun)

variable {start : Nat}

theorem steady_parseAtom (name : String) : Steady (parseAtom start name) := by
  unfold parseAtom
  split
  · exact steady_pure _
  · split
    · exact steady_pure _
    · split
      · exact steady_fail _
      · split
        · intro context
          rw [run_parseVar]
          split <;> exact ⟨rfl, rfl⟩
        · exact steady_fail _

theorem steady_single (tree : Tree) (t : Ty) : Steady (single tree t) := by
  unfold single
  split
  · exact steady_fail _
  · exact steady_pure _

theorem steady_parseEach {trees : List Tree} (h : ∀ tree ∈ trees, Steady (parseTree start tree)) :
    Steady (parseEach start trees) := by
  induction trees with
  | nil =>
    rw [parseEach]
    exact steady_pure _
  | cons tree trees ih =>
    obtain ⟨hd, htl⟩ := List.forall_mem_cons.1 h
    rw [parseEach]
    exact hd.bind fun t ↦ (ih htl).bind fun ts ↦ steady_pure _

theorem steady_parseParams {trees : List Tree} (h : ∀ tree ∈ trees, Steady (parseTree start tree)) :
    Steady (parseParams start trees) := by
  induction trees with
  | nil =>
    rw [parseParams]
    exact steady_pure _
  | cons tree trees ih =>
    obtain ⟨hd, htl⟩ := List.forall_mem_cons.1 h
    rw [parseParams]
    exact hd.bind fun t ↦ (steady_single tree t).bind fun s ↦ (ih htl).bind fun ts ↦ steady_pure _

theorem steady_parseTree (tree : Tree) : Steady (parseTree start tree) := by
  induction tree using Clause.tree_induction with
  | atom name =>
    rw [parseTree]
    exact steady_parseAtom name
  | literal text =>
    rw [parseTree]
    exact steady_fail _
  | group items ih =>
    rw [parseTree]
    split
    · exact steady_fail _
    · next parts hc => exact (steady_parseEach (ih _ hc)).bind fun ts ↦ steady_ofRun _
    · next parts hc => exact (steady_parseEach (ih _ hc)).bind fun ts ↦ steady_ofRun _
    · next inner hc => exact (ih _ hc inner List.mem_cons_self).bind fun t ↦ steady_pure _
    · next params result hc =>
      obtain ⟨hparams, hresult⟩ := List.forall_mem_append.1 (ih _ hc)
      refine (steady_parseParams hparams).bind fun ts ↦ ?_
      refine (hresult result List.mem_cons_self).bind fun t ↦ ?_
      exact (steady_single result t).bind fun s ↦ steady_pure _

theorem steady_parseText (text : String) : Steady (parseText start text) := by
  unfold parseText
  split
  · exact steady_parseTree _
  · exact steady_fail _

theorem steady_parseTexts (texts : List String) : Steady (texts.mapM (parseText start)) := by
  induction texts with
  | nil => exact steady_pure _
  | cons text texts ih =>
    rw [List.mapM_cons]
    exact (steady_parseText text).bind fun t ↦ ih.bind fun ts ↦ steady_pure _

end Parser

def Action.isFreshVar : Action → Bool
  | freshVar => true
  | _ => false

namespace Context

variable {context : Context} {action : Action}

def names (context : Context) : List String :=
  context.cells.map (·.name)

def nextName (context : Context) : String :=
  context.stem ++ toString (context.issued + 1)

def made (context : Context) (action : Action) : List String :=
  (context.perform action).names.drop context.names.length

/-- The names that variables have been given in the course of some actions, fresh names apart. -/
def given (context : Context) : List Action → List String
  | [] => []
  | action :: actions =>
    (if action.isFreshVar then [] else context.made action) ++ (context.perform action).given actions

theorem run_freshVar (context : Context) :
    Step.freshVar.run context = (.ok ⟨context.nextName, some context.cells.length⟩,
      { context with cells := context.cells ++ [⟨context.nextName, none⟩], issued := context.issued + 1 }) :=
  rfl

theorem names_perform_freshVar (context : Context) :
    (context.perform .freshVar).names = context.names ++ [context.nextName] := by
  rw [perform, run_freshVar, names, names, List.map_append]
  rfl

theorem names_bind {v : Var} {t : Ty} {cells : Cells} (h : context.cells.bind v t = .ok cells) :
    cells.map (·.name) = context.names := by
  obtain ⟨i, d, -, hc, rfl, -, -⟩ := Cells.bind_eq_ok h
  obtain ⟨hlt, hcell⟩ := List.getElem?_eq_some_iff.1 hc
  have hlt' : i < (context.cells.map (·.name)).length := by simpa using hlt
  have hname : v.name = (context.cells.map (·.name))[i] := by simp [hcell]
  rw [names, List.map_set]
  change (context.cells.map (·.name)).set i v.name = _
  rw [hname, List.set_getElem_self]

theorem names_perform (context : Context) (action : Action) :
    (context.perform action).names = context.names ++ context.made action := by
  have of_append {more : List String} (h : (context.perform action).names = context.names ++ more) :
      (context.perform action).names = context.names ++ context.made action := by
    rw [made, h, List.drop_left]
  rcases context.perform_cases action with hg | ⟨v, t, cells, hb, he⟩
  · obtain ⟨names, hn⟩ := hg.cells
    apply of_append
    rw [Context.names, hn, List.map_append]
    rfl
  · apply @of_append []
    rw [he, List.append_nil]
    exact names_bind hb

theorem perform_steady (h : action.isFreshVar = false) :
    (context.perform action).stem = context.stem ∧ (context.perform action).issued = context.issued := by
  cases action with
  | newVar name => exact ⟨rfl, rfl⟩
  | freshVar => cases h
  | parse text => exact Parser.steady_parseText text context
  | parseTree tree => exact Parser.steady_parseTree tree context
  | parseAll texts => exact Parser.steady_parseTexts texts context
  | bind v t =>
    rw [perform, run_bindCells]
    split <;> exact ⟨rfl, rfl⟩

theorem eq_freshVar (h : action.isFreshVar = true) : action = .freshVar := by
  cases action <;> cases h
  rfl

theorem performAll_stem (context : Context) (actions : List Action) :
    (context.performAll actions).stem = context.stem ∧
      context.issued ≤ (context.performAll actions).issued := by
  induction actions generalizing context with
  | nil => exact ⟨rfl, le_rfl⟩
  | cons action actions ih =>
    obtain ⟨hstem, hissued⟩ := ih (context.perform action)
    cases hf : action.isFreshVar with
    | true =>
      obtain rfl := eq_freshVar hf
      exact ⟨hstem, (Nat.le_succ _).trans hissued⟩
    | false =>
      obtain ⟨hs, hi⟩ := @perform_steady context action hf
      exact ⟨hstem.trans hs, hi ▸ hissued⟩

/-- The names of the variables after some actions: those there before, those given and the fresh ones. -/
theorem mem_names_performAll (context : Context) (actions : List Action) (name : String) :
    name ∈ (context.performAll actions).names ↔
      name ∈ context.names ∨ name ∈ context.given actions ∨
        ∃ k, context.issued < k ∧ k ≤ (context.performAll actions).issued ∧
          name = context.stem ++ toString k := by
  induction actions generalizing context with
  | nil =>
    refine ⟨.inl, ?_⟩
    rintro (h | h | ⟨k, hlt, hle, -⟩)
    · exact h
    · cases h
    · exact absurd hle (Nat.not_le_of_lt hlt)
  | cons action actions ih =>
    have hstep : (context.performAll (action :: actions)) = (context.perform action).performAll actions := rfl
    obtain ⟨-, hle⟩ := performAll_stem (context.perform action) actions
    rw [hstep, ih, given]
    cases hf : action.isFreshVar with
    | true =>
      obtain rfl := eq_freshVar hf
      have hfirst : (∃ k, context.issued < k ∧ k ≤ ((context.perform .freshVar).performAll actions).issued ∧
            name = context.stem ++ toString k) ↔
          name = context.nextName ∨ ∃ k, context.issued + 1 < k ∧
            k ≤ ((context.perform .freshVar).performAll actions).issued ∧ name = context.stem ++ toString k := by
        constructor
        · rintro ⟨k, hlt, hk, rfl⟩
          rcases Nat.eq_or_lt_of_le (Nat.succ_le_of_lt hlt) with rfl | hlt
          · exact .inl rfl
          · exact .inr ⟨k, hlt, hk, rfl⟩
        · rintro (rfl | ⟨k, hlt, hk, rfl⟩)
          · exact ⟨context.issued + 1, Nat.lt_succ_self _, hle, rfl⟩
          · exact ⟨k, (Nat.lt_succ_self _).trans hlt, hk, rfl⟩
      rw [hfirst, names_perform_freshVar, List.mem_append, List.mem_singleton]
      simp only [if_true, List.nil_append, or_assoc]
      exact or_congr_right or_left_comm
    | false =>
      obtain ⟨hs, hi⟩ := @perform_steady context action hf
      rw [names_perform, hs, hi, List.mem_append, List.mem_append]
      simp only [Bool.false_eq_true, if_false, or_assoc]

theorem mem_names_new (limit : Int64) (stem : String) (actions : List Action) (name : String) :
    name ∈ (performAll { limit, stem } actions).names ↔
      name ∈ given { limit, stem } actions ∨
        ∃ k, 0 < k ∧ k ≤ (performAll { limit, stem } actions).issued ∧ name = stem ++ toString k := by
  have hnone : name ∉ names { limit, stem } := List.not_mem_nil
  rw [mem_names_performAll, or_iff_right hnone]

theorem fresh_name_injective {stem : String} {k n : Nat} (h : stem ++ toString k = stem ++ toString n) :
    k = n := by
  have hdigits := (String.append_right_inj stem).1 h
  rw [Nat.toString_eq_ofList_toDigits, Nat.toString_eq_ofList_toDigits, String.ofList_inj] at hdigits
  rw [← @Nat.ofDigitChars_ten_toDigits k, hdigits, Nat.ofDigitChars_ten_toDigits]

/-- A fresh name has not been given out by the counter before. -/
theorem nextName_mem_names (limit : Int64) (stem : String) (actions : List Action) :
    (performAll { limit, stem } actions).nextName ∈ (performAll { limit, stem } actions).names ↔
      (performAll { limit, stem } actions).nextName ∈ given { limit, stem } actions := by
  rw [mem_names_new, or_iff_left]
  rintro ⟨k, -, hk, he⟩
  rw [nextName, (performAll_stem _ actions).1] at he
  have hkn := fresh_name_injective he
  omega

theorem equal_vars {env : Env} {v w : Var} (hv : env.cells.contents v = .ok none)
    (hw : env.cells.contents w = .ok none) (hn : v.name ≠ w.name) :
    env.equal (.var v) (.var w) = .ok false := by
  have hfree {x : Var} (hx : env.cells.contents x = .ok none) : env.Free (.var x) := by
    intro y hy
    obtain rfl := List.mem_singleton.1 hy
    exact hx
  rw [Env.equal_eq (hfree hv).founded (hfree hw).founded]
  refine congrArg Except.ok (Bool.eq_false_of_not_eq_true fun h ↦ ?_)
  have hd : v.detached = w.detached := Ty.var.inj ((Env.same_iff (hfree hv) (hfree hw)).1 h)
  have hname : v.detached.name = w.detached.name := congrArg Var.name hd
  exact hn hname

/--
The next fresh variable after any actions on a new context. Its name is not that of an earlier fresh variable; it is
the name of a variable of the context exactly if a variable has been given this name otherwise; and if none has, the
fresh variable is not equal to a variable of the context, whenever both are unbound.
-/
theorem freshVar_new (limit : Int64) (stem : String) (actions : List Action) :
    ∃ v next, Step.freshVar.run (performAll { limit, stem } actions) = (.ok v, next) ∧
      (∀ before after, actions = before ++ .freshVar :: after →
        ∀ w last, Step.freshVar.run (performAll { limit, stem } before) = (.ok w, last) → w.name ≠ v.name) ∧
      (v.name ∈ (performAll { limit, stem } actions).names ↔ v.name ∈ given { limit, stem } actions) ∧
      (v.name ∉ given { limit, stem } actions →
        ∀ w, w.name ∈ (performAll { limit, stem } actions).names → v.name ≠ w.name ∧
          ∀ env : Env, env.cells.contents v = .ok none → env.cells.contents w = .ok none →
            env.equal (.var v) (.var w) = .ok false) := by
  refine ⟨_, _, run_freshVar _, ?_, nextName_mem_names limit stem actions, fun hnew w hw ↦ ?_⟩
  · rintro before after rfl w last hw
    rw [run_freshVar] at hw
    cases hw
    intro he
    have hstem := (performAll_stem { limit, stem } before).1
    have hstem' := (performAll_stem { limit, stem } (before ++ .freshVar :: after)).1
    have hlt := (performAll_stem ((performAll { limit, stem } before).perform .freshVar) after).2
    rw [nextName, nextName, hstem, hstem'] at he
    have hkn := fresh_name_injective he
    have happend : performAll { limit, stem } (before ++ .freshVar :: after) =
        ((performAll { limit, stem } before).perform .freshVar).performAll after := List.foldl_append
    have hissued : ((performAll { limit, stem } before).perform .freshVar).issued =
        (performAll { limit, stem } before).issued + 1 := rfl
    rw [happend] at hkn
    omega
  · have hne : (performAll { limit, stem } actions).nextName ≠ w.name := by
      intro he
      exact hnew ((nextName_mem_names limit stem actions).1 (he ▸ hw))
    exact ⟨hne, fun env hv hw ↦ equal_vars hv hw hne⟩

-- A parsed variable has the name of a later fresh one, but not of the next.
theorem freshVar_new_after_parse :
    ∃ v next, Step.freshVar.run
        (performAll { limit := 0, stem := "T_" } [.parse "(union y T_3)", .freshVar, .newVar "T_"]) =
          (.ok v, next) ∧
      v.name = "T_2" ∧ ∀ env : Env, env.cells.contents v = .ok none →
        env.equal (.var v) (.var ⟨"T_3", none⟩) = .ok false := by
  obtain ⟨v, next, hr, -, -, hnew⟩ :=
    freshVar_new 0 "T_" [.parse "(union y T_3)", .freshVar, .newVar "T_"]
  have hv : v.name = "T_2" := by
    have hrun : (Step.freshVar.run
        (performAll { limit := 0, stem := "T_" } [.parse "(union y T_3)", .freshVar, .newVar "T_"])).1 =
          .ok ⟨"T_2", some 4⟩ := by decide +kernel
    rw [hr] at hrun
    cases hrun
    rfl
  refine ⟨v, next, hr, hv, fun env hc ↦ ?_⟩
  have hgiven : v.name ∉ given { limit := 0, stem := "T_" }
      [.parse "(union y T_3)", .freshVar, .newVar "T_"] := by
    rw [hv]
    decide +kernel
  exact (hnew hgiven ⟨"T_3", none⟩ (by decide +kernel)).2 env hc rfl

/-- A parsed variable may have the name that the next fresh variable gets. -/
theorem freshVar_named_as_parsed :
    ¬∀ (limit : Int64) (stem : String) (actions : List Action) (v : Var) (next : Context),
      Step.freshVar.run (performAll { limit, stem } actions) = (.ok v, next) →
        v.name ∉ (performAll { limit, stem } actions).names := by
  intro h
  exact h 0 "T_" [.parse "T_1"] ⟨"T_1", some 1⟩ _ (Prod.ext (by decide +kernel) rfl) (by decide +kernel)

end Context

end TypeAlgebra
