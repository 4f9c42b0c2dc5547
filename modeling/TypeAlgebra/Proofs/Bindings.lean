import TypeAlgebra.Proofs.Denotation
import Mathlib.Data.Fintype.Card

namespace TypeAlgebra

namespace Env

variable {env env' : Env} {t u d : Ty} {n m : Nat}

/-- By following `n` bindings one comes from one type to another, where none is left to follow. -/
inductive Follows (env : Env) : Nat → Ty → Ty → Prop
  | done {t : Ty} : env.Resolved t → Follows env 0 t t
  | step {n : Nat} {v : Var} {t u : Ty} : env.Binds v t → Follows env n t u → Follows env (n + 1) (.var v) u

theorem Follows.resolved (h : env.Follows n t u) : env.Resolved u := by
  induction h with
  | done hr => exact hr
  | step _ _ ih => exact ih

theorem Resolved.not_binds {v : Var} (h : env.Resolved (.var v)) : ¬env.Binds v t := by
  intro hb
  cases (h v rfl).symm.trans hb

theorem Follows.unique (h : env.Follows n t u) (h' : env.Follows m t d) : n = m ∧ u = d := by
  induction h generalizing m with
  | done hr =>
    cases h' with
    | done => exact ⟨rfl, rfl⟩
    | step hb => exact absurd hb hr.not_binds
  | step hb _ ih =>
    cases h' with
    | done hr => exact absurd hb hr.not_binds
    | step hb' hf' =>
      cases hb.symm.trans hb'
      obtain ⟨rfl, rfl⟩ := ih hf'
      exact ⟨rfl, rfl⟩

theorem Follows.follow (h : env.Follows n t u) {steps : Nat} (hs : n < steps) :
    env.cells.follow steps t = .ok u := by
  induction h generalizing steps with
  | @done t hr =>
    obtain ⟨steps, rfl⟩ := Nat.exists_eq_succ_of_ne_zero (Nat.ne_of_gt hs)
    cases t with
    | var v =>
      rw [Cells.follow, hr v rfl]
      rfl
    | _ => rfl
  | step hb _ ih =>
    obtain ⟨steps, rfl⟩ := Nat.exists_eq_succ_of_ne_zero (Nat.ne_of_gt (Nat.zero_lt_of_lt hs))
    rw [Cells.follow, show env.cells.contents _ = _ from hb]
    exact ih (by omega)

theorem exists_follows {steps : Nat} (h : env.cells.follow steps t = .ok u) : ∃ n, env.Follows n t u := by
  induction steps generalizing t with
  | zero => cases h
  | succ steps ih =>
    cases ht : t.isVar
    · have hu : u = t := by cases t <;> cases ht <;> cases h <;> rfl
      subst hu
      exact ⟨0, .done (resolved_of_not_var ht)⟩
    · cases t <;> cases ht
      next v =>
      rw [Cells.follow] at h
      cases hc : env.cells.contents v with
      | error =>
        rw [hc] at h
        cases h
      | ok c =>
        rw [hc] at h
        cases c with
        | none =>
          cases h
          refine ⟨0, .done ?_⟩
          rintro _ ⟨⟩
          exact hc
        | some s =>
          obtain ⟨n, hn⟩ := ih h
          exact ⟨n + 1, .step hc hn⟩

theorem Follows.exists_var (h : env.Follows n t u) {k : Nat} (hk : k < n) :
    ∃ v s, env.Binds v s ∧ env.Follows (k + 1) (.var v) u := by
  induction h with
  | done => omega
  | @step n v t u hb hf ih =>
    rcases Nat.lt_succ_iff_lt_or_eq.1 hk with hk | rfl
    · exact ih hk
    · exact ⟨v, t, hb, .step hb hf⟩

/-- On the way to an end no cell is met twice, for the way from it to the end has one length. -/
theorem Follows.le_length (h : env.Follows n t u) : n ≤ env.cells.length := by
  have passed (k : Fin n) : ∃ i : Fin env.cells.length, ∃ v s, v.cell = some i.1 ∧ env.Binds v s ∧
      env.Follows (k + 1) (.var v) u := by
    obtain ⟨v, s, hb, hf⟩ := h.exists_var k.2
    obtain ⟨i, cell, hi, hc, -⟩ := hb.cell
    exact ⟨⟨i, (List.getElem?_eq_some_iff.1 hc).1⟩, v, s, hi, hb, hf⟩
  choose cell hcell using passed
  have hinj : Function.Injective cell := by
    intro k l hkl
    obtain ⟨v, s, hv, hb, hf⟩ := hcell k
    obtain ⟨w, r, hw, hb', hf'⟩ := hcell l
    obtain rfl := eq_of_cell_eq hb hb' hv (hkl ▸ hw)
    exact Fin.ext (Nat.succ.inj (hf.unique hf').1)
  simpa using Fintype.card_le_of_injective cell hinj

theorem deref_iff : env.cells.deref t = .ok u ↔ ∃ n, env.Follows n t u := by
  cases ht : t.isVar
  · have hd : env.cells.deref t = .ok t := by cases t <;> cases ht <;> rfl
    rw [hd]
    constructor
    · rintro ⟨⟩
      exact ⟨0, .done (resolved_of_not_var ht)⟩
    · rintro ⟨n, hf⟩
      rw [(hf.unique (.done (resolved_of_not_var ht))).2]
  · cases t <;> cases ht
    refine ⟨exists_follows, ?_⟩
    rintro ⟨n, hf⟩
    exact hf.follow (Nat.lt_add_right 1 (Nat.lt_succ_of_le hf.le_length))

theorem Follows.deref (h : env.Follows n t u) : env.cells.deref t = .ok u ∧ env.cells.deref u = .ok u :=
  ⟨deref_iff.2 ⟨n, h⟩, deref_iff.2 ⟨0, .done h.resolved⟩⟩

/-- Where all bindings are kept, one goes on from the old end. -/
theorem Follows.extend (h : env.Follows n t d) (hb : ∀ v s, env.Binds v s → env'.Binds v s)
    (h' : env'.Follows m d u) : ∃ k, env'.Follows k t u := by
  induction h with
  | done => exact ⟨m, h'⟩
  | step hv _ ih =>
    obtain ⟨k, hk⟩ := ih h'
    exact ⟨k + 1, .step (hb _ _ hv) hk⟩

end Env

namespace Cells

variable {before cells after : Cells} {v : Var} {t : Ty} {c : Option Ty}

/-- Every cell is where it was, has its name and is bound to what it was bound to. -/
def Kept (before after : Cells) : Prop :=
  ∀ (i : Nat) (cell : Cell), before[i]? = some cell →
    ∃ cell', after[i]? = some cell' ∧ cell'.name = cell.name ∧
      ∀ t, cell.contents = some t → cell'.contents = some t

theorem Kept.refl (cells : Cells) : Kept cells cells :=
  fun _ cell h ↦ ⟨cell, h, rfl, fun _ ht ↦ ht⟩

theorem Kept.trans (h : Kept before cells) (h' : Kept cells after) : Kept before after := by
  intro i cell hi
  obtain ⟨cell', hi', hn, hc⟩ := h i cell hi
  obtain ⟨cell'', hi'', hn', hc'⟩ := h' i cell' hi'
  exact ⟨cell'', hi'', hn'.trans hn, fun t ht ↦ hc' t (hc t ht)⟩

theorem Kept.contents (h : Kept before after) (hv : before.contents v = .ok c) :
    ∃ c', after.contents v = .ok c' ∧ ∀ t, c = some t → c' = some t := by
  rcases contents_eq_ok_iff.1 hv with ⟨hn, rfl⟩ | ⟨i, hi, hc⟩
  · exact ⟨none, contents_eq_ok_iff.2 (.inl ⟨hn, rfl⟩), nofun⟩
  · obtain ⟨⟨name, c'⟩, hc', rfl, hkept⟩ := h i _ hc
    exact ⟨c', contents_eq_ok_iff.2 (.inr ⟨i, hi, hc'⟩), hkept⟩

theorem Kept.binds {limit limit' : Int64} (h : Kept before after) (hb : Env.Binds ⟨before, limit⟩ v t) :
    Env.Binds ⟨after, limit'⟩ v t := by
  obtain ⟨c, hc, ht⟩ := h.contents hb
  rwa [ht t rfl] at hc

/-- The variable has no cell, or a cell of its name here. -/
def Owns (cells : Cells) (v : Var) : Prop :=
  v.cell = none ∨ ∃ i cell, v.cell = some i ∧ cells[i]? = some cell ∧ cell.name = v.name

theorem owns_iff : cells.Owns v ↔ ∃ c, cells.contents v = .ok c := by
  constructor
  · rintro (hn | ⟨i, ⟨name, c⟩, hi, hc, rfl⟩)
    · exact ⟨none, contents_eq_ok_iff.2 (.inl ⟨hn, rfl⟩)⟩
    · exact ⟨c, contents_eq_ok_iff.2 (.inr ⟨i, hi, hc⟩)⟩
  · rintro ⟨c, hc⟩
    rcases contents_eq_ok_iff.1 hc with ⟨hn, -⟩ | ⟨i, hi, hc⟩
    · exact .inl hn
    · exact .inr ⟨i, _, hi, hc, rfl⟩

theorem contents_set {i : Nat} {cell : Cell} (h : v.cell ≠ some i) :
    Cells.contents (cells.set i cell) v = cells.contents v := by
  unfold contents cellOf
  cases hv : v.cell with
  | none => rfl
  | some j =>
    have hij : i ≠ j := by
      rintro rfl
      exact h hv
    simp only [List.getElem?_set_ne hij]

theorem cellOf_eq_some {cell : Cell} (h : cells.cellOf v = .ok (some cell)) :
    ∃ i, v.cell = some i ∧ cells[i]? = some cell ∧ cell.name = v.name := by
  unfold cellOf at h
  split at h
  · cases h
  · next i hi =>
    split at h
    · next hc =>
      split at h
      · next hn =>
        cases h
        exact ⟨i, hi, hc, hn⟩
      · cases h
    · cases h

theorem leadsTo_eq_false (h : cells.leadsTo t v = .ok false) :
    ∃ d, cells.deref t = .ok d ∧ ∀ w, d = .var w → w.cell ≠ v.cell := by
  unfold leadsTo at h
  cases hd : cells.deref t with
  | error =>
    rw [hd] at h
    cases h
  | ok d =>
    refine ⟨d, rfl, ?_⟩
    rintro w rfl
    rw [hd] at h
    exact beq_eq_false_iff_ne.1 (Except.ok.inj h)

/-- A binding is made at the cell of an unbound variable, and not where the type leads to this cell. -/
theorem bind_eq_ok (h : cells.bind v t = .ok after) :
    ∃ (i : Nat) (d : Ty), v.cell = some i ∧ cells[i]? = some ⟨v.name, none⟩ ∧
      after = cells.set i ⟨v.name, some t⟩ ∧ cells.deref t = .ok d ∧ ∀ w, d = .var w → w.cell ≠ some i := by
  unfold bind at h
  cases hv : cells.cellOf v with
  | error =>
    rw [hv] at h
    cases h
  | ok found =>
    rw [hv] at h
    dsimp only [Bind.bind, Except.bind] at h
    split at h
    · next i cell hi =>
      split at h
      · cases h
      · cases h
      · next t _ _ _ hnone =>
        cases hl : cells.leadsTo t v with
        | error =>
          rw [hl] at h
          cases h
        | ok leads =>
          rw [hl] at h
          cases leads with
          | true => cases h
          | false =>
            cases h
            obtain ⟨j, hj, hc, hn⟩ := cellOf_eq_some hv
            obtain ⟨d, hd, hne⟩ := leadsTo_eq_false hl
            cases hi.symm.trans hj
            obtain ⟨name, contents⟩ := cell
            subst hn hnone
            exact ⟨i, d, hi, hc, rfl, hd, hi ▸ hne⟩
    · cases h

theorem bind_keeps (h : cells.bind v t = .ok after) : Kept cells after := by
  obtain ⟨i, d, hi, hcell, rfl, -, -⟩ := bind_eq_ok h
  intro j cell hj
  by_cases hij : i = j
  · subst hij
    cases hcell.symm.trans hj
    exact ⟨_, List.getElem?_set_self (List.getElem?_eq_some_iff.1 hj).1, rfl, nofun⟩
  · exact ⟨cell, by rw [List.getElem?_set_ne hij, hj], rfl, fun _ ht ↦ ht⟩

end Cells

inductive Action where
  | newVar (name : String)
  | freshVar
  | parse (text : String)
  | parseTree (tree : Tree)
  | parseAll (texts : List String)
  | bind (v : Var) (t : Ty)

namespace Context

variable {before context after : Context}

/-- What an action leaves of the context, also when it fails. -/
def perform (context : Context) : Action → Context
  | .newVar name => ((Step.newVar name).run context).2
  | .freshVar => (Step.freshVar.run context).2
  | .parse text => ((Step.parse text).run context).2
  | .parseTree tree => ((Step.parseTree tree).run context).2
  | .parseAll texts => ((Step.parseAll texts).run context).2
  | .bind v t => ((Step.bind v t).run context).2

def performAll (context : Context) (actions : List Action) : Context :=
  actions.foldl perform context

theorem run_askCells {α : Type} (question : Cells → Except Fault α) (context : Context) :
    (Step.askCells question).run context = ((question context.cells).mapError .fault, context) := by
  change (Step.askCells fun _ ↦ question context.cells).run context = _
  cases question context.cells <;> rfl

theorem run_bindCells (v : Var) (t : Ty) (context : Context) :
    (Step.bind v t).run context =
      match context.cells.bind v t with
      | .ok cells => (.ok (), { context with cells })
      | .error fault => (.error (.fault fault), context) := by
  rw [Step.bind, Step.run_bind, run_askCells]
  cases context.cells.bind v t <;> rfl

/-- An action makes new variables, or one binding, or nothing at all. -/
theorem perform_cases (context : Context) (action : Action) :
    context.Grows (context.perform action) ∨
      ∃ v t cells, context.cells.bind v t = .ok cells ∧ context.perform action = { context with cells } := by
  cases action with
  | newVar name => exact .inl ⟨rfl, [name], rfl⟩
  | freshVar => exact .inl ⟨rfl, [_], rfl⟩
  | parse text => exact .inl (Step.parse_realizes text context).grows
  | parseTree tree => exact .inl (Step.parseTree_realizes tree context).grows
  | parseAll texts => exact .inl (Step.parseAll_realizes texts context).grows
  | bind v t =>
    rw [perform, run_bindCells]
    cases hb : context.cells.bind v t with
    | ok cells => exact .inr ⟨v, t, cells, hb, rfl⟩
    | error => exact .inl (.refl context)

theorem Grows.kept (h : before.Grows after) : before.cells.Kept after.cells := by
  obtain ⟨names, hn⟩ := h.cells
  intro i cell hi
  refine ⟨cell, ?_, rfl, fun _ ht ↦ ht⟩
  rw [hn, List.getElem?_append_left (List.getElem?_eq_some_iff.1 hi).1, hi]

def Traced (context : Context) : Prop :=
  ∀ v, context.cells.Owns v → ∃ n u, context.env.Follows n (.var v) u

theorem Traced.follows (h : context.Traced) {t : Ty} (ht : ∀ v, t = .var v → context.cells.Owns v) :
    ∃ n u, context.env.Follows n t u := by
  cases hv : t.isVar
  · exact ⟨0, t, .done (Env.resolved_of_not_var hv)⟩
  · cases t <;> cases hv
    exact h _ (ht _ rfl)

/-- Bindings can still be followed to an end if they can from where they ended before. -/
theorem Traced.of_kept (h : before.Traced) (hk : before.cells.Kept after.cells)
    (hnew : ∀ v, after.cells.Owns v → before.cells.Owns v ∨ after.cells.contents v = .ok none)
    (hends : ∀ v, before.cells.contents v = .ok none → ∃ n u, after.env.Follows n (.var v) u) :
    after.Traced := by
  intro v hv
  rcases hnew v hv with hold | hnone
  · obtain ⟨n, d, hd⟩ := h v hold
    have hend : ∃ m u, after.env.Follows m d u := by
      cases hd' : d.isVar
      · exact ⟨0, d, .done (Env.resolved_of_not_var hd')⟩
      · cases d <;> cases hd'
        exact hends _ (hd.resolved _ rfl)
    obtain ⟨m, u, hu⟩ := hend
    obtain ⟨k, hk⟩ := hd.extend (fun _ _ ↦ hk.binds) hu
    exact ⟨k, u, hk⟩
  · refine ⟨0, .var v, .done ?_⟩
    rintro _ ⟨⟩
    exact hnone

theorem Traced.grows (h : before.Traced) (hg : before.Grows after) : after.Traced := by
  obtain ⟨names, hn⟩ := hg.cells
  refine h.of_kept hg.kept (fun v hv ↦ ?_) fun v hv ↦ ?_
  · rcases hv with hnone | ⟨i, cell, hi, hc, hname⟩
    · exact .inl (.inl hnone)
    · rw [hn] at hc
      rcases Nat.lt_or_ge i before.cells.length with hlt | hge
      · rw [List.getElem?_append_left hlt] at hc
        exact .inl (.inr ⟨i, cell, hi, hc, hname⟩)
      · rw [List.getElem?_append_right hge] at hc
        obtain ⟨name, -, rfl⟩ := List.mem_map.1 (List.mem_of_getElem? hc)
        refine .inr (Cells.contents_eq_ok_iff.2 (.inr ⟨i, hi, ?_⟩))
        rw [hn, List.getElem?_append_right hge, hc, ← hname]
  · refine ⟨0, .var v, .done ?_⟩
    rintro _ ⟨⟩
    change Cells.contents after.cells v = _
    rw [hn]
    exact contents_append hv

theorem Traced.bind (h : before.Traced) {v : Var} {t : Ty} {cells : Cells}
    (hb : before.cells.bind v t = .ok cells) : Traced { before with cells } := by
  have hkept := Cells.bind_keeps hb
  obtain ⟨i, d, hi, hc, rfl, hd, hne⟩ := Cells.bind_eq_ok hb
  have hlt := (List.getElem?_eq_some_iff.1 hc).1
  have hv : before.cells.contents v = .ok none := Cells.contents_eq_ok_iff.2 (.inr ⟨i, hi, hc⟩)
  -- The variables that ended elsewhere are as unbound as they were.
  have hrest (w : Var) (hw : before.cells.contents w = .ok none) (hwi : w.cell ≠ some i) :
      Env.Resolved ⟨before.cells.set i ⟨v.name, some t⟩, before.limit⟩ (.var w) := by
    rintro _ ⟨⟩
    exact (Cells.contents_set hwi).trans hw
  have hbinds : Env.Binds ⟨before.cells.set i ⟨v.name, some t⟩, before.limit⟩ v t :=
    Cells.contents_eq_ok_iff.2 (.inr ⟨i, hi, List.getElem?_set_self hlt⟩)
  refine h.of_kept hkept (fun w hw ↦ .inl ?_) fun w hw ↦ ?_
  · rcases hw with hnone | ⟨j, cell, hj, hcell, hname⟩
    · exact .inl hnone
    · by_cases hij : i = j
      · subst hij
        rw [List.getElem?_set_self hlt] at hcell
        cases hcell
        exact .inr ⟨i, _, hj, hc, hname⟩
      · rw [List.getElem?_set_ne hij] at hcell
        exact .inr ⟨j, cell, hj, hcell, hname⟩
  · by_cases hwi : w.cell = some i
    · obtain rfl : w = v := @Env.eq_of_cell_eq before.env w v i _ _ hw hv hwi hi
      obtain ⟨n, hn⟩ := (@Env.deref_iff before.env t d).1 hd
      have hend : Env.Resolved ⟨before.cells.set i ⟨w.name, some t⟩, before.limit⟩ d := by
        cases hdv : d.isVar
        · exact Env.resolved_of_not_var hdv
        · cases d <;> cases hdv
          exact hrest _ (hn.resolved _ rfl) (hne _ rfl)
      obtain ⟨k, hk⟩ := hn.extend (fun _ _ ↦ hkept.binds) (.done hend)
      exact ⟨k + 1, d, .step hbinds hk⟩
    · exact ⟨0, .var w, .done (hrest w hw hwi)⟩

theorem perform_kept (context : Context) (action : Action) :
    context.cells.Kept (context.perform action).cells := by
  rcases context.perform_cases action with hg | ⟨v, t, cells, hb, he⟩
  · exact hg.kept
  · rw [he]
    exact Cells.bind_keeps hb

theorem Traced.perform (h : context.Traced) (action : Action) : (context.perform action).Traced := by
  rcases context.perform_cases action with hg | ⟨v, t, cells, hb, he⟩
  · exact h.grows hg
  · rw [he]
    exact h.bind hb

theorem performAll_kept (context : Context) (actions : List Action) :
    context.cells.Kept (context.performAll actions).cells := by
  induction actions generalizing context with
  | nil => exact .refl _
  | cons action actions ih => exact (context.perform_kept action).trans (ih _)

theorem Traced.performAll (h : context.Traced) (actions : List Action) : (context.performAll actions).Traced := by
  induction actions generalizing context with
  | nil => exact h
  | cons action actions ih => exact ih (h.perform action)

theorem traced_new (limit : Int64) (stem : String) : Traced { limit, stem } := by
  rintro v (hv | ⟨i, cell, -, hc, -⟩)
  · refine ⟨0, .var v, .done ?_⟩
    rintro _ ⟨⟩
    exact Cells.contents_eq_ok_iff.2 (.inl ⟨hv, rfl⟩)
  · cases hc

/-- The cells of a new context after any actions, and after more of them. A cell keeps its name and its contents; a
binding that is refused changes nothing; bindings can be followed from whatever is no variable of another context;
and where they led before, one goes on from there. -/
theorem cells_safe (limit : Int64) (stem : String) (actions more : List Action) :
    let context := performAll { limit, stem } actions
    let later := context.performAll more
    context.cells.Kept later.cells ∧
      (∀ v t failure next, (Step.bind v t).run context = (.error failure, next) → next = context) ∧
      (∀ t, (∀ v, t = .var v → context.cells.Owns v) →
        ∃ u, context.cells.deref t = .ok u ∧ (∀ v, u = .var v → context.cells.contents v = .ok none) ∧
          context.cells.deref u = .ok u) ∧
      ∀ t d, context.cells.deref t = .ok d →
        ∃ u, later.cells.deref t = .ok u ∧ later.cells.deref d = .ok u := by
  intro context later
  have htraced : context.Traced := (traced_new limit stem).performAll actions
  have hkept : context.cells.Kept later.cells := context.performAll_kept more
  refine ⟨hkept, fun v t failure next hr ↦ ?_, fun t ht ↦ ?_, fun t d hd ↦ ?_⟩
  · rw [run_bindCells] at hr
    split at hr <;> cases hr
    rfl
  · obtain ⟨n, u, hu⟩ := htraced.follows ht
    exact ⟨u, hu.deref.1, hu.resolved, hu.deref.2⟩
  · obtain ⟨n, hn⟩ := (@Env.deref_iff context.env t d).1 hd
    have hown (v : Var) (hv : d = .var v) : later.cells.Owns v := by
      obtain ⟨c, hc, -⟩ := hkept.contents (hn.resolved v hv)
      exact Cells.owns_iff.2 ⟨c, hc⟩
    obtain ⟨m, u, hu⟩ := (htraced.performAll more).follows hown
    obtain ⟨k, hk⟩ := hn.extend (fun _ _ ↦ hkept.binds) hu
    exact ⟨u, hk.deref.1, hu.deref.1⟩

/-- A chain of two bindings, the second of them made later; the one that would close the chain is refused. -/
theorem cells_safe_chain :
    let x : Var := ⟨"x", some 0⟩
    let y : Var := ⟨"y", some 1⟩
    let context := performAll {} [.parse "(x -> y)", .bind x (.var y)]
    let later := context.performAll [.bind y (.atomic .number)]
    (∃ failure next, (Step.bind y (.var x)).run context = (.error failure, next) ∧ next = context) ∧
      context.cells.deref (.var x) = .ok (.var y) ∧ context.cells.deref (.var y) = .ok (.var y) ∧
      ∃ u, later.cells.deref (.var x) = .ok u ∧ later.cells.deref (.var y) = .ok u := by
  intro x y context later
  obtain ⟨-, hrefused, hfollowed, hresumed⟩ :=
    cells_safe 0 "T_" [.parse "(x -> y)", .bind x (.var y)] [.bind y (.atomic .number)]
  have hfault : ((Step.bind y (.var x)).run context).1 = .error (.fault (.bindCycle "y" (.var x))) := by
    decide +kernel
  have hx : context.cells.deref (.var x) = .ok (.var y) := by decide +kernel
  have hown (v : Var) (hv : Ty.var x = .var v) : context.cells.Owns v := by
    cases hv
    exact .inr ⟨0, ⟨"x", some (.var y)⟩, rfl, by decide +kernel, rfl⟩
  obtain ⟨u, hu, -, hagain⟩ := hfollowed (.var x) hown
  obtain rfl : .var y = u := Except.ok.inj (hx.symm.trans hu)
  exact ⟨⟨_, _, Prod.ext hfault rfl, hrefused _ _ _ _ (Prod.ext hfault rfl)⟩, hx, hagain, hresumed _ _ hx⟩

end Context

end TypeAlgebra
