import TypeAlgebra.Proofs.Parsing

namespace TypeAlgebra

namespace Step

variable {α β γ δ : Type} {context : Context} {R : Context → α → β → Prop} {S : Context → γ → δ → Prop}

/-- From the context the step comes to the outcome: it fails with the same problem, or has a result that is tied
to the one expected. The context has only grown. -/
inductive Realizes (step : Step α) (context : Context) (R : Context → α → β → Prop) : Except Problem β → Prop
  | failed {problem : Problem} {after : Context} : context.Grows after →
      step.run context = (.error (.problem problem), after) → Realizes step context R (.error problem)
  | done {a : α} {b : β} {after : Context} : context.Grows after → step.run context = (.ok a, after) →
      R after a b → Realizes step context R (.ok b)

theorem Realizes.pure {a : α} {b : β} (h : R context a b) : Realizes (Pure.pure a) context R (.ok b) :=
  .done (.refl context) rfl h

theorem realizes_fail (problem : Problem) : Realizes (Step.fail problem) context R (.error problem) :=
  .failed (.refl context) rfl

theorem Realizes.bind {step : Step α} {f : α → Step γ} {x : Except Problem β} {g : β → Except Problem δ}
    (h : Realizes step context R x)
    (hf : ∀ a b next, context.Grows next → R next a b → Realizes (f a) next S (g b)) :
    Realizes (step >>= f) context S (x >>= g) := by
  cases h with
  | failed hg hr => exact .failed hg (by rw [run_bind, hr])
  | @done a b next hg hr hab =>
    change Realizes (step >>= f) context S (g b)
    have hrun : (step >>= f).run context = (f a).run next := by rw [run_bind, hr]
    have hrest := hf a b next hg hab
    generalize g b = y at hrest ⊢
    cases hrest with
    | failed hg' hr' => exact .failed (hg.trans hg') (hrun.trans hr')
    | done hg' hr' hs => exact .done (hg.trans hg') (hrun.trans hr') hs

theorem Realizes.of_run {step step' : Step α} {x : Except Problem β} (h : Realizes step context R x)
    (hrun : step'.run context = step.run context) : Realizes step' context R x := by
  cases h with
  | failed hg hr => exact .failed hg (hrun.trans hr)
  | done hg hr hab => exact .done hg (hrun.trans hr) hab

/-- Whatever the outcome, the context grows. -/
theorem Realizes.grows {step : Step α} {x : Except Problem β} (h : Realizes step context R x) :
    context.Grows (step.run context).2 := by
  cases h with
  | failed hg hr => rwa [hr]
  | done hg hr => rwa [hr]

theorem Realizes.exists_of_ok {step : Step α} {b : β} (h : Realizes step context R (.ok b)) :
    ∃ a after, step.run context = (.ok a, after) ∧ context.Grows after ∧ R after a b := by
  obtain _ | ⟨hg, hr, hab⟩ := h
  exact ⟨_, _, hr, hg, hab⟩

theorem Realizes.of_run_ok {step : Step α} {x : Except Problem β} {a : α} {after : Context}
    (h : Realizes step context R x) (hr : step.run context = (.ok a, after)) :
    ∃ b, x = .ok b ∧ R after a b := by
  cases h with
  | failed _ he => cases hr.symm.trans he
  | done _ he hab =>
    cases hr.symm.trans he
    exact ⟨_, rfl, hab⟩

end Step

namespace Parser

def denoteAtom (name : String) : Except Problem Ty :=
  match Kind.ofKeyword? name with
  | some kind => .ok (.atomic kind)
  | none =>
    if name = "Empty" then .ok .empty
    else if name ∈ reserved then .error (.unexpectedToken name "reserved token")
    else if startsName name then .ok (.var ⟨name, none⟩)
    else .error (.unexpectedToken name "type variable names start with a letter")

def denoteSingle (tree : Tree) (t : Ty) : Except Problem Ty :=
  if t.isTuple then .error (.nestedTuple tree.print) else .ok t

mutual

def denote (limit : Int64) : Tree → Except Problem Ty
  | .atom name => denoteAtom name
  | .literal text => .error (.unexpectedToken (Text.quoted text) "literals are not type expressions")
  | .group items =>
    match _ : Clause.ofItems items with
    | .error problem => .error problem
    | .ok (.union parts) => do return (Env.vacant limit).joined (← denoteEach limit parts)
    | .ok (.inter parts) => do return (Env.vacant limit).met (← denoteEach limit parts)
    | .ok (.pred inner) => do return .pred (← denote limit inner)
    | .ok (.proc params result) => do
      let params ← denoteParams limit params
      let result ← denoteSingle result (← denote limit result)
      return .proc params result
termination_by tree => 2 * tree.size
decreasing_by
  all_goals
    have := Clause.weight_ofItems ‹_›
    simp only [Clause.weight, Tree.size] at *
    omega

def denoteEach (limit : Int64) : List Tree → Except Problem (List Ty)
  | [] => pure []
  | tree :: trees => do
    let t ← denote limit tree
    let ts ← denoteEach limit trees
    return t :: ts
termination_by trees => 2 * Tree.sizeEach trees + 1
decreasing_by
  all_goals
    have := tree.size_pos
    simp only [Tree.sizeEach]
    omega

def denoteParams (limit : Int64) : List Tree → Except Problem (List Ty)
  | [] => pure []
  | tree :: trees => do
    let t ← denoteSingle tree (← denote limit tree)
    let ts ← denoteParams limit trees
    return t :: ts
termination_by trees => 2 * Tree.sizeEach trees + 1
decreasing_by
  all_goals
    have := tree.size_pos
    simp only [Tree.sizeEach]
    omega

end

def denoteText (limit : Int64) (text : String) : Except Problem Ty := do
  denote limit (← Tree.read text)

def denotePair (limit : Int64) (left right : String) : Except Problem (Ty × Ty) := do
  let s ← denoteText limit left
  let t ← denoteText limit right
  return (s, t)

def denoteClause (limit : Int64) : Clause → Except Problem Ty
  | .union parts => do return (Env.vacant limit).joined (← denoteEach limit parts)
  | .inter parts => do return (Env.vacant limit).met (← denoteEach limit parts)
  | .pred inner => do return .pred (← denote limit inner)
  | .proc params result => do
    let params ← denoteParams limit params
    let result ← denoteSingle result (← denote limit result)
    return .proc params result

theorem denote_group (limit : Int64) (items : List Tree) :
    denote limit (.group items) = Clause.ofItems items >>= denoteClause limit := by
  rw [denote]
  split <;> next hc => rw [hc]; rfl

variable {limit : Int64} {start : Nat} {context : Context} {tree : Tree} {trees : List Tree}

def DetachesEach (context : Context) (ts us : List Ty) : Prop :=
  (∀ t ∈ ts, context.env.Free t) ∧ us = ts.map Ty.detached

def Detached (context : Context) (t u : Ty) : Prop :=
  context.env.Detaches t u

theorem parseVar_realizes (name : String) (hf : Context.Fresh start context) :
    Step.Realizes (parseVar start name) context Detached (.ok (.var ⟨name, none⟩)) := by
  have free {after : Context} {i : Nat} (hi : after.cells[i]? = some ⟨name, none⟩) :
      after.env.Free (.var ⟨name, some i⟩) := by
    intro v hv
    obtain rfl := List.mem_singleton.1 hv
    change Cells.contents after.cells _ = _
    simp [Cells.contents, Cells.cellOf, hi, bind, Except.bind, pure, Except.pure]
  have hr := run_parseVar start name context
  split at hr
  · next v hfind =>
    obtain ⟨i, ⟨cellName, contents⟩, rfl, hi, rfl, hm⟩ := Cells.findFrom?_eq_some hfind
    obtain rfl : contents = none := hf _ hm
    exact .done (.refl context) hr ⟨free hi, rfl⟩
  · refine .done ?_ hr ⟨free ?_, rfl⟩
    · exact ⟨rfl, [name], rfl⟩
    · exact List.getElem?_concat_length

theorem parseAtom_realizes (name : String) (hf : Context.Fresh start context) :
    Step.Realizes (parseAtom start name) context Detached (denoteAtom name) := by
  unfold parseAtom denoteAtom
  cases Kind.ofKeyword? name with
  | some kind => exact .pure ⟨nofun, rfl⟩
  | none =>
    simp only
    split_ifs
    · exact .pure ⟨nofun, rfl⟩
    · exact Step.realizes_fail _
    · exact parseVar_realizes name hf
    · exact Step.realizes_fail _

theorem single_realizes {t u : Ty} (h : Detached context t u) :
    Step.Realizes (single tree t) context Detached (denoteSingle tree u) := by
  have htup : u.isTuple = t.isTuple := by rw [h.2, Ty.detached, Ty.isTuple_rename]
  unfold single denoteSingle
  rw [htup]
  split
  · exact Step.realizes_fail _
  · exact .pure h

theorem join_realizes {ts us : List Ty} (h : DetachesEach context ts us) :
    Step.Realizes (Step.join ts) context Detached (.ok ((Env.vacant context.limit).joined us)) := by
  obtain ⟨warnings, hr⟩ := run_join h.1
  exact .done (grows_warnings context warnings) hr
    ⟨Env.Free.joined h.1, by rw [h.2]; exact (Env.joined_detached h.1).symm⟩

theorem meet_realizes {ts us : List Ty} (h : DetachesEach context ts us) :
    Step.Realizes (Step.meet ts) context Detached (.ok ((Env.vacant context.limit).met us)) := by
  obtain ⟨warnings, hr⟩ := run_meet h.1
  exact .done (grows_warnings context warnings) hr
    ⟨Env.Free.met h.1, by rw [h.2]; exact (Env.met_detached h.1).symm⟩

/-- However the context has grown since the parse began, the tree is parsed to what it stands for. -/
def Denotes (start : Nat) (tree : Tree) : Prop :=
  ∀ context, Context.Fresh start context →
    Step.Realizes (parseTree start tree) context Detached (denote context.limit tree)

theorem parseEach_realizes (h : ∀ tree ∈ trees, Denotes start tree) (hf : Context.Fresh start context) :
    Step.Realizes (parseEach start trees) context DetachesEach (denoteEach context.limit trees) := by
  induction trees generalizing context with
  | nil =>
    rw [parseEach, denoteEach]
    exact .pure ⟨List.forall_mem_nil _, rfl⟩
  | cons tree trees ih =>
    obtain ⟨hd, htl⟩ := List.forall_mem_cons.1 h
    rw [parseEach, denoteEach]
    refine (hd context hf).bind fun t u next hg ht ↦ ?_
    rw [← hg.limit]
    refine (ih htl (hf.grows hg)).bind fun ts us after hg' hts ↦ .pure ⟨?_, ?_⟩
    · exact List.forall_mem_cons.2 ⟨hg'.free ht.1, hts.1⟩
    · rw [ht.2, hts.2, List.map_cons]

theorem parseParams_realizes (h : ∀ tree ∈ trees, Denotes start tree) (hf : Context.Fresh start context) :
    Step.Realizes (parseParams start trees) context DetachesEach (denoteParams context.limit trees) := by
  induction trees generalizing context with
  | nil =>
    rw [parseParams, denoteParams]
    exact .pure ⟨List.forall_mem_nil _, rfl⟩
  | cons tree trees ih =>
    obtain ⟨hd, htl⟩ := List.forall_mem_cons.1 h
    rw [parseParams, denoteParams]
    refine (hd context hf).bind fun t u next hg ht ↦ ?_
    refine (single_realizes ht).bind fun t u next' hg' ht ↦ ?_
    have hgrown := hg.trans hg'
    rw [← hgrown.limit]
    refine (ih htl (hf.grows hgrown)).bind fun ts us after hg'' hts ↦ .pure ⟨?_, ?_⟩
    · exact List.forall_mem_cons.2 ⟨hg''.free ht.1, hts.1⟩
    · rw [ht.2, hts.2, List.map_cons]

theorem parseTree_denotes (start : Nat) (tree : Tree) : Denotes start tree := by
  induction tree using Clause.tree_induction with
  | atom name =>
    intro context hf
    rw [parseTree, denote]
    exact parseAtom_realizes name hf
  | literal text =>
    intro context hf
    rw [parseTree, denote]
    exact Step.realizes_fail _
  | group items ih =>
    intro context hf
    rw [parseTree, denote_group]
    split
    · next hc =>
      rw [hc]
      exact Step.realizes_fail _
    · next parts hc =>
      rw [hc]
      refine (parseEach_realizes (ih _ hc) hf).bind fun ts us next hg hts ↦ ?_
      rw [← hg.limit]
      exact join_realizes hts
    · next parts hc =>
      rw [hc]
      refine (parseEach_realizes (ih _ hc) hf).bind fun ts us next hg hts ↦ ?_
      rw [← hg.limit]
      exact meet_realizes hts
    · next inner hc =>
      rw [hc]
      refine (ih _ hc inner List.mem_cons_self context hf).bind fun t u next _ ht ↦ ?_
      exact .pure ⟨ht.1, by rw [ht.2]; rfl⟩
    · next params result hc =>
      rw [hc]
      obtain ⟨hparams, hresult⟩ := List.forall_mem_append.1 (ih _ hc)
      refine (parseParams_realizes hparams hf).bind fun ts us next hg hts ↦ ?_
      rw [← hg.limit]
      refine (hresult result List.mem_cons_self next (hf.grows hg)).bind fun t u next' hg' ht ↦ ?_
      refine (single_realizes ht).bind fun t u last hg'' ht ↦ .pure ⟨?_, ?_⟩
      · intro v hv
        rcases List.mem_append.1 hv with hv | hv
        · obtain ⟨s, hs, hvs⟩ := Ty.mem_varsEach.1 hv
          exact (hg'.trans hg'').free (hts.1 s hs) v hvs
        · exact ht.1 v hv
      · change _ = Ty.proc (Ty.renameEach Var.detached ts) t.detached
        rw [ht.2, hts.2, Ty.renameEach_eq]
        rfl

theorem parseText_realizes (text : String) (hf : Context.Fresh start context) :
    Step.Realizes (parseText start text) context Detached (denoteText context.limit text) := by
  unfold parseText denoteText
  split
  · next tree hr =>
    rw [hr]
    exact parseTree_denotes start tree context hf
  · next hr =>
    rw [hr]
    exact Step.realizes_fail _

end Parser

namespace Step

theorem parse_realizes (text : String) (context : Context) :
    Realizes (parse text) context Parser.Detached (Parser.denoteText context.limit text) :=
  (Parser.parseText_realizes text (Parser.fresh_length context)).of_run rfl

theorem parseTree_realizes (tree : Tree) (context : Context) :
    Realizes (parseTree tree) context Parser.Detached (Parser.denote context.limit tree) :=
  (Parser.parseTree_denotes _ tree context (Parser.fresh_length context)).of_run rfl

theorem parseAll_realizes (texts : List String) (context : Context) :
    Realizes (parseAll texts) context Parser.DetachesEach
      (texts.mapM (Parser.denoteText context.limit)) := by
  have each (texts : List String) (next : Context) (hf : Context.Fresh context.cells.length next) :
      Realizes (texts.mapM (Parser.parseText context.cells.length)) next Parser.DetachesEach
        (texts.mapM (Parser.denoteText next.limit)) := by
    induction texts generalizing next with
    | nil => exact .pure ⟨List.forall_mem_nil _, rfl⟩
    | cons text texts ih =>
      rw [List.mapM_cons, List.mapM_cons]
      refine (Parser.parseText_realizes text hf).bind fun t u next' hg ht ↦ ?_
      rw [← hg.limit]
      refine (ih next' (hf.grows hg)).bind fun ts us after hg' hts ↦ .pure ⟨?_, ?_⟩
      · exact List.forall_mem_cons.2 ⟨hg'.free ht.1, hts.1⟩
      · rw [ht.2, hts.2, List.map_cons]
  exact (each texts context (Parser.fresh_length context)).of_run rfl

theorem parsePair_realizes (left right : String) (context : Context) :
    Realizes (parsePair left right) context
      (fun after st uv ↦ Parser.Detached after st.1 uv.1 ∧ Parser.Detached after st.2 uv.2)
      (Parser.denotePair context.limit left right) := by
  have hf := Parser.fresh_length context
  refine Realizes.of_run ((Parser.parseText_realizes left hf).bind fun s u next hg hs ↦ ?_) rfl
  rw [← hg.limit]
  refine (Parser.parseText_realizes right (hf.grows hg)).bind fun t v after hg' ht ↦ .pure ?_
  exact ⟨⟨hg'.free hs.1, hs.2⟩, ht⟩

end Step

end TypeAlgebra
