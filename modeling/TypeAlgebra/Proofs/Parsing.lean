import TypeAlgebra.Parser
import TypeAlgebra.Proofs.NormalType
import TypeAlgebra.Proofs.Reading

namespace TypeAlgebra

structure IsName (name : String) : Prop where
  word : IsWord name
  keyword : Kind.ofKeyword? name = none
  empty : name ≠ "Empty"
  reserved : name ∉ Parser.reserved
  starts : Parser.startsName name = true

theorem isName_iff {name : String} :
    IsName name ↔ IsWord name ∧ Kind.ofKeyword? name = none ∧ name ≠ "Empty" ∧ name ∉ Parser.reserved ∧
      Parser.startsName name = true :=
  ⟨fun h ↦ ⟨h.word, h.keyword, h.empty, h.reserved, h.starts⟩,
    fun ⟨word, keyword, empty, reserved, starts⟩ ↦ ⟨word, keyword, empty, reserved, starts⟩⟩

instance (name : String) : Decidable (IsName name) :=
  decidable_of_iff _ isName_iff.symm

namespace Ty

/-- What can be written at the top of a type: no tuples, except as the parameters of a procedure. -/
def Writable : Ty → Prop
  | absent => False
  | atomic kind => Kind.ofKeyword? kind.keyword = some kind
  | var v => IsName v.name
  | proc params result => ∀ s ∈ params ++ [result], s.isTuple = false
  | tuple _ => False
  | _ => True

inductive Readable : Ty → Prop
  | node {t : Ty} : t.Writable → (∀ s ∈ t.children, s.Readable) → t.Readable

theorem Readable.writable {t : Ty} (h : t.Readable) : t.Writable := by
  obtain ⟨hw, -⟩ := h
  exact hw

theorem Readable.child {s t : Ty} (h : t.Readable) (hs : s ∈ t.children) : s.Readable := by
  obtain ⟨-, hc⟩ := h
  exact hc s hs

theorem readable_closed : Env.Closed Readable where
  child := Readable.child
  any := .node rfl nofun
  never := .node rfl nofun
  union h := .node trivial h
  inter h := .node trivial h

end Ty

namespace Env

structure Spelled (limit : Int64) (t : Ty) : Prop where
  normal : Normal limit t
  readable : t.Readable

variable {env : Env} {limit : Int64} {s t : Ty} {ts : List Ty}

theorem Spelled.child (ht : Spelled limit t) (h : s ∈ t.children) : Spelled limit s :=
  ⟨ht.normal.child h, ht.readable.child h⟩

theorem spelled_joined (h : ∀ t ∈ ts, Spelled limit t) : Spelled limit ((vacant limit).joined ts) where
  normal := normal_joined fun t ht ↦ (h t ht).normal
  readable := joined_closed Ty.readable_closed (fun t ht ↦ (h t ht).normal.settled.sound)
    (fun t ht ↦ (h t ht).normal.canonical) fun t ht ↦ (h t ht).readable

theorem spelled_met (h : ∀ t ∈ ts, Spelled limit t) : Spelled limit ((vacant limit).met ts) where
  normal := normal_met fun t ht ↦ (h t ht).normal
  readable := (met_closed Ty.readable_closed (fun t ht ↦ (h t ht).normal.settled.sound)
    (fun t ht ↦ (h t ht).normal.canonical) fun t ht ↦ (h t ht).readable).2.2

/-- A type as parsing gives it: without bound variables, and spelled by the names of its variables. -/
structure Legible (env : Env) (t : Ty) : Prop where
  free : env.Free t
  spelled : Spelled env.limit t.detached

theorem Legible.of_limit {env' : Env} (h : env.Legible t) (hl : env'.limit = env.limit) (hf : env'.Free t) :
    env'.Legible t :=
  ⟨hf, hl ▸ h.spelled⟩

/-- A type as parsing gives it is canonical. -/
theorem Legible.settled (h : env.Legible t) : env.Settled t := by
  have hw := Ty.whole_detached.1 h.spelled.normal.whole
  exact ⟨h.free, hw, canonical_of_detached h.free hw h.spelled.normal.canonical⟩

theorem Legible.joined (h : ∀ t ∈ ts, env.Legible t) : env.Legible (env.joined ts) where
  free := .joined fun t ht ↦ (h t ht).free
  spelled := by
    rw [joined_detached fun t ht ↦ (h t ht).free]
    exact spelled_joined (List.forall_mem_map.2 fun t ht ↦ (h t ht).spelled)

theorem Legible.met (h : ∀ t ∈ ts, env.Legible t) : env.Legible (env.met ts) where
  free := .met fun t ht ↦ (h t ht).free
  spelled := by
    rw [met_detached fun t ht ↦ (h t ht).free]
    exact spelled_met (List.forall_mem_map.2 fun t ht ↦ (h t ht).spelled)

end Env

namespace Step

variable {α β : Type} {context : Context} {P : α → Context → Prop} {Q : β → Context → Prop}

/-- If the step succeeds from the context, its result and what it leaves of the context have the property. -/
def Yields (step : Step α) (context : Context) (P : α → Context → Prop) : Prop :=
  ∀ a after, step.run context = (.ok a, after) → P a after

theorem run_bind (step : Step α) (f : α → Step β) (context : Context) :
    (step >>= f).run context =
      match step.run context with
      | (.ok a, next) => (f a).run next
      | (.error e, next) => (.error e, next) := by
  change (StateT.bind (ExceptT.run step) (ExceptT.bindCont f)) context = _
  simp only [StateT.bind]
  rcases ExceptT.run step context with ⟨_ | a, next⟩ <;> rfl

theorem exists_of_run_bind {step : Step α} {f : α → Step β} {context after : Context} {b : β}
    (h : (step >>= f).run context = (.ok b, after)) :
    ∃ a next, step.run context = (.ok a, next) ∧ (f a).run next = (.ok b, after) := by
  rw [run_bind] at h
  rcases hs : step.run context with ⟨_ | a, next⟩
  · rw [hs] at h
    cases h
  · rw [hs] at h
    exact ⟨a, next, rfl, h⟩

theorem Yields.pure {a : α} (h : P a context) : Yields (Pure.pure a) context P := by
  rintro _ _ ⟨⟩
  exact h

theorem yields_fail (problem : Problem) : Yields (Step.fail problem) context P :=
  nofun

theorem Yields.bind {step : Step α} {f : α → Step β} (h : Yields step context P)
    (hf : ∀ a next, P a next → Yields (f a) next Q) : Yields (step >>= f) context Q := by
  intro b after hb
  rw [run_bind] at hb
  rcases hr : step.run context with ⟨_ | a, next⟩
  · rw [hr] at hb
    cases hb
  · rw [hr] at hb
    exact hf a next (h a next hr) b after hb

end Step

namespace Context

variable {before context after : Context} {start : Nat} {t : Ty}

/-- Nothing has happened to the context except that it has got new variables, which are unbound. -/
structure Grows (before after : Context) : Prop where
  limit : after.limit = before.limit
  cells : ∃ names : List String, after.cells = before.cells ++ names.map fun name ↦ ⟨name, none⟩

theorem Grows.refl (context : Context) : context.Grows context :=
  ⟨rfl, [], (List.append_nil _).symm⟩

theorem Grows.trans (h : before.Grows context) (h' : context.Grows after) : before.Grows after := by
  obtain ⟨names, hn⟩ := h.cells
  obtain ⟨names', hn'⟩ := h'.cells
  exact ⟨h'.limit.trans h.limit, names ++ names', by rw [hn', hn, List.append_assoc, List.map_append]⟩

def Fresh (start : Nat) (context : Context) : Prop :=
  ∀ cell ∈ context.cells.drop start, cell.contents = none

theorem Fresh.grows (h : Fresh start before) (hg : before.Grows after) : Fresh start after := by
  obtain ⟨names, hn⟩ := hg.cells
  intro cell hc
  rw [hn, List.drop_append] at hc
  rcases List.mem_append.1 hc with hc | hc
  · exact h cell hc
  · obtain ⟨name, -, rfl⟩ := List.mem_map.1 (List.mem_of_mem_drop hc)
    rfl

theorem contents_append {cells more : Cells} {v : Var} {c : Option Ty} (h : cells.contents v = .ok c) :
    Cells.contents (cells ++ more) v = .ok c := by
  rcases Cells.contents_eq_ok_iff.1 h with hn | ⟨i, hi, hc⟩
  · exact Cells.contents_eq_ok_iff.2 (.inl hn)
  · refine Cells.contents_eq_ok_iff.2 (.inr ⟨i, hi, ?_⟩)
    rw [List.getElem?_append_left (List.getElem?_eq_some_iff.1 hc).1, hc]

theorem Grows.free (hg : before.Grows after) (h : before.env.Free t) : after.env.Free t := by
  obtain ⟨names, hn⟩ := hg.cells
  intro v hv
  change Cells.contents after.cells v = _
  rw [hn]
  exact contents_append (h v hv)

theorem Grows.legible (hg : before.Grows after) (h : before.env.Legible t) : after.env.Legible t :=
  h.of_limit hg.limit (hg.free h.free)

end Context

theorem Cells.findFrom?_eq_some {cells : Cells} {start : Nat} {name : String} {v : Var}
    (h : cells.findFrom? start name = some v) :
    ∃ i cell, v = ⟨name, some i⟩ ∧ cells[i]? = some cell ∧ cell.name = name ∧ cell ∈ cells.drop start := by
  obtain ⟨i, hi, rfl⟩ := Option.map_eq_some_iff.1 h
  obtain ⟨hlt, hname, -⟩ := List.findIdx?_eq_some_iff_getElem.1 hi
  refine ⟨start + i, (cells.drop start)[i], rfl, ?_, by simpa using hname, List.getElem_mem hlt⟩
  rw [← List.getElem?_drop, List.getElem?_eq_getElem hlt]

namespace Clause

def trees : Clause → List Tree
  | union parts => parts
  | inter parts => parts
  | pred inner => [inner]
  | proc params result => params ++ [result]

theorem size_le_sizeEach {tree : Tree} {trees : List Tree} (h : tree ∈ trees) :
    tree.size ≤ Tree.sizeEach trees := by
  induction trees with
  | nil => cases h
  | cons first trees ih =>
    rw [Tree.sizeEach]
    rcases List.mem_cons.1 h with rfl | h
    · exact Nat.le_add_right _ _
    · exact (ih h).trans (Nat.le_add_left _ _)

theorem size_le_weight {clause : Clause} {tree : Tree} (h : tree ∈ clause.trees) :
    tree.size ≤ clause.weight := by
  cases clause with
  | union parts => exact size_le_sizeEach h
  | inter parts => exact size_le_sizeEach h
  | pred inner =>
    obtain rfl := List.mem_singleton.1 h
    exact Nat.le_refl _
  | proc params result =>
    rcases List.mem_append.1 h with h | h
    · exact (size_le_sizeEach h).trans (Nat.le_max_left _ _)
    · obtain rfl := List.mem_singleton.1 h
      exact Nat.le_max_right _ _

/--
Induction on a tree through the clause that it is read as. The trees of a clause are smaller than the group, but they
need not be items of it.
-/
@[elab_as_elim]
theorem tree_induction {motive : Tree → Prop} (atom : ∀ name, motive (.atom name))
    (literal : ∀ text, motive (.literal text))
    (group : ∀ items, (∀ clause, ofItems items = .ok clause → ∀ tree ∈ clause.trees, motive tree) →
      motive (.group items)) (tree : Tree) : motive tree := by
  induction hn : tree.size using Nat.strongRecOn generalizing tree with
  | ind n ih =>
    cases tree with
    | atom name => exact atom name
    | literal text => exact literal text
    | group items =>
      refine group items fun clause hc tree ht ↦ ih tree.size ?_ tree rfl
      have hsize := (size_le_weight ht).trans (weight_ofItems hc)
      rw [← hn, Tree.size]
      omega

theorem betweenStars_subset {params trees types : List Tree} {position : Nat}
    (h : betweenStars params position trees = .ok types) : types ⊆ trees := by
  fun_induction betweenStars params position trees generalizing types with
  | case1 => cases h
  | case2 => cases h
  | case3 => cases h; exact List.Subset.refl _
  | case4 position tree _ star rest _ ih =>
    cases hr : betweenStars params (position + 2) rest with
    | error => rw [hr] at h; cases h
    | ok found =>
      rw [hr] at h
      cases h
      exact List.cons_subset_cons _ fun t ht ↦ List.mem_cons_of_mem _ (ih hr ht)
  | case5 => cases h

theorem worded_ofProc {items : List Tree} {clause : Clause} (h : ofProc items = .ok clause)
    (hi : ∀ tree ∈ items, tree.Worded) : ∀ tree ∈ clause.trees, tree.Worded := by
  have hparams : ∀ tree ∈ items.takeWhile (!·.isAtom "->"), tree.Worded :=
    fun tree ht ↦ hi tree ((List.takeWhile_sublist _).subset ht)
  have hrest : ∀ tree ∈ (items.dropWhile (!·.isAtom "->")).drop 1, tree.Worded :=
    fun tree ht ↦ hi tree ((List.dropWhile_sublist _).subset (List.mem_of_mem_drop ht))
  simp only [ofProc] at h
  split at h
  · cases h
  · cases ht : paramTypes (items.takeWhile (!·.isAtom "->")) with
    | error =>
      rw [ht] at h
      cases h
    | ok types =>
      rw [ht] at h
      cases h
      have htypes : ∀ tree ∈ types, tree.Worded := by
        unfold paramTypes at ht
        split at ht
        · cases ht
          exact List.forall_mem_nil _
        · exact fun tree hm ↦ hparams tree (betweenStars_subset ht hm)
      refine List.forall_mem_append.2 ⟨htypes, List.forall_mem_singleton.2 ?_⟩
      unfold resultTree
      split
      · next hs => exact hrest _ (by rw [hs]; exact List.mem_cons_self)
      · exact .group hrest

/-- What is read of the items of a group has words for atoms as they have. -/
theorem worded_ofItems {items : List Tree} {clause : Clause} (h : ofItems items = .ok clause)
    (hw : (Tree.group items).Worded) : ∀ tree ∈ clause.trees, tree.Worded := by
  obtain _ | _ | hi := hw
  unfold ofItems at h
  split at h
  · cases h
  · cases h
  · cases h
  · cases h
    exact (List.forall_mem_cons.1 hi).2
  · cases h
    exact (List.forall_mem_cons.1 hi).2
  · cases h
    exact (List.forall_mem_cons.1 hi).2
  · cases h
  · exact worded_ofProc h hi

end Clause

namespace Step

variable {context : Context} {ts : List Ty}

theorem run_ofRun {α : Type} (run : Env → Run α) (context : Context) :
    (ofRun run).run context =
      ((run context.env).outcome.mapError .fault,
        { context with warnings := context.warnings ++ (run context.env).warnings }) := by
  change (ofRun fun _ ↦ run context.env).run context = _
  rcases run context.env with ⟨_ | a, warnings⟩ <;> rfl

end Step

namespace Parser

variable {start : Nat} {context : Context}

def Parses (context : Context) (t : Ty) (after : Context) : Prop :=
  context.Grows after ∧ after.env.Legible t

theorem parses_var {name : String} {i : Nat} {cell : Cell} {after : Context} (hg : context.Grows after)
    (hn : IsName name) (hi : after.cells[i]? = some cell) (hc : cell = ⟨name, none⟩) :
    Parses context (.var ⟨name, some i⟩) after := by
  subst hc
  refine ⟨hg, fun v hv ↦ ?_, ⟨?_, .node nofun nofun, .node nofun nofun nofun⟩, .node hn nofun⟩
  · obtain rfl := List.mem_singleton.1 hv
    change Cells.contents after.cells _ = _
    simp [Cells.contents, Cells.cellOf, hi, bind, Except.bind, pure, Except.pure]
  · exact Ty.named_detached _

theorem run_parseVar (start : Nat) (name : String) (context : Context) :
    (parseVar start name).run context =
      match context.cells.findFrom? start name with
      | some v => (.ok (.var v), context)
      | none => (.ok (.var ⟨name, some context.cells.length⟩),
          { context with cells := context.cells ++ [⟨name, none⟩] }) := by
  rw [parseVar, Step.run_bind]
  change (match context.cells.findFrom? start name with | some v => _ | none => _ : Step Ty).run context = _
  cases context.cells.findFrom? start name <;> rfl

theorem parseVar_yields {name : String} (hf : Context.Fresh start context) (hn : IsName name) :
    Step.Yields (parseVar start name) context (Parses context) := by
  intro t after h
  rw [run_parseVar] at h
  split at h
  · next v hfind =>
    cases h
    obtain ⟨i, ⟨name, contents⟩, rfl, hi, rfl, hm⟩ := Cells.findFrom?_eq_some hfind
    exact parses_var (.refl context) hn hi (congrArg (Cell.mk name) (hf _ hm))
  · cases h
    exact parses_var ⟨rfl, [name], rfl⟩ hn (by simp) rfl

theorem ofKeyword?_keyword {name : String} {kind : Kind} (h : Kind.ofKeyword? name = some kind) :
    Kind.ofKeyword? kind.keyword = some kind := by
  unfold Kind.ofKeyword? at h
  split at h <;> cases h <;> rfl

theorem parseAtom_yields {name : String} (hf : Context.Fresh start context) (hw : IsWord name) :
    Step.Yields (parseAtom start name) context (Parses context) := by
  unfold parseAtom
  split
  · next kind hk =>
    exact .pure ⟨.refl context, nofun, Env.normal_atomic _ kind, .node (ofKeyword?_keyword hk) nofun⟩
  · next hk =>
    split
    · refine .pure ⟨.refl context, nofun, ⟨nofun, .node nofun nofun, .node nofun nofun nofun⟩, ?_⟩
      exact .node trivial nofun
    · next he =>
      split
      · exact Step.yields_fail _
      · next hr =>
        split
        · next hs => exact parseVar_yields hf ⟨hw, hk, he, hr, hs⟩
        · exact Step.yields_fail _

variable {ts : List Ty}

/-- The context with warnings of a run at the end of its own. -/
theorem grows_warnings (context : Context) (warnings : List Warning) :
    context.Grows { context with warnings } :=
  ⟨rfl, [], (List.append_nil _).symm⟩

theorem run_join (h : ∀ t ∈ ts, context.env.Free t) :
    ∃ warnings, (Step.join ts).run context =
      (.ok (context.env.joined ts), { context with warnings }) := by
  rw [Step.join, Step.run_ofRun, Env.join_eq (Env.free_union.2 h).founded]
  exact ⟨_, rfl⟩

theorem run_meet (h : ∀ t ∈ ts, context.env.Free t) :
    ∃ warnings, (Step.meet ts).run context =
      (.ok (context.env.met ts), { context with warnings }) := by
  rw [Step.meet, Step.run_ofRun, Env.meet_eq (Env.free_inter.2 h).founded]
  exact ⟨_, rfl⟩

theorem join_yields (h : ∀ t ∈ ts, context.env.Legible t) :
    Step.Yields (Step.join ts) context (Parses context) := by
  obtain ⟨warnings, hr⟩ := run_join fun t ht ↦ (h t ht).free
  intro t after he
  rw [hr] at he
  cases he
  exact ⟨grows_warnings context warnings, .joined h⟩

theorem meet_yields (h : ∀ t ∈ ts, context.env.Legible t) :
    Step.Yields (Step.meet ts) context (Parses context) := by
  obtain ⟨warnings, hr⟩ := run_meet fun t ht ↦ (h t ht).free
  intro t after he
  rw [hr] at he
  cases he
  exact ⟨grows_warnings context warnings, .met h⟩

def ParsesEach (context : Context) (ts : List Ty) (after : Context) : Prop :=
  context.Grows after ∧ ∀ t ∈ ts, after.env.Legible t

def WellParsed (start : Nat) (tree : Tree) : Prop :=
  ∀ context, Context.Fresh start context → Step.Yields (parseTree start tree) context (Parses context)

theorem parseEach_yields {trees : List Tree} (h : ∀ tree ∈ trees, WellParsed start tree)
    (hf : Context.Fresh start context) :
    Step.Yields (parseEach start trees) context (ParsesEach context) := by
  induction trees generalizing context with
  | nil =>
    rw [parseEach]
    exact .pure ⟨.refl context, List.forall_mem_nil _⟩
  | cons tree trees ih =>
    obtain ⟨hd, htl⟩ := List.forall_mem_cons.1 h
    rw [parseEach]
    refine (hd context hf).bind fun t next ht ↦ ?_
    refine (ih htl (hf.grows ht.1)).bind fun ts after hts ↦ .pure ⟨ht.1.trans hts.1, ?_⟩
    exact List.forall_mem_cons.2 ⟨hts.1.legible ht.2, hts.2⟩

theorem single_yields {tree : Tree} {t : Ty} :
    Step.Yields (single tree t) context fun s after ↦ s = t ∧ after = context ∧ t.isTuple = false := by
  unfold single
  split
  · exact Step.yields_fail _
  · next h => exact .pure ⟨rfl, rfl, Bool.eq_false_of_not_eq_true h⟩

theorem parseParams_yields {trees : List Tree} (h : ∀ tree ∈ trees, WellParsed start tree)
    (hf : Context.Fresh start context) :
    Step.Yields (parseParams start trees) context fun ts after ↦
      ParsesEach context ts after ∧ ∀ t ∈ ts, t.isTuple = false := by
  induction trees generalizing context with
  | nil =>
    rw [parseParams]
    exact .pure ⟨⟨.refl context, List.forall_mem_nil _⟩, List.forall_mem_nil _⟩
  | cons tree trees ih =>
    obtain ⟨hd, htl⟩ := List.forall_mem_cons.1 h
    rw [parseParams]
    refine (hd context hf).bind fun t next ht ↦ ?_
    refine single_yields.bind ?_
    rintro _ _ ⟨rfl, rfl, htup⟩
    refine (ih htl (hf.grows ht.1)).bind fun ts after hts ↦ ?_
    refine .pure ⟨⟨ht.1.trans hts.1.1, ?_⟩, List.forall_mem_cons.2 ⟨htup, hts.2⟩⟩
    exact List.forall_mem_cons.2 ⟨hts.1.1.legible ht.2, hts.1.2⟩

theorem legible_pred {env : Env} {t : Ty} (h : env.Legible t) : env.Legible (.pred t) := by
  have only {P : Ty → Prop} (ht : P t.detached) : ∀ s ∈ (Ty.pred t).detached.children, P s :=
    List.forall_mem_singleton.2 ht
  refine ⟨h.free, ⟨Ty.named_detached _, .node nofun (only h.spelled.normal.whole), ?_⟩, ?_⟩
  · exact .node (only h.spelled.normal.canonical) nofun nofun
  · exact .node trivial (only h.spelled.readable)

theorem legible_proc {env : Env} {params : List Ty} {result : Ty}
    (hp : ∀ t ∈ params, env.Legible t ∧ t.isTuple = false) (hr : env.Legible result)
    (hrt : result.isTuple = false) : env.Legible (.proc params result) := by
  have hc : (Ty.proc params result).detached.children =
      (Ty.proc params result).children.map Ty.detached := Ty.children_rename _ _
  have each {P : Ty → Prop} (h : ∀ t, env.Legible t → P t.detached) :
      ∀ s ∈ (Ty.proc params result).detached.children, P s := by
    rw [hc]
    refine List.forall_mem_map.2 (List.forall_mem_append.2 ⟨fun t ht ↦ h t (hp t ht).1, ?_⟩)
    exact List.forall_mem_singleton.2 (h result hr)
  refine ⟨?_, ⟨Ty.named_detached _, .node nofun (each fun t ht ↦ ht.spelled.normal.whole), ?_⟩, ?_⟩
  · intro v hv
    rcases List.mem_append.1 hv with hv | hv
    · obtain ⟨t, ht, hvt⟩ := Ty.mem_varsEach.1 hv
      exact (hp t ht).1.free v hvt
    · exact hr.free v hv
  · exact .node (each fun t ht ↦ ht.spelled.normal.canonical) nofun nofun
  · refine .node ?_ (each fun t ht ↦ ht.spelled.readable)
    have htup : ∀ s ∈ (Ty.proc params result).detached.children, s.isTuple = false := by
      rw [hc]
      refine List.forall_mem_map.2 fun s hs ↦ ?_
      rw [Ty.detached, Ty.isTuple_rename]
      rcases List.mem_append.1 hs with hs | hs
      · exact (hp s hs).2
      · obtain rfl := List.mem_singleton.1 hs
        exact hrt
    exact htup

theorem parseTree_yields {tree : Tree} (hw : tree.Worded) : WellParsed start tree := by
  induction tree using Clause.tree_induction with
  | atom name =>
    intro context hf
    obtain ⟨h⟩ := hw
    rw [parseTree]
    exact parseAtom_yields hf h
  | literal text =>
    intro context hf
    rw [parseTree]
    exact Step.yields_fail _
  | group items ih =>
    intro context hf
    have hclause {clause : Clause} (hc : Clause.ofItems items = .ok clause) :
        ∀ tree ∈ clause.trees, WellParsed start tree :=
      fun tree ht ↦ ih clause hc tree ht (Clause.worded_ofItems hc hw tree ht)
    rw [parseTree]
    split
    · exact Step.yields_fail _
    · next parts hc =>
      refine (parseEach_yields (hclause hc) hf).bind fun ts next hts ↦ ?_
      exact fun t after he ↦ ((join_yields hts.2) t after he).imp_left hts.1.trans
    · next parts hc =>
      refine (parseEach_yields (hclause hc) hf).bind fun ts next hts ↦ ?_
      exact fun t after he ↦ ((meet_yields hts.2) t after he).imp_left hts.1.trans
    · next inner hc =>
      refine (hclause hc inner List.mem_cons_self context hf).bind fun t next ht ↦ ?_
      exact .pure ⟨ht.1, legible_pred ht.2⟩
    · next params result hc =>
      obtain ⟨hparams, hresult⟩ := List.forall_mem_append.1 (hclause hc)
      refine (parseParams_yields hparams hf).bind fun ts next hparsed ↦ ?_
      obtain ⟨hts, htups⟩ := hparsed
      refine (hresult result List.mem_cons_self next (hf.grows hts.1)).bind fun t last ht ↦ ?_
      refine single_yields.bind ?_
      rintro _ _ ⟨rfl, rfl, htup⟩
      refine .pure ⟨hts.1.trans ht.1, legible_proc (fun s hs ↦ ⟨?_, htups s hs⟩) ht.2 htup⟩
      exact ht.1.legible (hts.2 s hs)

theorem parseText_yields {text : String} (hf : Context.Fresh start context) :
    Step.Yields (parseText start text) context (Parses context) := by
  unfold parseText
  split
  · next tree hr => exact parseTree_yields (Tree.read_worded hr) context hf
  · exact Step.yields_fail _

theorem fresh_length (context : Context) : Context.Fresh context.cells.length context := by
  intro cell hc
  rw [List.drop_length] at hc
  cases hc

end Parser

namespace Step

variable {context : Context}

theorem parse_yields (text : String) (context : Context) :
    Yields (parse text) context (Parser.Parses context) :=
  fun t after h ↦ Parser.parseText_yields (Parser.fresh_length context) t after h

theorem parseAll_yields (texts : List String) (context : Context) :
    Yields (parseAll texts) context (Parser.ParsesEach context) := by
  have each (texts : List String) (next : Context) (hf : Context.Fresh context.cells.length next) :
      Yields (texts.mapM (Parser.parseText context.cells.length)) next (Parser.ParsesEach next) := by
    induction texts generalizing next with
    | nil => exact .pure ⟨.refl next, nofun⟩
    | cons text texts ih =>
      rw [List.mapM_cons]
      refine (Parser.parseText_yields hf).bind fun t next' ht ↦ ?_
      refine (ih next' (hf.grows ht.1)).bind fun ts after hts ↦ .pure ⟨ht.1.trans hts.1, ?_⟩
      exact List.forall_mem_cons.2 ⟨hts.1.legible ht.2, hts.2⟩
  exact fun ts after h ↦ each texts context (Parser.fresh_length context) ts after h

end Step

end TypeAlgebra
