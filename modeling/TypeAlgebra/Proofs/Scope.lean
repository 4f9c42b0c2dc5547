import TypeAlgebra.Proofs.Parsing

namespace TypeAlgebra

namespace Cells

theorem findFrom?_append {cells more : Cells} {start : Nat} {name : String} {v : Var}
    (h : cells.findFrom? start name = some v) : findFrom? (cells ++ more) start name = some v := by
  obtain ⟨i, hi, rfl⟩ := Option.map_eq_some_iff.1 h
  simp [findFrom?, List.drop_append, List.findIdx?_append, hi]

theorem findFrom?_allocate {cells : Cells} {start : Nat} {name : String} (hl : start ≤ cells.length)
    (h : cells.findFrom? start name = none) :
    findFrom? (cells ++ [⟨name, none⟩]) start name = some ⟨name, some cells.length⟩ := by
  have hn : (cells.drop start).findIdx? (·.name == name) = none := Option.map_eq_none_iff.1 h
  have hz : start - cells.length = 0 := Nat.sub_eq_zero_of_le hl
  simp only [findFrom?, List.drop_append, List.findIdx?_append, hn, hz, List.drop_zero]
  simp [List.findIdx?_cons, Nat.add_sub_cancel' hl]

end Cells

namespace Step

theorem Yields.and {α : Type} {step : Step α} {context : Context} {P Q : α → Context → Prop}
    (h : Yields step context P) (h' : Yields step context Q) :
    Yields step context fun a after ↦ P a after ∧ Q a after :=
  fun a after hr ↦ ⟨h a after hr, h' a after hr⟩

end Step

namespace Parser

variable {start : Nat} {context before after : Context} {t : Ty} {ts : List Ty}

/-- Each variable of the type is what its name stands for in the parse that began at `start`. -/
def Scoped (start : Nat) (t : Ty) (context : Context) : Prop :=
  ∀ v ∈ t.vars, context.cells.findFrom? start v.name = some v

theorem Scoped.grows (h : Scoped start t before) (hg : before.Grows after) : Scoped start t after := by
  obtain ⟨names, hn⟩ := hg.cells
  intro v hv
  rw [hn]
  exact Cells.findFrom?_append (h v hv)

theorem Scoped.eq {s : Ty} (hs : Scoped start s context) (ht : Scoped start t context) :
    ∀ v ∈ s.vars, ∀ w ∈ t.vars, v.name = w.name → v = w := by
  intro v hv w hw hn
  have h := hs v hv
  rw [hn, ht w hw] at h
  exact (Option.some.inj h).symm

theorem scoped_of_vars (h : ∀ t ∈ ts, Scoped start t context) (hv : t.vars ⊆ Ty.varsEach ts) :
    Scoped start t context := by
  intro v hm
  obtain ⟨s, hs, hvs⟩ := Ty.mem_varsEach.1 (hv hm)
  exact h s hs v hvs

theorem length_le_of_grows (hl : start ≤ before.cells.length) (hg : before.Grows after) :
    start ≤ after.cells.length := by
  obtain ⟨names, hn⟩ := hg.cells
  rw [hn, List.length_append]
  omega

theorem parseVar_scoped {name : String} (hl : start ≤ context.cells.length) :
    Step.Yields (parseVar start name) context (Scoped start) := by
  intro t after h
  rw [run_parseVar] at h
  split at h
  · next v hfind =>
    cases h
    intro w hw
    obtain rfl := List.mem_singleton.1 hw
    obtain ⟨i, -, rfl, -⟩ := Cells.findFrom?_eq_some hfind
    exact hfind
  · next hfind =>
    cases h
    intro w hw
    obtain rfl := List.mem_singleton.1 hw
    exact Cells.findFrom?_allocate hl hfind

theorem parseAtom_scoped {name : String} (hl : start ≤ context.cells.length) :
    Step.Yields (parseAtom start name) context (Scoped start) := by
  unfold parseAtom
  split
  · exact .pure nofun
  · split
    · exact .pure nofun
    · split
      · exact Step.yields_fail _
      · split
        · exact parseVar_scoped hl
        · exact Step.yields_fail _

def WellScoped (start : Nat) (tree : Tree) : Prop :=
  ∀ context, Context.Fresh start context → start ≤ context.cells.length →
    Step.Yields (parseTree start tree) context fun t after ↦ Parses context t after ∧ Scoped start t after

theorem parseEach_scoped {trees : List Tree} (h : ∀ tree ∈ trees, WellScoped start tree)
    (hf : Context.Fresh start context) (hl : start ≤ context.cells.length) :
    Step.Yields (parseEach start trees) context fun ts after ↦
      ParsesEach context ts after ∧ ∀ t ∈ ts, Scoped start t after := by
  induction trees generalizing context with
  | nil =>
    rw [parseEach]
    exact .pure ⟨⟨.refl context, List.forall_mem_nil _⟩, List.forall_mem_nil _⟩
  | cons tree trees ih =>
    obtain ⟨hd, htl⟩ := List.forall_mem_cons.1 h
    rw [parseEach]
    refine (hd context hf hl).bind fun t next ht ↦ ?_
    obtain ⟨⟨hg, ht⟩, hst⟩ := ht
    refine (ih htl (hf.grows hg) (length_le_of_grows hl hg)).bind fun ts after hts ↦ ?_
    obtain ⟨⟨hg', hts⟩, hsts⟩ := hts
    refine .pure ⟨⟨hg.trans hg', ?_⟩, ?_⟩
    · exact List.forall_mem_cons.2 ⟨hg'.legible ht, hts⟩
    · exact List.forall_mem_cons.2 ⟨hst.grows hg', hsts⟩

theorem parseParams_scoped {trees : List Tree} (h : ∀ tree ∈ trees, WellScoped start tree)
    (hf : Context.Fresh start context) (hl : start ≤ context.cells.length) :
    Step.Yields (parseParams start trees) context fun ts after ↦
      context.Grows after ∧ ∀ t ∈ ts, Scoped start t after := by
  induction trees generalizing context with
  | nil =>
    rw [parseParams]
    exact .pure ⟨.refl context, List.forall_mem_nil _⟩
  | cons tree trees ih =>
    obtain ⟨hd, htl⟩ := List.forall_mem_cons.1 h
    rw [parseParams]
    refine (hd context hf hl).bind fun t next ht ↦ ?_
    refine single_yields.bind ?_
    rintro _ _ ⟨rfl, rfl, -⟩
    obtain ⟨⟨hg, -⟩, hst⟩ := ht
    refine (ih htl (hf.grows hg) (length_le_of_grows hl hg)).bind fun ts after hts ↦ ?_
    obtain ⟨hg', hsts⟩ := hts
    exact .pure ⟨hg.trans hg', List.forall_mem_cons.2 ⟨hst.grows hg', hsts⟩⟩

theorem join_scoped (h : ∀ t ∈ ts, context.env.Legible t) (hs : ∀ t ∈ ts, Scoped start t context) :
    Step.Yields (Step.join ts) context (Scoped start) := by
  have hfree : ∀ t ∈ ts, context.env.Free t := fun t ht ↦ (h t ht).free
  obtain ⟨warnings, hr⟩ := run_join hfree
  intro t after he
  rw [hr] at he
  cases he
  exact scoped_of_vars hs (Env.joinTo_ample (Env.free_union.2 hfree).founded).1.vars

theorem meet_scoped (h : ∀ t ∈ ts, context.env.Legible t) (hs : ∀ t ∈ ts, Scoped start t context) :
    Step.Yields (Step.meet ts) context (Scoped start) := by
  have hfree : ∀ t ∈ ts, context.env.Free t := fun t ht ↦ (h t ht).free
  obtain ⟨warnings, hr⟩ := run_meet hfree
  intro t after he
  rw [hr] at he
  cases he
  exact scoped_of_vars hs (Env.meetTo_ample (Env.free_inter.2 hfree).founded).1.vars

theorem parseTree_scoped {tree : Tree} (hw : tree.Worded) : WellScoped start tree := by
  induction tree using Clause.tree_induction with
  | atom name =>
    intro context hf hl
    refine (parseTree_yields hw context hf).and ?_
    rw [parseTree]
    exact parseAtom_scoped hl
  | literal text =>
    intro context hf hl
    refine (parseTree_yields hw context hf).and ?_
    rw [parseTree]
    exact Step.yields_fail _
  | group items ih =>
    intro context hf hl
    refine (parseTree_yields hw context hf).and ?_
    have hclause {clause : Clause} (hc : Clause.ofItems items = .ok clause) :
        ∀ tree ∈ clause.trees, WellScoped start tree :=
      fun tree ht ↦ ih clause hc tree ht (Clause.worded_ofItems hc hw tree ht)
    rw [parseTree]
    split
    · exact Step.yields_fail _
    · next parts hc =>
      refine (parseEach_scoped (hclause hc) hf hl).bind fun ts next hts ↦ ?_
      exact join_scoped hts.1.2 hts.2
    · next parts hc =>
      refine (parseEach_scoped (hclause hc) hf hl).bind fun ts next hts ↦ ?_
      exact meet_scoped hts.1.2 hts.2
    · next inner hc =>
      refine (hclause hc inner List.mem_cons_self context hf hl).bind fun t next ht ↦ ?_
      exact .pure ht.2
    · next params result hc =>
      obtain ⟨hparams, hresult⟩ := List.forall_mem_append.1 (hclause hc)
      refine (parseParams_scoped hparams hf hl).bind fun ts next hts ↦ ?_
      obtain ⟨hg, hts⟩ := hts
      refine (hresult result List.mem_cons_self next (hf.grows hg) (length_le_of_grows hl hg)).bind
        fun t last ht ↦ ?_
      refine single_yields.bind ?_
      rintro _ _ ⟨rfl, rfl, -⟩
      refine .pure fun v hv ↦ ?_
      rcases List.mem_append.1 hv with hv | hv
      · obtain ⟨s, hs, hvs⟩ := Ty.mem_varsEach.1 hv
        exact (hts s hs).grows ht.1.1 v hvs
      · exact ht.2 v hv

end Parser

/-- In the results of one parse, variables of the same name are the same. -/
theorem Step.parseAll_scoped (texts : List String) (context : Context) :
    Yields (parseAll texts) context fun ts after ↦
      ∀ t ∈ ts, Parser.Scoped context.cells.length t after := by
  have each (texts : List String) (next : Context) (hf : Context.Fresh context.cells.length next)
      (hl : context.cells.length ≤ next.cells.length) :
      Yields (texts.mapM (Parser.parseText context.cells.length)) next fun ts after ↦
        next.Grows after ∧ ∀ t ∈ ts, Parser.Scoped context.cells.length t after := by
    induction texts generalizing next with
    | nil => exact .pure ⟨.refl next, nofun⟩
    | cons text texts ih =>
      have hd : Yields (Parser.parseText context.cells.length text) next fun t after ↦
          Parser.Parses next t after ∧ Parser.Scoped context.cells.length t after := by
        unfold Parser.parseText
        split
        · next tree hr => exact Parser.parseTree_scoped (Tree.read_worded hr) next hf hl
        · exact yields_fail _
      rw [List.mapM_cons]
      refine hd.bind fun t next' ht ↦ ?_
      obtain ⟨⟨hg, -⟩, hst⟩ := ht
      refine (ih next' (hf.grows hg) (Parser.length_le_of_grows hl hg)).bind fun ts after hts ↦ ?_
      exact .pure ⟨hg.trans hts.1, List.forall_mem_cons.2 ⟨hst.grows hts.1, hts.2⟩⟩
  exact fun ts after h ↦ (each texts context (Parser.fresh_length context) le_rfl ts after h).2

end TypeAlgebra
