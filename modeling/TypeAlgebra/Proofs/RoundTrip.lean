import TypeAlgebra.Proofs.Spelling

namespace TypeAlgebra

namespace Env

open TypeAlgebra.Parser (Spells spells_atomic spells_empty spells_var spells_pred spells_proc spells_join
  spells_meet)

variable {env : Env} {limit : Int64} {s t u p : Ty} {us parts : List Ty} {trees : List Tree}

theorem UnionParts.tail (h : env.UnionParts (p :: parts)) (hl : 2 ≤ parts.length) : env.UnionParts parts where
  several := hl
  plain q hq := h.plain q (List.mem_cons_of_mem p hq)
  unrelated := (List.pairwise_cons.1 h.unrelated).2
  sorted := (List.pairwise_cons.1 h.sorted).2

/-- Unions are written with their last parts in a union of their own. -/
theorem joined_cons_union (hs : ∀ q ∈ p :: parts, env.Sound q) (h : env.UnionParts (p :: parts)) :
    env.joined [p, .union parts] = .union (p :: parts) := by
  obtain ⟨hp, hparts⟩ := List.forall_mem_cons.1 hs
  rw [← joined_of_unionParts hs h]
  refine joined_congr ?_ hs ?_
  · exact List.forall_mem_cons.2 ⟨hp, List.forall_mem_singleton.2 (sound_union hparts)⟩
  · rw [Ty.alternativesEach, Ty.alternativesEach, Ty.alternativesEach, Ty.alternatives, Ty.alternativesEach,
      List.append_nil]

theorem spells_union (h : List.Forall₂ (Spells limit) trees parts)
    (hs : ∀ p ∈ parts, (vacant limit).Sound p) (hu : (vacant limit).UnionParts parts) :
    Spells limit (Form.union (trees.map ([·]))) (.union parts) := by
  induction h with
  | nil => cases hu.several
  | cons hd htl ih =>
    rcases htl with _ | ⟨hd', htl'⟩
    · exact absurd hu.several (Nat.lt_irrefl 1)
    · rcases htl' with _ | ⟨hd'', htl''⟩
      · exact spells_join (.cons hd (.cons hd' .nil)) nofun (joined_of_unionParts hs hu)
      · have hrest := ih (List.forall_mem_cons.1 hs).2 (hu.tail (by simp))
        exact spells_join (.cons hd (.cons hrest .nil)) nofun (joined_cons_union hs hu)

theorem spells_inter (h : List.Forall₂ (Spells limit) trees parts)
    (hs : ∀ p ∈ parts, (vacant limit).Sound p) (hi : (vacant limit).InterParts parts) :
    Spells limit (Form.inter (trees.map ([·]))) (.inter parts) := by
  have hne : trees ≠ [] := by
    rintro rfl
    cases h
    cases hi.several
  have hflat : (trees.map ([·])).flatten = trees := by rw [← List.flatMap_def, List.flatMap_singleton']
  rw [Form.inter, hflat]
  exact spells_meet h hne (met_of_interParts hs hi)

theorem exists_forms (h : ∀ u ∈ us, ∃ tree, (vacant limit).form u = .ok [tree] ∧ Spells limit tree u) :
    ∃ trees, us.mapM (vacant limit).form = .ok (trees.map ([·])) ∧ List.Forall₂ (Spells limit) trees us := by
  induction us with
  | nil => exact ⟨[], rfl, .nil⟩
  | cons u us ih =>
    obtain ⟨tree, hf, hs⟩ := h u List.mem_cons_self
    obtain ⟨trees, hfs, hss⟩ := ih fun s hs ↦ h s (List.mem_cons_of_mem u hs)
    exact ⟨tree :: trees, by rw [List.mapM_cons, hf, hfs]; rfl, .cons hs hss⟩

/-- What is written for a type is a way to write it. -/
theorem exists_spelling (hu : Spelled limit u) :
    ∃ tree, (vacant limit).form u = .ok [tree] ∧ Spells limit tree u := by
  induction u using Ty.induction_children with
  | step u ih =>
    have hchild : ∀ s ∈ u.children, ∃ tree, (vacant limit).form s = .ok [tree] ∧ Spells limit tree s :=
      fun s hs ↦ ih s hs (hu.child hs)
    have hsound : ∀ s ∈ u.children, (vacant limit).Sound s := fun s hs ↦ (hu.child hs).normal.settled.sound
    have hw := hu.readable.writable
    rw [form_eq hu.normal.free.founded, hu.normal.free.resolved.resolved_eq]
    cases u with
    | absent => cases hw
    | atomic kind => exact ⟨_, rfl, spells_atomic hw⟩
    | var v => exact ⟨_, rfl, spells_var hw (hu.normal.named v (List.mem_singleton_self v))⟩
    | proc params result =>
      obtain ⟨trees, hfs, hss⟩ := exists_forms fun s hs ↦ hchild s (List.mem_append_left _ hs)
      obtain ⟨tree, hf, hs⟩ := hchild result (by simp [Ty.children])
      obtain ⟨htup, hrt⟩ := List.forall_mem_append.1 hw
      refine ⟨_, ?_, spells_proc hss hs htup (hrt result List.mem_cons_self)⟩
      rw [Ty.formBy, hfs, hf]
      rfl
    | empty => exact ⟨_, rfl, spells_empty⟩
    | tuple elems => cases hw
    | union parts =>
      obtain ⟨trees, hfs, hss⟩ := exists_forms hchild
      refine ⟨_, ?_, spells_union hss hsound hu.normal.canonical.unionParts⟩
      rw [Ty.formBy]
      exact congrArg (· >>= _) hfs
    | inter parts =>
      obtain ⟨trees, hfs, hss⟩ := exists_forms hchild
      refine ⟨_, ?_, spells_inter hss hsound hu.normal.canonical.interParts⟩
      rw [Ty.formBy]
      exact congrArg (· >>= _) hfs
    | pred inner =>
      obtain ⟨tree, hf, hs⟩ := hchild inner List.mem_cons_self
      refine ⟨_, ?_, spells_pred hs⟩
      rw [Ty.formBy, hf]
      rfl

/-- A tree is a way to write one type only. -/
theorem spells_unique {tree : Tree} (hs : Spells limit tree s) (ht : Spells limit tree t) : s = t := by
  obtain ⟨s', after, hr, hd⟩ := hs.parses 0 { limit } rfl nofun
  obtain ⟨t', after', hr', hd'⟩ := ht.parses 0 { limit } rfl nofun
  cases hr.symm.trans hr'
  exact hd.symm.trans hd'

/-- Types that can be written are determined by their texts. -/
theorem key_injective (hs : Spelled limit s) (ht : Spelled limit t)
    (h : (vacant limit).key s = (vacant limit).key t) : s = t := by
  obtain ⟨tree, hf, hsp⟩ := exists_spelling hs
  obtain ⟨tree', hf', hsp'⟩ := exists_spelling ht
  rw [key_of_form hs.normal.free.founded hf, key_of_form ht.normal.free.founded hf', Tree.format_singleton,
    Tree.format_singleton] at h
  have hread := Tree.read_print hsp.legible
  rw [h, Tree.read_print hsp'.legible] at hread
  cases hread
  exact spells_unique hsp hsp'

theorem Legible.exists_text (h : env.Legible t) :
    ∃ tree, env.unparse t = .ok tree.print ∧ Spells env.limit tree t.detached := by
  obtain ⟨tree, hf, hs⟩ := exists_spelling h.spelled
  refine ⟨tree, ?_, hs⟩
  change (env.form t).map Tree.format = _
  rw [form_detached h.free, hf]
  exact congrArg Except.ok (Tree.format_singleton tree)

theorem unparse_congr {env' : Env} (hs : env.Free s) (ht : env'.Free t) (hl : env.limit = env'.limit)
    (h : s.detached = t.detached) : env.unparse s = env'.unparse t := by
  change (env.form s).map Tree.format = (env'.form t).map Tree.format
  rw [form_detached hs, form_detached ht, hl, h]

theorem equal_eq_true (hs : env.Free s) (ht : env.Free t) (h : s.detached = t.detached) :
    env.equal s t = .ok true := by
  rw [equal_eq hs.founded ht.founded, (same_iff hs ht).2 h]

end Env

theorem Parser.Spells.parse_print {limit : Int64} {tree : Tree} {u : Ty} {context : Context}
    (h : Spells limit tree u) (hl : context.limit = limit) :
    Step.Succeeds (Step.parse tree.print) context fun t after ↦ t.detached = u ∧ Parses context t after := by
  have hs := h.succeeds hl (fresh_length context)
  have he : (Step.parse tree.print).run context = (parseTree context.cells.length tree).run context := by
    change (parseText context.cells.length tree.print).run context = _
    rw [parseText, Tree.read_print h.legible]
  rwa [Step.Succeeds, he]

namespace Step

/--
The text of a parsed type is parsed to an equal type with the same text, at any time before a variable of the
type is bound.
-/
theorem parse_unparse {text : String} {before : Context} {t : Ty}
    (hp : ((parse text).run before).1 = .ok t) (later : Context) (hl : later.limit = before.limit)
    (hf : later.env.Free t) :
    ∃ written again last, later.env.unparse t = .ok written ∧
      (parse written).run later = (.ok again, last) ∧
      last.env.equal t again = .ok true ∧ last.env.unparse again = .ok written := by
  obtain ⟨hg, hlegible⟩ := parse_yields text before t _ (Prod.ext hp rfl)
  have ht : later.env.Legible t := hlegible.of_limit (hl.trans hg.limit.symm) hf
  obtain ⟨tree, hu, hs⟩ := ht.exists_text
  obtain ⟨again, last, hr, hd, hg', ha⟩ := hs.parse_print rfl
  refine ⟨tree.print, again, last, hu, hr, Env.equal_eq_true (hg'.legible ht).free ha.free hd.symm, ?_⟩
  rw [← hu]
  exact Env.unparse_congr ha.free hf hg'.limit hd

-- Another `x` is bound before the parse, and the limit keeps the intersection from being distributed.
theorem parse_unparse_undistributed :
    ∃ written again last,
      (Env.mk [⟨"x", some .any⟩, ⟨"z", none⟩, ⟨"x", none⟩, ⟨"y", none⟩] 1).unparse
        (.union [.proc [.var ⟨"x", some 2⟩] (.inter [.union [.var ⟨"y", some 3⟩, .var ⟨"z", some 1⟩],
          .var ⟨"x", some 2⟩]), .var ⟨"z", some 1⟩]) = .ok written ∧
      (parse written).run { cells := [⟨"x", some .any⟩, ⟨"z", none⟩, ⟨"x", none⟩, ⟨"y", none⟩], limit := 1 } =
        (.ok again, last) ∧
      last.env.equal
        (.union [.proc [.var ⟨"x", some 2⟩] (.inter [.union [.var ⟨"y", some 3⟩, .var ⟨"z", some 1⟩],
          .var ⟨"x", some 2⟩]), .var ⟨"z", some 1⟩]) again = .ok true ∧
      last.env.unparse again = .ok written :=
  have hp : ((parse "(union z (x -> (inter x (union z y))))").run
      { cells := [⟨"x", some .any⟩], limit := 1 }).1 =
      .ok (.union [.proc [.var ⟨"x", some 2⟩] (.inter [.union [.var ⟨"y", some 3⟩, .var ⟨"z", some 1⟩],
        .var ⟨"x", some 2⟩]), .var ⟨"z", some 1⟩]) := by decide +kernel
  parse_unparse hp { cells := [⟨"x", some .any⟩, ⟨"z", none⟩, ⟨"x", none⟩, ⟨"y", none⟩], limit := 1 } rfl
    (by decide +kernel)

end Step

end TypeAlgebra
