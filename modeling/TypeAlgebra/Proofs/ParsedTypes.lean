import TypeAlgebra.Proofs.Antisymmetry
import TypeAlgebra.Proofs.LeastUpperBound

namespace TypeAlgebra

namespace Context

variable {context : Context} {a b c s t : Ty} {ts : List Ty}

/--
The type is the result of a parse and its variables are unbound. The parse was made in some context with the
same limit, as is any earlier state of this one.
-/
structure Parsed (context : Context) (t : Ty) : Prop where
  free : context.env.Free t
  parsed : ∃ before : Context, before.limit = context.limit ∧
    ((∃ text, ((Step.parse text).run before).1 = .ok t) ∨
      ∃ texts ts, ((Step.parseAll texts).run before).1 = .ok ts ∧ t ∈ ts)

def Subtype (context : Context) (s t : Ty) : Prop :=
  (context.env.subtype s t).outcome = .ok true

instance (context : Context) (s t : Ty) : Decidable (context.Subtype s t) :=
  inferInstanceAs (Decidable ((context.env.subtype s t).outcome = .ok true))

theorem Parsed.legible (h : context.Parsed t) : context.env.Legible t := by
  obtain ⟨before, hl, ⟨text, hp⟩ | ⟨texts, ts, hp, ht⟩⟩ := h.parsed
  · obtain ⟨hg, hlegible⟩ := Step.parse_yields text before t _ (Prod.ext hp rfl)
    exact hlegible.of_limit (hl.symm.trans hg.limit.symm) h.free
  · obtain ⟨hg, hlegible⟩ := Step.parseAll_yields texts before ts _ (Prod.ext hp rfl)
    exact (hlegible t ht).of_limit (hl.symm.trans hg.limit.symm) h.free

theorem subtype_iff (hs : context.env.Legible s) (ht : context.env.Legible t) :
    context.Subtype s t ↔ Env.Below context.limit s.detached t.detached := by
  rw [Subtype, Env.subtype_eq hs.free.founded ht.free.founded, Env.below_detached hs.free ht.free]
  exact ⟨Except.ok.inj, congrArg Except.ok⟩

theorem legible_any (context : Context) : context.env.Legible .any :=
  ⟨nofun, Env.normal_atomic _ _, Ty.readable_closed.any⟩

theorem legible_never (context : Context) : context.env.Legible .never :=
  ⟨nofun, Env.normal_atomic _ _, Ty.readable_closed.never⟩

/--
On parsed types the subtype relation is a preorder from `never` to `any`, for every limit. Without a limit it
is also antisymmetric up to equality.
-/
theorem subtype_preorder (ha : context.Parsed a) (hb : context.Parsed b) (hc : context.Parsed c) :
    context.Subtype a a ∧
      (context.Subtype a b → context.Subtype b c → context.Subtype a c) ∧
      context.Subtype .never a ∧ context.Subtype a .any ∧
      (context.limit ≤ 0 → context.Subtype a b → context.Subtype b a →
        context.env.equal a b = .ok true) := by
  have ha := ha.legible
  have hb := hb.legible
  have hc := hc.legible
  rw [subtype_iff ha ha, subtype_iff ha hb, subtype_iff hb hc, subtype_iff ha hc, subtype_iff hb ha,
    subtype_iff (legible_never context) ha, subtype_iff ha (legible_any context)]
  have hna := ha.spelled.normal
  refine ⟨Env.below_refl hna, ?_, Env.never_below hna, Env.below_any hna, fun hl hab hba ↦ ?_⟩
  · exact Env.below_trans hna hb.spelled.normal hc.spelled.normal
  · exact Env.equal_eq_true ha.free hb.free (Env.below_antisymm hl ha.spelled hb.spelled hab hba)

-- The variables of the first two types have the same name, but are not the same.
theorem subtype_preorder_two_variables :
    Context.Subtype { cells := [⟨"x", none⟩, ⟨"x", none⟩] } (.union [.atomic .number, .var ⟨"x", some 0⟩])
        (.union [.atomic .number, .atomic .string, .var ⟨"x", some 0⟩]) ∧
      (Env.mk [⟨"x", none⟩, ⟨"x", none⟩] 0).equal (.union [.atomic .number, .var ⟨"x", some 0⟩])
        (.union [.atomic .number, .var ⟨"x", some 1⟩]) = .ok true := by
  have ha : Parsed { cells := [⟨"x", none⟩, ⟨"x", none⟩] } (.union [.atomic .number, .var ⟨"x", some 0⟩]) :=
    ⟨by decide +kernel, {}, rfl, .inl ⟨"(union x number)", by decide +kernel⟩⟩
  have hb : Parsed { cells := [⟨"x", none⟩, ⟨"x", none⟩] } (.union [.atomic .number, .var ⟨"x", some 1⟩]) :=
    ⟨by decide +kernel, { cells := [⟨"x", none⟩] }, rfl, .inl ⟨"(union x number)", by decide +kernel⟩⟩
  have hc : Parsed { cells := [⟨"x", none⟩, ⟨"x", none⟩] }
      (.union [.atomic .number, .atomic .string, .var ⟨"x", some 0⟩]) :=
    ⟨by decide +kernel, {}, rfl, .inl ⟨"(union x number string)", by decide +kernel⟩⟩
  obtain ⟨-, trans, -, -, antisymm⟩ := subtype_preorder ha hb hc
  exact ⟨trans (by decide +kernel) (by decide +kernel),
    antisymm (by decide) (by decide +kernel) (by decide +kernel)⟩

theorem alternatives_not_tuple (ht : context.env.Legible t) (h : t.isTuple = false)
    (hp : ∀ parts, t = .union parts → ∀ p ∈ parts, p.isTuple = false) :
    ∀ p ∈ t.detached.alternatives, p.isTuple = false := by
  have hn := ht.spelled.normal
  cases hu : t.isUnion
  · rw [Ty.alternatives_of_not_union (by rwa [Ty.detached, Ty.isUnion_rename])]
    exact List.forall_mem_singleton.2 (by rwa [Ty.detached, Ty.isTuple_rename])
  · cases t <;> cases hu
    rename_i parts
    rw [Ty.detached_union] at hn ⊢
    rw [Ty.alternatives, Ty.alternativesEach_of_not_union fun p hp ↦ (hn.canonical.unionParts.plain p hp).1]
    refine List.forall_mem_map.2 fun p hm ↦ ?_
    rw [Ty.detached, Ty.isTuple_rename]
    exact hp parts rfl p hm

/--
The canonical union is the least upper bound of parsed types, as long as neither a type nor a part of one that
is a union is a tuple.
-/
theorem join_least_upper_bound (hts : ∀ t ∈ ts, context.Parsed t)
    (htup : ∀ t ∈ ts, t.isTuple = false ∧ ∀ parts, t = .union parts → ∀ p ∈ parts, p.isTuple = false) :
    ∃ u, (context.env.join ts).outcome = .ok u ∧
      (∀ c, context.Parsed c → (context.Subtype u c ↔ ∀ t ∈ ts, context.Subtype t c)) ∧
      ∀ t ∈ ts, context.Subtype t u := by
  have hlegible : ∀ t ∈ ts, context.env.Legible t := fun t ht ↦ (hts t ht).legible
  have hfree : ∀ t ∈ ts, context.env.Free t := fun t ht ↦ (hts t ht).free
  have hnormal : ∀ t ∈ ts.map Ty.detached, Env.Normal context.limit t :=
    List.forall_mem_map.2 fun t ht ↦ (hlegible t ht).spelled.normal
  have htup' : ∀ t ∈ ts.map Ty.detached, ∀ p ∈ t.alternatives, p.isTuple = false :=
    List.forall_mem_map.2 fun t ht ↦ alternatives_not_tuple (hlegible t ht) (htup t ht).1 (htup t ht).2
  have hu := Env.Legible.joined hlegible
  have hd : (context.env.joined ts).detached = (Env.vacant context.limit).joined (ts.map Ty.detached) :=
    Env.joined_detached hfree
  refine ⟨_, Env.join_eq (Env.free_union.2 hfree).founded, fun c hc ↦ ?_, fun t ht ↦ ?_⟩
  · have hc := hc.legible
    rw [subtype_iff hu hc, hd, Env.joined_below hnormal hc.spelled.normal htup', List.forall_mem_map]
    exact forall₂_congr fun t ht ↦ (subtype_iff (hlegible t ht) hc).symm
  · rw [subtype_iff (hlegible t ht) hu, hd]
    exact Env.below_joined hnormal htup' _ (List.mem_map_of_mem ht)

-- The union is made of the second type alone: `number` is below a part of it.
theorem join_least_upper_bound_dropped :
    ∃ u, ((Env.mk [⟨"x", none⟩, ⟨"y", none⟩] 1).join
        [.atomic .number, .union [.atomic .number, .var ⟨"x", some 0⟩]]).outcome = .ok u ∧
      Context.Subtype { cells := [⟨"x", none⟩, ⟨"y", none⟩], limit := 1 } u
        (.union [.atomic .number, .var ⟨"x", some 0⟩, .var ⟨"y", some 1⟩]) := by
  have parsed : ∀ t ∈ [Ty.atomic .number, .union [.atomic .number, .var ⟨"x", some 0⟩],
      .union [.atomic .number, .var ⟨"x", some 0⟩, .var ⟨"y", some 1⟩]],
      Parsed { cells := [⟨"x", none⟩, ⟨"y", none⟩], limit := 1 } t :=
    fun t ht ↦ ⟨by revert t; decide +kernel, { limit := 1 }, rfl,
      .inr ⟨["number", "(union x number)", "(union y x number)"], _, by decide +kernel, ht⟩⟩
  obtain ⟨h₁, h₂, h₃, -⟩ := by simpa only [List.forall_mem_cons] using parsed
  have htup : ∀ parts, Ty.union [.atomic .number, .var ⟨"x", some 0⟩] = .union parts →
      ∀ p ∈ parts, p.isTuple = false := by
    rintro _ ⟨⟩
    decide
  obtain ⟨u, hu, hbelow, -⟩ := join_least_upper_bound
    (List.forall_mem_cons.2 ⟨h₁, List.forall_mem_singleton.2 h₂⟩)
    (List.forall_mem_cons.2 ⟨⟨rfl, nofun⟩, List.forall_mem_singleton.2 ⟨rfl, htup⟩⟩)
  exact ⟨u, hu, (hbelow _ h₃).2 (by decide +kernel)⟩

end Context

end TypeAlgebra
