import TypeAlgebra.Proofs.ParsedTypes
import TypeAlgebra.Proofs.Regrouping
import TypeAlgebra.Proofs.Scope

namespace TypeAlgebra

namespace Ty

variable {s t : Ty}

/-- Types with the same names at the same places are the same if each name stands for one variable. -/
theorem eq_of_detached (h : ∀ v ∈ s.vars, ∀ w ∈ t.vars, v.name = w.name → v = w)
    (he : s.detached = t.detached) : s = t := by
  induction s using induction_children generalizing t with
  | step s ih =>
    have halike := (detached_eq_iff.1 he).imp (S := Eq) fun a ha b hb hab ↦
      ih a ha (fun v hv w hw ↦ h v (mem_vars_of_child ha hv) w (mem_vars_of_child hb hw)) hab
    have each {ss ts : List Ty} (h : List.Forall₂ Eq ss ts) : ss = ts := by
      rwa [List.forall₂_eq_eq_eq] at h
    cases halike with
    | absent => rfl
    | atomic kind => rfl
    | var hn => exact congrArg var (h _ (List.mem_singleton_self _) _ (List.mem_singleton_self _) hn)
    | proc hp hr => rw [each hp, hr]
    | empty => rfl
    | tuple hs => rw [each hs]
    | union hp => rw [each hp]
    | inter hp => rw [each hp]
    | pred hi => rw [hi]

theorem varsEach_subset {ss ts : List Ty} (h : ∀ s ∈ ss, s.vars ⊆ varsEach ts) :
    varsEach ss ⊆ varsEach ts := by
  intro v hv
  obtain ⟨s, hs, hvs⟩ := mem_varsEach.1 hv
  exact h s hs hvs

theorem vars_subset_of_mem {ts : List Ty} (h : t ∈ ts) : t.vars ⊆ varsEach ts :=
  fun _ hv ↦ mem_varsEach.2 ⟨t, h, hv⟩

theorem leaves_detached (t : Ty) : t.detached.leaves = t.leaves.map detached := by
  simp only [leaves, detached, alternatives_rename, List.flatMap_map, List.map_flatMap, factors_rename]
  rfl

end Ty

namespace Env

variable {env : Env} {s t : Ty} {ts xs ys : List Ty}

theorem ordering_detached (general : Ordering) (hs : env.Free s) (ht : env.Free t) :
    env.ordering general s t = (vacant env.limit).ordering general s.detached t.detached := by
  rw [ordering, ordering, same_detached hs ht, below_detached hs ht, below_detached ht hs, key_detached hs, key_detached ht]

/-- What is left of the parts of an intersection is the same without the environment. -/
theorem meetParts_detached (hts : ∀ t ∈ ts, env.Free t) :
    (vacant env.limit).meetParts (ts.map Ty.detached) = (env.meetParts ts).map Ty.detached := by
  have hfree : ∀ p ∈ meetFactors ts, env.Free p := fun p hp ↦
    factorsEach_of_child Free.child hts p (mem_meetFactors.1 hp).1
  have hprune : List.Forall₂ env.Detaches (pruned (fun s t ↦ env.below t s) (meetFactors ts))
      (pruned (fun s t ↦ (vacant env.limit).below t s) ((meetFactors ts).map Ty.detached)) := by
    refine Coupling.plain.rel_prune ?_ (forall₂_renamed hfree)
    rintro a _ b _ ⟨ha, rfl⟩ ⟨hb, rfl⟩
    exact below_detached hb ha
  have hsort : List.Forall₂ env.Detaches (env.meetParts ts)
      (sortedBy ((vacant env.limit).ordering .lt)
        (pruned (fun s t ↦ (vacant env.limit).below t s) ((meetFactors ts).map Ty.detached))) := by
    refine Coupling.plain.rel_stableSort ?_ hprune
    rintro a _ b _ ⟨ha, rfl⟩ ⟨hb, rfl⟩
    exact ordering_detached .lt ha hb
  rw [meetParts, meetFactors_detached]
  exact (eq_map_of_renamed hsort).2

theorem Undistributed.detached (hts : ∀ t ∈ ts, env.Free t) (h : env.Undistributed ts) :
    (vacant env.limit).Undistributed (ts.map Ty.detached) := by
  rw [Undistributed, meetParts_detached hts, List.length_map, List.forall_mem_map]
  exact h.imp id fun h p hp ↦ (Ty.isUnion_rename _ p).trans (h p hp)

theorem Independent.detached (hx : ∀ t ∈ xs, env.Free t) (hy : ∀ t ∈ ys, env.Free t)
    (h : env.Independent xs ys) :
    (vacant env.limit).Independent (xs.map Ty.detached) (ys.map Ty.detached) := by
  have hm : env.Free (env.met ys) := .met hy
  have hfree {ts : List Ty} (ht : ∀ t ∈ ts, env.Free t) : ∀ p ∈ env.meetParts ts, env.Free p := fun p hp ↦
    factorsEach_of_child Free.child ht p (mem_meetFactors.1 (mem_meetParts hp)).1
  have hapart {a b : Ty} (ha : env.Free a) (hb : env.Free b) (h : Apart env.below a b) :
      Apart (vacant env.limit).below a.detached b.detached := by
    rwa [Apart, ← below_detached ha hb, ← below_detached hb ha]
  have hone : (vacant env.limit).meetParts [(vacant env.limit).met (ys.map Ty.detached)] =
      (env.meetParts [env.met ys]).map Ty.detached := by
    rw [← met_detached hy, ← meetParts_detached (List.forall_mem_singleton.2 hm), List.map_singleton]
  constructor
  · rw [hone, meetParts_detached hx, meetParts_detached hy, ← List.map_append]
    simp only [List.forall_mem_map]
    intro x hxm y hym
    refine hapart (hfree hx x hxm) ?_ (h.apart x hxm y hym)
    rcases List.mem_append.1 hym with hym | hym
    · exact hfree hy y hym
    · exact hfree (List.forall_mem_singleton.2 hm) y hym
  · rw [meetParts_detached hx, meetParts_detached hy]
    simp only [List.forall_mem_map, Ty.leaves_detached]
    intro x hxm y hym a ha b hb
    have leaf {t c : Ty} (ht : env.Free t) (hc : c ∈ t.leaves) : env.Free c := by
      obtain ⟨p, hp, hcp⟩ := Ty.mem_leaves.1 hc
      exact Ty.factor_of_child Free.child (Ty.alternative_of_child Free.child ht hp) hcp
    obtain ⟨htup, hab⟩ := h.leaves x hxm y hym a ha b hb
    refine ⟨(Ty.isTuple_rename _ a).trans htup, hab.imp (congrArg Ty.detached) ?_⟩
    exact hapart (leaf (hfree hx x hxm) ha) (leaf (hfree hy y hym) hb)

end Env

namespace Context

variable {context : Context} {s t : Ty} {ts ts' xs ys zs : List Ty}

/--
The types are among the results of one parse of several texts, and their variables are unbound. The parse was
made in some context with the same limit.
-/
structure ParsedTogether (context : Context) (ts : List Ty) : Prop where
  free : ∀ t ∈ ts, context.env.Free t
  parsed : ∃ (before : Context) (texts : List String) (results : List Ty), before.limit = context.limit ∧
    ((Step.parseAll texts).run before).1 = .ok results ∧ ts ⊆ results

theorem ParsedTogether.legible (h : context.ParsedTogether ts) : ∀ t ∈ ts, context.env.Legible t := by
  obtain ⟨before, texts, results, hl, hp, hsub⟩ := h.parsed
  intro t ht
  obtain ⟨hg, hlegible⟩ := Step.parseAll_yields texts before results _ (Prod.ext hp rfl)
  exact (hlegible t (hsub ht)).of_limit (hl.symm.trans hg.limit.symm) (h.free t ht)

theorem ParsedTogether.of_subset (h : context.ParsedTogether ts) (hs : ts' ⊆ ts) :
    context.ParsedTogether ts' := by
  obtain ⟨before, texts, results, hl, hp, hsub⟩ := h.parsed
  exact ⟨fun t ht ↦ h.free t (hs ht), before, texts, results, hl, hp, fun t ht ↦ hsub (hs ht)⟩

/-- Over the variables of types parsed together, types are known by their names. -/
theorem ParsedTogether.eq_of_detached (h : context.ParsedTogether ts) (hs : s.vars ⊆ Ty.varsEach ts)
    (ht : t.vars ⊆ Ty.varsEach ts) (he : s.detached = t.detached) : s = t := by
  obtain ⟨before, texts, results, -, hp, hsub⟩ := h.parsed
  have hscoped := Step.parseAll_scoped texts before results _ (Prod.ext hp rfl)
  have hts := fun t ht ↦ hscoped t (hsub ht)
  exact Ty.eq_of_detached (Parser.Scoped.eq (Parser.scoped_of_vars hts hs) (Parser.scoped_of_vars hts ht)) he

theorem ParsedTogether.spelled (h : context.ParsedTogether ts) :
    ∀ t ∈ ts.map Ty.detached, Env.Spelled context.limit t :=
  List.forall_mem_map.2 fun t ht ↦ (h.legible t ht).spelled

theorem ParsedTogether.joined_vars (h : context.ParsedTogether ts) :
    (context.env.joined ts).vars ⊆ Ty.varsEach ts :=
  (Env.joinTo_ample (Env.free_union.2 h.free).founded).1.vars

theorem ParsedTogether.met_vars (h : context.ParsedTogether ts) :
    (context.env.met ts).vars ⊆ Ty.varsEach ts :=
  (Env.meetTo_ample (Env.free_inter.2 h.free).founded).1.vars

theorem ParsedTogether.joined_perm (h : context.ParsedTogether ts) (hl : context.limit ≤ 0)
    (hp : ts.Perm ts') : context.env.joined ts = context.env.joined ts' := by
  have h' := h.of_subset hp.symm.subset
  refine h.eq_of_detached h.joined_vars (fun v hv ↦ ?_) ?_
  · exact Ty.varsEach_subset (fun t ht ↦ Ty.vars_subset_of_mem (hp.mem_iff.2 ht)) (h'.joined_vars hv)
  · rw [Env.joined_detached h.free, Env.joined_detached h'.free]
    exact Env.joined_perm hl h.spelled (hp.map _)

theorem ParsedTogether.met_perm (h : context.ParsedTogether ts) (hl : context.limit ≤ 0)
    (hp : ts.Perm ts') : context.env.met ts = context.env.met ts' := by
  have h' := h.of_subset hp.symm.subset
  refine h.eq_of_detached h.met_vars (fun v hv ↦ ?_) ?_
  · exact Ty.varsEach_subset (fun t ht ↦ Ty.vars_subset_of_mem (hp.mem_iff.2 ht)) (h'.met_vars hv)
  · rw [Env.met_detached h.free, Env.met_detached h'.free]
    exact Env.met_of_perm hl h.spelled (hp.map _)

theorem ParsedTogether.joined_regroup (h : context.ParsedTogether (xs ++ ys ++ zs)) (hl : context.limit ≤ 0) :
    context.env.Free (.union (xs ++ [context.env.joined ys] ++ zs)) ∧
      context.env.joined (xs ++ [context.env.joined ys] ++ zs) = context.env.joined (xs ++ ys ++ zs) := by
  have hx : context.ParsedTogether xs := h.of_subset (by simp)
  have hy : context.ParsedTogether ys := h.of_subset (by simp)
  have hz : context.ParsedTogether zs := h.of_subset (by simp)
  have hu : context.env.Free (context.env.joined ys) := .joined hy.free
  have hfree : ∀ t ∈ xs ++ [context.env.joined ys] ++ zs, context.env.Free t := by
    simpa only [List.forall_mem_append, List.forall_mem_singleton] using ⟨⟨hx.free, hu⟩, hz.free⟩
  have hf := Env.free_union.2 hfree
  have hscope : Ty.varsEach (xs ++ [context.env.joined ys] ++ zs) ⊆ Ty.varsEach (xs ++ ys ++ zs) := by
    refine Ty.varsEach_subset ?_
    simp only [List.forall_mem_append, List.forall_mem_singleton]
    have hmem {t : Ty} (ht : t ∈ xs ++ ys ++ zs) := Ty.vars_subset_of_mem ht
    refine ⟨⟨fun t ht ↦ hmem (by simp [ht]), fun v hv ↦ ?_⟩, fun t ht ↦ hmem (by simp [ht])⟩
    exact Ty.varsEach_subset (fun t ht ↦ hmem (by simp [ht])) (hy.joined_vars hv)
  refine ⟨hf, h.eq_of_detached (fun v hv ↦ hscope ((Env.joinTo_ample hf.founded).1.vars hv)) h.joined_vars ?_⟩
  rw [Env.joined_detached h.free, Env.joined_detached hfree]
  simp only [List.map_append, List.map_singleton, Env.joined_detached hy.free]
  exact Env.joined_regroup hl hx.spelled hy.spelled hz.spelled

/--
Without a limit on distribution, unions and intersections of types parsed together do not depend on the order
of the types, and a union may stand for its parts among those of another one.
-/
theorem join_meet_rearranged (hl : context.limit ≤ 0) :
    (∀ ts ts', context.ParsedTogether ts → ts.Perm ts' →
      (∃ u, (context.env.join ts).outcome = .ok u ∧ (context.env.join ts').outcome = .ok u) ∧
      ∃ m, (context.env.meet ts).outcome = .ok m ∧ (context.env.meet ts').outcome = .ok m) ∧
    ∀ xs ys zs, context.ParsedTogether (xs ++ ys ++ zs) →
      ∃ u w, (context.env.join ys).outcome = .ok u ∧
        (context.env.join (xs ++ [u] ++ zs)).outcome = .ok w ∧
        (context.env.join (xs ++ ys ++ zs)).outcome = .ok w := by
  constructor
  · intro ts ts' h hp
    have h' := h.of_subset hp.symm.subset
    refine ⟨⟨_, Env.join_eq (Env.free_union.2 h.free).founded, ?_⟩,
      _, Env.meet_eq (Env.free_inter.2 h.free).founded, ?_⟩
    · rw [h.joined_perm hl hp]
      exact Env.join_eq (Env.free_union.2 h'.free).founded
    · rw [h.met_perm hl hp]
      exact Env.meet_eq (Env.free_inter.2 h'.free).founded
  · intro xs ys zs h
    have hy : context.ParsedTogether ys := h.of_subset (by simp)
    obtain ⟨hfree, heq⟩ := h.joined_regroup hl
    refine ⟨_, _, Env.join_eq (Env.free_union.2 hy.free).founded, Env.join_eq hfree.founded, ?_⟩
    rw [heq]
    exact Env.join_eq (Env.free_union.2 h.free).founded

-- The intersection of the unions is distributed, and the inner union is made of its first part alone.
theorem join_meet_rearranged_two_unions :
    (∃ m, ((Env.mk [⟨"x", none⟩] 0).meet [.union [.atomic .number, .var ⟨"x", some 0⟩],
        .union [.atomic .boolean, .atomic .string]]).outcome = .ok m ∧
      ((Env.mk [⟨"x", none⟩] 0).meet [.union [.atomic .boolean, .atomic .string],
        .union [.atomic .number, .var ⟨"x", some 0⟩]]).outcome = .ok m) ∧
    ∃ u w, ((Env.mk [⟨"x", none⟩] 0).join [.union [.atomic .number, .var ⟨"x", some 0⟩],
        .atomic .number]).outcome = .ok u ∧
      ((Env.mk [⟨"x", none⟩] 0).join [.union [.atomic .boolean, .atomic .string], u]).outcome = .ok w ∧
      ((Env.mk [⟨"x", none⟩] 0).join [.union [.atomic .boolean, .atomic .string],
        .union [.atomic .number, .var ⟨"x", some 0⟩], .atomic .number]).outcome = .ok w := by
  have parsed : ParsedTogether { cells := [⟨"x", none⟩] } [.union [.atomic .boolean, .atomic .string],
      .union [.atomic .number, .var ⟨"x", some 0⟩], .atomic .number] :=
    ⟨by decide +kernel, {}, ["number", "(union x number)", "(union string boolean)"],
      [.atomic .number, .union [.atomic .number, .var ⟨"x", some 0⟩],
        .union [.atomic .boolean, .atomic .string]], rfl, by decide +kernel, by simp⟩
  obtain ⟨permuted, regrouped⟩ := @join_meet_rearranged { cells := [⟨"x", none⟩] } (by decide)
  refine ⟨?_, regrouped [_] [_, _] [] parsed⟩
  have hsub : [.union [.atomic .number, .var ⟨"x", some 0⟩], .union [.atomic .boolean, .atomic .string]] ⊆
      [Ty.union [.atomic .boolean, .atomic .string], .union [.atomic .number, .var ⟨"x", some 0⟩],
        .atomic .number] := by simp
  exact (permuted _ _ (parsed.of_subset hsub) (.swap _ _ [])).2

/-- Intersections of types parsed together may be regrouped unless distribution interferes. -/
theorem ParsedTogether.met_regroup (h : context.ParsedTogether (xs ++ ys)) (hl : context.limit ≤ 0)
    (hr : context.env.Undistributed ys ∨ context.env.Independent xs ys) :
    context.env.Free (.inter (xs ++ [context.env.met ys])) ∧
      context.env.met (xs ++ [context.env.met ys]) = context.env.met (xs ++ ys) := by
  have hx : context.ParsedTogether xs := h.of_subset (by simp)
  have hy : context.ParsedTogether ys := h.of_subset (by simp)
  have hm : context.env.Free (context.env.met ys) := .met hy.free
  have hfree : ∀ t ∈ xs ++ [context.env.met ys], context.env.Free t := by
    simpa only [List.forall_mem_append, List.forall_mem_singleton] using ⟨hx.free, hm⟩
  have hf := Env.free_inter.2 hfree
  have hscope : Ty.varsEach (xs ++ [context.env.met ys]) ⊆ Ty.varsEach (xs ++ ys) := by
    refine Ty.varsEach_subset ?_
    simp only [List.forall_mem_append, List.forall_mem_singleton]
    refine ⟨fun t ht ↦ Ty.vars_subset_of_mem (by simp [ht]), fun v hv ↦ ?_⟩
    exact Ty.varsEach_subset (fun t ht ↦ Ty.vars_subset_of_mem (by simp [ht])) (hy.met_vars hv)
  refine ⟨hf, h.eq_of_detached (fun v hv ↦ hscope ((Env.meetTo_ample hf.founded).1.vars hv)) h.met_vars ?_⟩
  rw [Env.met_detached h.free, Env.met_detached hfree]
  simp only [List.map_append, List.map_singleton, Env.met_detached hy.free]
  by_cases hd : (Env.vacant context.env.limit).Undistributed (ys.map Ty.detached)
  · exact Env.met_regroup hl hx.spelled hy.spelled hd
  · refine Env.met_regroup_independent hl hx.spelled hy.spelled hd ?_
    rcases hr with hr | hr
    · exact absurd (Env.Undistributed.detached hy.free hr) hd
    · exact hr.detached hx.free hy.free

/--
Without a limit on distribution, an intersection of types parsed together may stand for its parts among those
of another one, as long as nothing is distributed in it or it is independent of the other parts.
-/
theorem meet_regrouped (hl : context.limit ≤ 0) (h : context.ParsedTogether (xs ++ ys))
    (hr : context.env.Undistributed ys ∨ context.env.Independent xs ys) :
    ∃ m r r', (context.env.meet ys).outcome = .ok m ∧
      (context.env.meet (xs ++ [m])).outcome = .ok r ∧ (context.env.meet (xs ++ ys)).outcome = .ok r' ∧
      r = r' ∧ context.env.equal r r' = .ok true := by
  have hy : context.ParsedTogether ys := h.of_subset (by simp)
  obtain ⟨hfree, heq⟩ := h.met_regroup hl hr
  have hm : context.env.Free (context.env.met (xs ++ ys)) := .met h.free
  refine ⟨_, _, _, Env.meet_eq (Env.free_inter.2 hy.free).founded, Env.meet_eq hfree.founded,
    Env.meet_eq (Env.free_inter.2 h.free).founded, heq, ?_⟩
  rw [heq]
  exact Env.equal_eq_true hm hm rfl

-- The inner intersection is distributed into two alternatives, and one shares `number` with the outer part.
theorem meet_regrouped_shared_number :
    ∃ m r r', ((Env.mk [⟨"x", none⟩] 0).meet [.union [.atomic .boolean, .atomic .number],
        .var ⟨"x", some 0⟩]).outcome = .ok m ∧
      ((Env.mk [⟨"x", none⟩] 0).meet [.union [.atomic .number, .atomic .string], m]).outcome = .ok r ∧
      ((Env.mk [⟨"x", none⟩] 0).meet [.union [.atomic .number, .atomic .string],
        .union [.atomic .boolean, .atomic .number], .var ⟨"x", some 0⟩]).outcome = .ok r' ∧
      r = r' ∧ (Env.mk [⟨"x", none⟩] 0).equal r r' = .ok true := by
  have parsed : ParsedTogether { cells := [⟨"x", none⟩] } ([.union [.atomic .number, .atomic .string]] ++
      [.union [.atomic .boolean, .atomic .number], .var ⟨"x", some 0⟩]) :=
    ⟨by decide +kernel, {}, ["(union number string)", "(union number boolean)", "x"],
      [.union [.atomic .number, .atomic .string], .union [.atomic .boolean, .atomic .number],
        .var ⟨"x", some 0⟩], rfl, by decide +kernel, by simp⟩
  have independent : (Env.mk [⟨"x", none⟩] 0).Independent [.union [.atomic .number, .atomic .string]]
      [.union [.atomic .boolean, .atomic .number], .var ⟨"x", some 0⟩] := by
    constructor <;> unfold Apart <;> decide +kernel
  obtain ⟨m, r, r', hm, hr⟩ :=
    @meet_regrouped { cells := [⟨"x", none⟩] } _ _ (by decide) parsed (.inr independent)
  exact ⟨m, r, r', hm, hr⟩

/--
Where the inner intersection is distributed first, `number` is a subtype of the result and takes its place; in
one step `number` only takes the place of the union, and `boolean` remains.
-/
theorem meet_regrouped_after_distribution :
    ¬∀ (context : Context) (xs ys : List Ty), context.limit ≤ 0 → context.ParsedTogether (xs ++ ys) →
      ∃ m r r', (context.env.meet ys).outcome = .ok m ∧
        (context.env.meet (xs ++ [m])).outcome = .ok r ∧ (context.env.meet (xs ++ ys)).outcome = .ok r' ∧
        context.env.equal r r' = .ok true := by
  intro h
  obtain ⟨m, r, r', hm, hr, hr', he⟩ := h {} [.atomic .number]
    [.union [.atomic .number, .atomic .string], .atomic .boolean] (by decide)
    ⟨by decide +kernel, {}, ["number", "(union number string)", "boolean"],
      [.atomic .number, .union [.atomic .number, .atomic .string], .atomic .boolean], rfl, by decide +kernel,
      by simp⟩
  have hm' : (Env.meet {} [.union [.atomic .number, .atomic .string], .atomic .boolean]).outcome =
      .ok (.union [.inter [.atomic .boolean, .atomic .number],
        .inter [.atomic .boolean, .atomic .string]]) := by decide +kernel
  obtain rfl := Except.ok.inj (hm'.symm.trans hm)
  have hleft : (Env.meet {} [.atomic .number, .union [.inter [.atomic .boolean, .atomic .number],
      .inter [.atomic .boolean, .atomic .string]]]).outcome = .ok (.atomic .number) := by
    decide +kernel
  have hright : (Env.meet {} [.atomic .number, .union [.atomic .number, .atomic .string],
      .atomic .boolean]).outcome = .ok (.inter [.atomic .boolean, .atomic .number]) := by
    decide +kernel
  obtain rfl := Except.ok.inj (hleft.symm.trans hr)
  obtain rfl := Except.ok.inj (hright.symm.trans hr')
  revert he
  decide +kernel

end Context

end TypeAlgebra
