import TypeAlgebra.Proofs.Comparison

namespace TypeAlgebra

variable {α β : Type} {redundant : α → α → Run Bool} {R : α → α → Bool} {as bs : List α}

/-- A test that comes out as a transitive relation on these elements. -/
structure Redundancy (redundant : α → α → Run Bool) (R : α → α → Bool) (as : List α) : Prop where
  decides : ∀ a ∈ as, ∀ b ∈ as, (redundant a b).outcome = .ok (R a b)
  transitive : TransitiveOn R as

theorem TransitiveOn.of_subset (h : TransitiveOn R as) (hs : bs ⊆ as) : TransitiveOn R bs :=
  fun a ha b hb c hc ↦ h a (hs ha) b (hs hb) c (hs hc)

theorem Redundancy.of_subset (h : Redundancy redundant R as) (hs : bs ⊆ as) : Redundancy redundant R bs where
  decides a ha b hb := h.decides a (hs ha) b (hs hb)
  transitive := h.transitive.of_subset hs

theorem Redundancy.prune_eq (h : Redundancy redundant R as) : (prune redundant as).outcome = .ok (pruned R as) :=
  Env.prune_decided h.decides

/-- Pruning looks at the elements through the relation only. -/
theorem pruned_map (R : α → α → Bool) (f : β → α) (bs : List β) :
    pruned R (bs.map f) = (pruned (fun a b ↦ R (f a) (f b)) bs).map f := by
  have hrel : List.Forall₂ (fun a b ↦ a = f b) (pruned R (bs.map f)) (pruned (fun a b ↦ R (f a) (f b)) bs) :=
    Coupling.plain.rel_prune (by rintro _ a _ b rfl rfl; rfl) (by simp)
  exact List.forall₂_eq_eq_eq ▸ List.forall₂_map_right_iff.2 hrel

def keptAt (R : α → α → Bool) (as : List α) : List (α × Nat) :=
  pruned (fun p q ↦ R p.1 q.1) as.zipIdx

theorem map_keptAt (R : α → α → Bool) (as : List α) : (keptAt R as).map Prod.fst = pruned R as := by
  rw [keptAt, ← pruned_map, List.zipIdx_map_fst]

theorem keptAt_cover (ht : TransitiveOn R as) :
    ∀ p ∈ as.zipIdx, p ∈ keptAt R as ∨ ∃ k ∈ keptAt R as, R p.1 k.1 = true := by
  refine pruned_cover_or_mem _ fun p hp q hq r hr ↦ ?_
  exact ht p.1 (List.fst_mem_of_mem_zipIdx hp) q.1 (List.fst_mem_of_mem_zipIdx hq) r.1
    (List.fst_mem_of_mem_zipIdx hr)

section Order

theorem eq_of_mem_pruned {k k' : α} (hk : k ∈ pruned R as) (hk' : k' ∈ pruned R as) (h : R k k' = true) : k = k' := by
  by_contra hne
  have hapart := (pruned_apart R as).forall hk hk' hne
  simp [hapart.1] at h

theorem nodup_pruned (hr : ∀ a ∈ as, R a a = true) : (pruned R as).Nodup := by
  refine (pruned_apart R as).imp_of_mem fun {k k'} hk _ hapart he ↦ ?_
  subst he
  have hself := hr k ((pruned_sublist R as).subset hk)
  simp [hapart.1] at hself

variable (hr : ∀ a ∈ as, R a a = true) (ht : TransitiveOn R as) (hp : bs.Perm as)

include hr ht hp

/-- What is kept in one order is redundant with something kept in another order, and that with it in turn. -/
theorem exists_mutual {k : α} (hk : k ∈ pruned R as) : ∃ k' ∈ pruned R bs, R k k' = true ∧ R k' k = true := by
  have hsub {k : α} (h : k ∈ pruned R bs) : k ∈ as := hp.subset ((pruned_sublist R bs).subset h)
  have hka := (pruned_sublist R as).subset hk
  obtain ⟨k', hk', hkk'⟩ := pruned_cover R bs (fun b hb ↦ hr b (hp.subset hb)) (ht.of_subset hp.subset) k
    (hp.symm.subset hka)
  obtain ⟨k'', hk'', hk'k''⟩ := pruned_cover R as hr ht k' (hsub hk')
  have hkk'' := ht k hka k' (hsub hk') k'' ((pruned_sublist R as).subset hk'') hkk' hk'k''
  obtain rfl := eq_of_mem_pruned hk hk'' hkk''
  exact ⟨k', hk', hkk', hk'k''⟩

/-- In another order the same elements are kept, up to what is redundant with each other. -/
theorem pruned_of_perm : ∃ others, others.Perm (pruned R bs) ∧
    List.Forall₂ (fun k k' ↦ k ∈ as ∧ k' ∈ as ∧ R k k' = true ∧ R k' k = true) (pruned R as) others := by
  have hsub {k : α} (h : k ∈ pruned R bs) : k ∈ as := hp.subset ((pruned_sublist R bs).subset h)
  have hrb : ∀ b ∈ bs, R b b = true := fun b hb ↦ hr b (hp.subset hb)
  choose! mate hmem hto hfrom using fun k (hk : k ∈ pruned R as) ↦ exists_mutual hr ht hp hk
  refine ⟨(pruned R as).map mate, ?_, ?_⟩
  · have hinj : ((pruned R as).map mate).Nodup := by
      refine (nodup_pruned hr).map_on fun k hk k' hk' he ↦ ?_
      have hk'a := (pruned_sublist R as).subset hk'
      apply eq_of_mem_pruned hk hk'
      exact ht k ((pruned_sublist R as).subset hk) (mate k) (hsub (hmem k hk)) k' hk'a (hto k hk)
        (he ▸ hfrom k' hk')
    refine (List.perm_ext_iff_of_nodup hinj (nodup_pruned hrb)).2 fun b ↦ ?_
    rw [List.mem_map]
    constructor
    · rintro ⟨k, hk, rfl⟩
      exact hmem k hk
    · intro hb
      obtain ⟨k, hk, hbk, -⟩ := exists_mutual hrb (ht.of_subset hp.subset) hp.symm hb
      refine ⟨k, hk, (eq_of_mem_pruned hb (hmem k hk) ?_).symm⟩
      exact ht b (hsub hb) k ((pruned_sublist R as).subset hk) (mate k) (hsub (hmem k hk)) hbk (hto k hk)
  · rw [List.forall₂_map_right_iff, List.forall₂_same]
    exact fun k hk ↦ ⟨(pruned_sublist R as).subset hk, hsub (hmem k hk), hto k hk, hfrom k hk⟩

end Order

namespace Env

variable {env : Env} {s t : Ty} {ts : List Ty}

theorem Legible.below_iff (hs : env.Legible s) (ht : env.Legible t) :
    env.below s t = true ↔ Below env.limit s.detached t.detached := by
  rw [below_detached hs.free ht.free, Below]

theorem transitiveOn_below (h : ∀ t ∈ ts, env.Legible t) : TransitiveOn env.below ts := by
  intro a ha b hb c hc hab hbc
  rw [(h a ha).below_iff (h b hb)] at hab
  rw [(h b hb).below_iff (h c hc)] at hbc
  rw [(h a ha).below_iff (h c hc)]
  exact below_trans (h a ha).spelled.normal (h b hb).spelled.normal (h c hc).spelled.normal hab hbc

/-- The test by which a union of canonical types is pruned. -/
theorem union_redundancy (h : ∀ t ∈ ts, env.Legible t) :
    ∃ d, env.depth ts = d + 1 ∧
      Redundancy (env.subtypeTo d) env.below ((Ty.alternativesEach ts).filter (!·.isNever)) := by
  have hfounded : env.Founded (.union ts) := founded_union.2 fun t ht ↦ (h t ht).free.founded
  have hdepth := ample_union_le_depth env ts
  have hample := ample_ge (env.rank (.union ts))
  obtain ⟨d, hd⟩ : ∃ d, env.depth ts = d + 1 := ⟨env.depth ts - 1, by omega⟩
  refine ⟨d, hd, fun a ha b hb ↦ ?_, transitiveOn_below fun t ht ↦ ?_⟩
  · obtain ⟨ha, hra⟩ := alternative_spec hfounded (List.mem_filter.1 ha).1
    obtain ⟨hb, hrb⟩ := alternative_spec hfounded (List.mem_filter.1 hb).1
    have hneed := need_lt_of_lt hra hrb
    exact (decided ha hb (by omega)).subtype
  · exact alternativesEach_of_child Legible.child h t (List.mem_filter.1 ht).1

/-- The test by which an intersection of canonical types is pruned. -/
theorem inter_redundancy (h : ∀ t ∈ ts, env.Legible t) :
    ∃ d, env.depth ts = d + 1 ∧
      Redundancy (fun s t ↦ env.subtypeTo d t s) (fun s t ↦ env.below t s) (meetFactors ts) := by
  have hfounded : env.Founded (.inter ts) := founded_inter.2 fun t ht ↦ (h t ht).free.founded
  have hdepth := ample_inter_le_depth env ts
  have hample := ample_ge (env.rank (.inter ts))
  have hlegible : ∀ t ∈ meetFactors ts, env.Legible t :=
    fun t ht ↦ factorsEach_of_child Legible.child h t (List.mem_filter.1 ht).1
  obtain ⟨d, hd⟩ : ∃ d, env.depth ts = d + 1 := ⟨env.depth ts - 1, by omega⟩
  refine ⟨d, hd, fun a ha b hb ↦ ?_, fun a ha b hb c hc hba hcb ↦ ?_⟩
  · obtain ⟨ha, hra⟩ := factor_spec hfounded (List.mem_filter.1 ha).1
    obtain ⟨hb, hrb⟩ := factor_spec hfounded (List.mem_filter.1 hb).1
    have hneed := need_lt_of_lt hrb hra
    exact (decided hb ha (by omega)).subtype
  · exact transitiveOn_below hlegible c hc b hb a ha hcb hba

end Env

/--
Pruning keeps elements at some positions, in order, and no two of them are redundant with each other in either
direction; every element stands at such a position or is redundant with a kept one. If elements are redundant with
themselves, and only with equal ones in both directions, then up to equality the same elements are kept in any order.
-/
theorem prune_covering_antichain (h : Redundancy redundant R as) :
    ∃ kept : List (α × Nat), (prune redundant as).outcome = .ok (kept.map Prod.fst) ∧
      kept.Sublist as.zipIdx ∧
      (kept.Pairwise fun p q ↦ R p.1 q.1 = false ∧ R q.1 p.1 = false) ∧
      (∀ p ∈ as.zipIdx, p ∈ kept ∨ ∃ k ∈ kept, R p.1 k.1 = true) ∧
      ∀ same : α → α → Prop, (∀ a ∈ as, R a a = true) →
        (∀ a ∈ as, ∀ b ∈ as, R a b = true → R b a = true → same a b) →
        ∀ bs : List α, bs.Perm as → ∃ others, (prune redundant bs).outcome = .ok others ∧
          ∃ rearranged, rearranged.Perm others ∧ List.Forall₂ same (kept.map Prod.fst) rearranged := by
  refine ⟨keptAt R as, ?_, pruned_sublist _ _, pruned_apart _ _, keptAt_cover h.transitive, ?_⟩
  · rw [map_keptAt, h.prune_eq]
  · intro same hr hsame bs hp
    obtain ⟨others, hperm, hpairs⟩ := pruned_of_perm hr h.transitive hp
    refine ⟨_, (h.of_subset hp.subset).prune_eq, others, hperm, ?_⟩
    rw [map_keptAt]
    exact hpairs.imp fun k k' ⟨hk, hk', hto, hfrom⟩ ↦ hsame k hk k' hk' hto hfrom

def loneVariable : Env :=
  ⟨[⟨"x", none⟩], 0⟩

-- In a union of `number`, `x` and `(union number string)` the first `number` is dropped for the second one, and in an
-- intersection of them the union is dropped for `number`.
theorem prune_covering_antichain_three_types :
    (∃ d, loneVariable.depth [.atomic .number, .var ⟨"x", some 0⟩, .union [.atomic .number, .atomic .string]] = d + 1 ∧
      ∃ kept : List (Ty × Nat), (prune (loneVariable.subtypeTo d)
          [.atomic .number, .var ⟨"x", some 0⟩, .atomic .number, .atomic .string]).outcome = .ok (kept.map Prod.fst) ∧
        ((.atomic .number, 0) ∈ kept ∨ ∃ k ∈ kept, loneVariable.below (.atomic .number) k.1 = true) ∧
        ∃ others, (prune (loneVariable.subtypeTo d)
            [.atomic .string, .atomic .number, .var ⟨"x", some 0⟩, .atomic .number]).outcome = .ok others ∧
          ∃ rearranged, rearranged.Perm others ∧
            List.Forall₂ (fun s t ↦ loneVariable.equal s t = .ok true) (kept.map Prod.fst) rearranged) ∧
    ∃ d, loneVariable.depth [.atomic .number, .var ⟨"x", some 0⟩, .union [.atomic .number, .atomic .string]] = d + 1 ∧
      ∃ kept : List (Ty × Nat), (prune (fun s t ↦ loneVariable.subtypeTo d t s)
          [.atomic .number, .var ⟨"x", some 0⟩, .union [.atomic .number, .atomic .string]]).outcome =
            .ok (kept.map Prod.fst) ∧
        kept.Pairwise fun p q ↦ loneVariable.below q.1 p.1 = false ∧ loneVariable.below p.1 q.1 = false := by
  have legible : ∀ t ∈ [Ty.atomic .number, .var ⟨"x", some 0⟩, .union [.atomic .number, .atomic .string]],
      loneVariable.Legible t := by
    intro t ht
    have parsed : Context.Parsed { cells := [⟨"x", none⟩] } t := ⟨by revert t; decide +kernel, {}, rfl,
      .inr ⟨["number", "x", "(union number string)"], _, by decide +kernel, ht⟩⟩
    exact parsed.legible
  constructor
  · obtain ⟨d, hd, hred⟩ := Env.union_redundancy legible
    obtain ⟨kept, hkept, -, -, hcover, horder⟩ := prune_covering_antichain hred
    obtain ⟨others, hothers, hsame⟩ := horder (fun s t ↦ loneVariable.equal s t = .ok true) (by decide +kernel)
      (by decide +kernel) [.atomic .string, .atomic .number, .var ⟨"x", some 0⟩, .atomic .number] (by decide +kernel)
    exact ⟨d, hd, kept, hkept, hcover (.atomic .number, 0) (by decide +kernel), others, hothers, hsame⟩
  · obtain ⟨d, hd, hred⟩ := Env.inter_redundancy legible
    obtain ⟨kept, hkept, -, hapart, -⟩ := prune_covering_antichain hred
    exact ⟨d, hd, kept, hkept, hapart⟩

end TypeAlgebra
