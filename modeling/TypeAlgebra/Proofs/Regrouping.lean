import TypeAlgebra.Proofs.Distribution

namespace TypeAlgebra

namespace Ty

def leaves (t : Ty) : List Ty :=
  t.alternatives.flatMap factors

theorem mem_leaves {a t : Ty} : a ∈ t.leaves ↔ ∃ p ∈ t.alternatives, a ∈ p.factors :=
  List.mem_flatMap

/-- The only tuple that can be written is the empty one. -/
theorem Readable.eq_empty {t : Ty} (h : t.Readable) (ht : t.isTuple = true) : t = empty := by
  cases t <;> first | rfl | exact absurd h.writable id | cases ht

theorem ofFactors_factors {parts : List Ty} (h : ∀ p ∈ parts, p.isInter = false ∧ p.isAny = false) :
    (ofFactors parts).factors.filter (!·.isAny) = parts := by
  have hkeep : parts.filter (!·.isAny) = parts :=
    List.filter_eq_self.2 fun p hp ↦ by rw [(h p hp).2]; rfl
  unfold ofFactors
  split
  · rfl
  · next p => rwa [factors_of_not_inter (h p List.mem_cons_self).1]
  · rwa [factors, factorsEach_of_not_inter fun p hp ↦ (h p hp).1]

end Ty

namespace Env

variable {limit : Int64} {p s t : Ty} {ss ts xs ys parts parts' as bs cs : List Ty}

theorem mem_meetParts_iff (hl : limit ≤ 0) (ht : ∀ t ∈ ts, Spelled limit t) :
    p ∈ (vacant limit).meetParts ts ↔ p ∈ meetFactors ts ∧ ∀ q ∈ meetFactors ts, Below limit q p → q = p := by
  have hf := meetFactors_of_child Spelled.child ht
  have hn : ∀ q ∈ meetFactors ts, Normal limit q := fun q hq ↦ (hf q hq).normal
  have hsift := meetParts_sifted fun t hm ↦ (ht t hm).normal.settled.sound
  constructor
  · intro hp
    have hpf := mem_meetParts hp
    refine ⟨hpf, fun q hq hqp ↦ ?_⟩
    obtain ⟨k, hk, hkq⟩ := meetParts_cover hn q hq
    have hkp := below_trans (hn k (mem_meetParts hk)) (hn q hq) (hn p hpf) hkq hqp
    obtain rfl := hsift.eq_of_below hk hp hkp
    exact below_antisymm hl (hf q hq) (hf k hpf) hqp hkq
  · rintro ⟨hp, hmin⟩
    obtain ⟨k, hk, hkp⟩ := meetParts_cover hn p hp
    rwa [← hmin k (mem_meetParts hk) hkp]

theorem meetParts_nodup (ht : ∀ t ∈ ts, Spelled limit t) : ((vacant limit).meetParts ts).Nodup :=
  Sifted.nodup (fun _ hp ↦ (meetFactors_of_child Spelled.child ht _ (mem_meetParts hp)).normal)
    (meetParts_sifted fun t hm ↦ (ht t hm).normal.settled.sound)

/-- What is left of two intersections together is left of one of them. -/
theorem mem_meetParts_or (hl : limit ≤ 0) (hst : ∀ t ∈ ss ++ ts, Spelled limit t)
    (hp : p ∈ (vacant limit).meetParts (ss ++ ts)) :
    p ∈ (vacant limit).meetParts ss ∨ p ∈ (vacant limit).meetParts ts := by
  obtain ⟨hs, ht⟩ := List.forall_mem_append.1 hst
  obtain ⟨hp, hmin⟩ := (mem_meetParts_iff hl hst).1 hp
  rcases mem_meetFactors_append.1 hp with hp | hp
  · exact .inl ((mem_meetParts_iff hl hs).2 ⟨hp, fun q hq ↦ hmin q (mem_meetFactors_append.2 (.inl hq))⟩)
  · exact .inr ((mem_meetParts_iff hl ht).2 ⟨hp, fun q hq ↦ hmin q (mem_meetFactors_append.2 (.inr hq))⟩)

/-- A factor below a type is above a part that is left, and this decides whether they are the same. -/
theorem eq_of_factor_below (hl : limit ≤ 0) (ht : ∀ t ∈ ts, Spelled limit t) (hp : Spelled limit p)
    (h : ∀ k ∈ (vacant limit).meetParts ts, Below limit k p → k = p) :
    ∀ q ∈ meetFactors ts, Below limit q p → q = p := by
  intro q hq hqp
  have hts := meetFactors_of_child Spelled.child ht
  obtain ⟨k, hk, hkq⟩ := meetParts_cover (fun q hq ↦ (hts q hq).normal) q hq
  have hkn := (hts k (mem_meetParts hk)).normal
  obtain rfl := h k hk (below_trans hkn (hts q hq).normal hp.normal hkq hqp)
  exact below_antisymm hl (hts q hq) hp hqp hkq

/-- What is left of two intersections together, if their parts are related only where they are the same. -/
theorem mem_meetParts_append (hl : limit ≤ 0) (hs : ∀ t ∈ ss, Spelled limit t)
    (ht : ∀ t ∈ ts, Spelled limit t)
    (h : ∀ p ∈ (vacant limit).meetParts ss, ∀ q ∈ (vacant limit).meetParts ts,
      p = q ∨ Apart (vacant limit).below p q) :
    p ∈ (vacant limit).meetParts (ss ++ ts) ↔
      p ∈ (vacant limit).meetParts ss ∨ p ∈ (vacant limit).meetParts ts := by
  have hst : ∀ t ∈ ss ++ ts, Spelled limit t := List.forall_mem_append.2 ⟨hs, ht⟩
  refine ⟨mem_meetParts_or hl hst, ?_⟩
  rw [mem_meetParts_iff hl hst]
  rintro (hp | hp)
  · have hps := meetFactors_of_child Spelled.child hs p (mem_meetParts hp)
    refine ⟨mem_meetFactors_append.2 (.inl (mem_meetParts hp)), fun q hq ↦ ?_⟩
    rcases mem_meetFactors_append.1 hq with hq | hq
    · exact ((mem_meetParts_iff hl hs).1 hp).2 q hq
    · refine eq_of_factor_below hl ht hps (fun k hk hkp ↦ ?_) q hq
      exact ((h p hp k hk).resolve_right fun ha ↦ nomatch ha.2.symm.trans hkp).symm
  · have hps := meetFactors_of_child Spelled.child ht p (mem_meetParts hp)
    refine ⟨mem_meetFactors_append.2 (.inr (mem_meetParts hp)), fun q hq ↦ ?_⟩
    rcases mem_meetFactors_append.1 hq with hq | hq
    · refine eq_of_factor_below hl hs hps (fun k hk hkp ↦ ?_) q hq
      exact (h k hk p hp).resolve_right fun ha ↦ nomatch ha.1.symm.trans hkp
    · exact ((mem_meetParts_iff hl ht).1 hp).2 q hq

theorem meetParts_append (hl : limit ≤ 0) (hs : ∀ t ∈ ss, Spelled limit t) (ht : ∀ t ∈ ts, Spelled limit t)
    (h : ∀ p ∈ (vacant limit).meetParts ss, ∀ q ∈ (vacant limit).meetParts ts,
      Apart (vacant limit).below p q) :
    ((vacant limit).meetParts (ss ++ ts)).Perm
      ((vacant limit).meetParts ss ++ (vacant limit).meetParts ts) := by
  have hst : ∀ t ∈ ss ++ ts, Spelled limit t := List.forall_mem_append.2 ⟨hs, ht⟩
  refine (List.perm_ext_iff_of_nodup (meetParts_nodup hst) ?_).2 fun p ↦ ?_
  · refine List.nodup_append.2 ⟨meetParts_nodup hs, meetParts_nodup ht, fun p hp q hq ↦ ?_⟩
    rintro rfl
    have hpn := (meetFactors_of_child Spelled.child hs p (mem_meetParts hp)).normal
    cases (h p hp p hq).1.symm.trans (below_refl hpn)
  · rw [List.mem_append]
    exact mem_meetParts_append hl hs ht fun p hp q hq ↦ .inr (h p hp q hq)

/-- Parts of an intersection may be replaced by parts that cover them and that they cover. -/
theorem met_append_of_cover (hl : limit ≤ 0) (hx : ∀ t ∈ xs, Spelled limit t) (hs : ∀ t ∈ ss, Spelled limit t)
    (ht : ∀ t ∈ ts, Spelled limit t) (hst : ∀ p ∈ meetFactors ss, ∃ q ∈ meetFactors ts, Below limit q p)
    (hts : ∀ q ∈ meetFactors ts, ∃ p ∈ meetFactors ss, Below limit p q) :
    (vacant limit).met (xs ++ ss) = (vacant limit).met (xs ++ ts) := by
  have hfx := meetFactors_of_child Spelled.child hx
  refine met_of_cover hl (List.forall_mem_append.2 ⟨hx, hs⟩) (List.forall_mem_append.2 ⟨hx, ht⟩)
    (fun p hp ↦ ?_) fun q hq ↦ ?_
  · simp only [mem_meetFactors_append] at hp ⊢
    rcases hp with hp | hp
    · exact ⟨p, .inl hp, below_refl (hfx p hp).normal⟩
    · obtain ⟨q, hq, hqp⟩ := hst p hp
      exact ⟨q, .inr hq, hqp⟩
  · simp only [mem_meetFactors_append] at hq ⊢
    rcases hq with hq | hq
    · exact ⟨q, .inl hq, below_refl (hfx q hq).normal⟩
    · obtain ⟨p, hp, hpq⟩ := hts q hq
      exact ⟨p, .inr hp, hpq⟩

/-- What is left of the parts of an intersection may stand for all of them. -/
theorem met_append_meetParts (hl : limit ≤ 0) (hx : ∀ t ∈ xs, Spelled limit t)
    (hy : ∀ t ∈ ys, Spelled limit t) (h : meetFactors ss = (vacant limit).meetParts ys)
    (hs : ∀ t ∈ ss, Spelled limit t) :
    (vacant limit).met (xs ++ ss) = (vacant limit).met (xs ++ ys) := by
  have hfy := meetFactors_of_child Spelled.child hy
  refine met_append_of_cover hl hx hs hy (fun p hp ↦ ?_) fun q hq ↦ ?_
  · rw [h] at hp
    exact ⟨p, mem_meetParts hp, below_refl (hfy p (mem_meetParts hp)).normal⟩
  · rw [h]
    exact meetParts_cover (fun q hq ↦ (hfy q hq).normal) q hq

/-- An intersection that is not distributed may stand for its parts among those of another one. -/
theorem met_regroup (hl : limit ≤ 0) (hx : ∀ t ∈ xs, Spelled limit t) (hy : ∀ t ∈ ys, Spelled limit t)
    (h : (vacant limit).Undistributed ys) :
    (vacant limit).met (xs ++ [(vacant limit).met ys]) = (vacant limit).met (xs ++ ys) := by
  have hm : ∀ t ∈ [(vacant limit).met ys], Spelled limit t := List.forall_mem_singleton.2 (spelled_met hy)
  have hfy := meetFactors_of_child Spelled.child hy
  cases hn : (meetFactors ys).any Ty.isNever
  · refine met_append_meetParts hl hx hy ?_ hm
    rw [met_undistributed (fun t ht ↦ (hy t ht).normal) hn h, meetFactors, Ty.factorsEach, Ty.factorsEach,
      List.append_nil]
    refine Ty.ofFactors_factors fun p hp ↦ ?_
    obtain ⟨hi, ha, -⟩ := meetParts_plain _ hn hp
    exact ⟨hi, ha⟩
  · have hnever : meetFactors [(vacant limit).met ys] = [.never] := by
      rw [met_eq (free_inter.2 fun t hm ↦ (hy t hm).normal.free).founded, hn, if_pos rfl]
      rfl
    obtain ⟨q, hq, hqn⟩ := List.any_eq_true.1 hn
    rw [Ty.isNever_iff.1 hqn] at hq
    refine met_append_of_cover hl hx hm hy ?_ fun r hr ↦ ?_
    · rw [hnever]
      exact List.forall_mem_singleton.2 ⟨_, hq, below_refl (hfy _ hq).normal⟩
    · rw [hnever]
      exact ⟨_, List.mem_singleton_self _, never_below (hfy r hr).normal⟩

/-- A simple type is below an intersection of simple types if it is below one of them. -/
theorem below_ofFactors (hs : Normal limit s) (hu : s.isUnion = false) (hi : s.isInter = false)
    (htup : s.isTuple = false) (hp : Normal limit (Ty.ofFactors parts)) (h : ∃ p ∈ parts, Below limit s p) :
    Below limit s (Ty.ofFactors parts) := by
  match parts with
  | [] =>
    obtain ⟨p, hm, -⟩ := h
    cases hm
  | [p] =>
    obtain ⟨q, hq, hsq⟩ := h
    rwa [List.mem_singleton.1 hq] at hsq
  | p :: q :: parts => exact (below_inter hs hp hu hi).2 ⟨htup, h⟩

theorem ofFactors_below (hp : Normal limit (Ty.ofFactors parts)) (ht : Normal limit t)
    (hu : t.isUnion = false) (hne : parts ≠ []) (h : ∀ p ∈ parts, Below limit p t) :
    Below limit (Ty.ofFactors parts) t := by
  match parts with
  | [] => exact absurd rfl hne
  | [p] => exact h p List.mem_cons_self
  | p :: q :: parts => exact (inter_below hp ht hu).2 (.inr h)

theorem part_below_of_ofFactors (hp : Normal limit (Ty.ofFactors parts)) (ht : Normal limit t)
    (hu : t.isUnion = false) (hne : t ≠ Ty.ofFactors parts) (h : Below limit (Ty.ofFactors parts) t) :
    ∀ p ∈ parts, Below limit p t := by
  rcases parts with _ | ⟨p, _ | ⟨q, parts⟩⟩
  · intro p hp
    cases hp
  · exact List.forall_mem_singleton.2 h
  · exact ((inter_below hp ht hu).1 h).resolve_left hne

/-- If two different intersections are related, so are their parts. -/
theorem parts_below (ha : Spelled limit (Ty.ofFactors parts)) (hb : Spelled limit (Ty.ofFactors parts'))
    (hs : ∀ p ∈ parts, Spelled limit p) (hsift : (vacant limit).Sifted parts)
    (hsimple : ∀ p ∈ parts, p.isUnion = false ∧ p.isInter = false)
    (hplain : ∀ q ∈ parts', q.isUnion = false ∧ q.isAny = false) (hne' : parts' ≠ [])
    (hne : Ty.ofFactors parts' ≠ Ty.ofFactors parts)
    (h : Below limit (Ty.ofFactors parts) (Ty.ofFactors parts')) :
    ∀ p ∈ parts, p.isTuple = false ∧ ∃ q ∈ parts', Below limit p q := by
  intro p hp
  obtain ⟨hu, hi⟩ := hsimple p hp
  have hpn := (hs p hp).normal
  rcases parts' with _ | ⟨q, _ | ⟨r, rest⟩⟩
  · exact absurd rfl hne'
  · obtain ⟨huq, haq⟩ := hplain q List.mem_cons_self
    have each := part_below_of_ofFactors ha.normal hb.normal huq hne h
    refine ⟨Bool.eq_false_of_not_eq_true fun htup ↦ ?_, q, List.mem_cons_self, each p hp⟩
    -- Both are empty tuples then, and all other parts would be below this one.
    rcases isTuple_of_below hpn hb.normal htup (each p hp) with hany | hq
    · change q = .any at hany
      rw [hany] at haq
      cases haq
    · obtain rfl : q = .empty := hb.readable.eq_empty hq
      obtain rfl : p = .empty := (hs p hp).readable.eq_empty htup
      rcases parts with _ | ⟨r, _ | ⟨r', rest⟩⟩
      · cases hp
      · rw [List.mem_singleton.1 hp] at hne
        exact hne rfl
      · exact hsift.not_between (fun p hp ↦ (hs p hp).normal) (by simp) hb.normal each
          ⟨_, hp, below_refl hpn⟩
  · exact (below_inter hpn hb.normal hu hi).1 (part_below_of_ofFactors ha.normal hb.normal rfl hne h p hp)

/--
An intersection grows with some of its conjuncts, if the others are related to the larger ones only where they
are the same.
-/
theorem met_append_below (hl : limit ≤ 0) (ha : Conjuncts limit as) (hb : Conjuncts limit bs)
    (hc : Conjuncts limit cs)
    (hcross : ∀ p ∈ meetFactors as, ∀ q ∈ meetFactors cs, p = q ∨ Apart (vacant limit).below p q)
    (htup : ∀ p ∈ meetFactors as, p.isTuple = false) (hbne : meetFactors bs ≠ [])
    (hcne : meetFactors cs ≠ []) (h : Below limit ((vacant limit).met bs) ((vacant limit).met cs)) :
    Below limit ((vacant limit).met (as ++ bs)) ((vacant limit).met (as ++ cs)) := by
  have hab := spelled_met (ha.append hb).spelled
  have hac := spelled_met (ha.append hc).spelled
  by_cases he : (vacant limit).met cs = (vacant limit).met bs
  · rw [← met_regroup hl ha.spelled hb.spelled hb.undistributed, ← he,
      met_regroup hl ha.spelled hc.spelled hc.undistributed]
    exact below_refl hac.normal
  have hbm := spelled_met hb.spelled
  have hcm := spelled_met hc.spelled
  rw [hb.met_eq] at h he hbm
  rw [hc.met_eq] at h he hcm
  have hbs := meetFactors_of_child Spelled.child hb.spelled
  have hparts := parts_below hbm hcm (fun p hp ↦ hbs p (mem_meetParts hp))
    (meetParts_sifted fun t ht ↦ (hb.spelled t ht).normal.settled.sound)
    (fun p hp ↦ ⟨(hb.plain p (mem_meetParts hp)).1, (hb.plain p (mem_meetParts hp)).2.1⟩)
    (fun q hq ↦ ⟨(hc.plain q (mem_meetParts hq)).1, (mem_meetFactors.1 (mem_meetParts hq)).2⟩)
    (meetParts_ne_nil hc.spelled hcne) he h
  have mem_right {q : Ty} := mem_meetParts_append hl ha.spelled hc.spelled (p := q)
    fun p hp q hq ↦ hcross p (mem_meetParts hp) q (mem_meetParts hq)
  have hmem : ∀ p ∈ (vacant limit).meetParts (as ++ bs),
      p.isTuple = false ∧ ∃ q ∈ (vacant limit).meetParts (as ++ cs), Below limit p q := by
    intro p hp
    have hpn := (meetFactors_of_child Spelled.child (ha.append hb).spelled p (mem_meetParts hp)).normal
    rcases mem_meetParts_or hl (ha.append hb).spelled hp with hpa | hpb
    · exact ⟨htup p (mem_meetParts hpa), p, mem_right.2 (.inl hpa), below_refl hpn⟩
    · obtain ⟨ht, q, hq, hpq⟩ := hparts p hpb
      exact ⟨ht, q, mem_right.2 (.inr hq), hpq⟩
  have append_ne {ts : List Ty} (h : meetFactors ts ≠ []) : meetFactors (as ++ ts) ≠ [] := by
    obtain ⟨q, hq⟩ := List.exists_mem_of_ne_nil _ h
    exact List.ne_nil_of_mem (mem_meetFactors_append.2 (.inr hq))
  have hacu := ((ha.append hc).met_plain (append_ne hcne)).1
  have hab_ne := meetParts_ne_nil (ha.append hb).spelled (append_ne hbne)
  rw [(ha.append hb).met_eq] at hab ⊢
  rw [(ha.append hc).met_eq] at hac hacu ⊢
  refine ofFactors_below hab.normal hac.normal hacu hab_ne fun p hp ↦ ?_
  have hpf := mem_meetParts hp
  obtain ⟨hu, hi, -⟩ := (ha.append hb).plain p hpf
  have hpn := (meetFactors_of_child Spelled.child (ha.append hb).spelled p hpf).normal
  exact below_ofFactors hpn hu hi (hmem p hp).1 hac.normal (hmem p hp).2

theorem meetParts_singleton (hi : t.isInter = false) (ha : t.isAny = false) :
    (vacant limit).meetParts [t] = [t] := by
  have hfactors : meetFactors [t] = [t] := by
    rw [meetFactors, Ty.factorsEach_of_not_inter (List.forall_mem_singleton.2 hi)]
    simp [ha]
  rw [meetParts, hfactors, pruned_of_apart _ (List.pairwise_singleton _ t)]
  exact List.perm_singleton.1 (sortedBy_perm _ [t])

theorem met_singleton (ht : Normal limit t) (hn : t.isNever = false) : (vacant limit).met [t] = t := by
  have heq := @met_eq (vacant limit) [t] (free_inter.2 (List.forall_mem_singleton.2 ht.free)).founded
  cases hi : t.isInter
  · have hfactors : meetFactors [t] = [t].filter (!·.isAny) := by
      rw [meetFactors, Ty.factorsEach_of_not_inter (List.forall_mem_singleton.2 hi)]
    cases ha : t.isAny
    · rw [heq, hfactors, meetParts_singleton hi ha]
      simp [ha, hn, Ty.ofFactors, spread_of_not_inter _ hi]
    · obtain rfl := Ty.isAny_iff.1 ha
      have hnil : (vacant limit).meetParts [.any] = [] :=
        List.eq_nil_iff_forall_not_mem.2 fun p hp ↦ List.not_mem_nil (mem_meetParts hp)
      rw [heq, hnil]
      exact spread_of_not_inter _ rfl
  · cases t <;> cases hi
    next parts =>
    have hp : ∀ p ∈ parts, (vacant limit).Sound p := fun p hp ↦ (ht.child hp).settled.sound
    have hflat : meetFactors [.inter parts] = meetFactors parts :=
      congrArg (List.filter _) (List.append_nil _)
    rw [heq, hflat, meetParts, hflat, ← meetParts, ← met_eq ht.free.founded,
      met_of_interParts hp ht.canonical.interParts]

theorem picks_iff_eq (h : ∀ p ∈ parts, p.isUnion = false) : Picks cs parts ↔ cs = parts := by
  have hmem : ∀ p ∈ parts, ∀ c, c ∈ p.alternatives ↔ c = p := fun p hp c ↦ by
    rw [Ty.alternatives_of_not_union (h p hp), List.mem_singleton]
  rw [← List.forall₂_eq_eq_eq (α := Ty)]
  induction parts generalizing cs with
  | nil => simp [Picks]
  | cons p parts ih =>
    obtain ⟨hp, hparts⟩ := List.forall_mem_cons.1 hmem
    have rest (cs : List Ty) : Picks cs parts ↔ List.Forall₂ Eq cs parts :=
      ih (List.forall_mem_cons.1 h).2 hparts
    simp only [Picks] at rest ⊢
    simp only [List.forall₂_cons_right_iff, hp, rest]

/-- The choices from what is left of a single type stand for its alternatives. -/
theorem picks_singleton (hl : limit ≤ 0) (ht : Spelled limit t) (hn : t.isNever = false) :
    (∀ cs, Picks cs ((vacant limit).meetParts [t]) → ∃ u ∈ t.alternatives, ∀ as, (∀ a ∈ as, Spelled limit a) →
      (vacant limit).met (as ++ cs) = (vacant limit).met (as ++ [u])) ∧
    ∀ u ∈ t.alternatives, ∃ cs, Picks cs ((vacant limit).meetParts [t]) ∧
      ∀ as, (∀ a ∈ as, Spelled limit a) → (vacant limit).met (as ++ cs) = (vacant limit).met (as ++ [u]) := by
  have hts : ∀ s ∈ [t], Spelled limit s := List.forall_mem_singleton.2 ht
  cases hu : t.isUnion
  · have hsimple : ∀ p ∈ (vacant limit).meetParts [t], p.isUnion = false ∧ p.isInter = false := by
      intro p hp
      obtain ⟨s, hs, hps⟩ := Ty.mem_factorsEach.1 (mem_meetFactors.1 (mem_meetParts hp)).1
      obtain rfl := List.mem_singleton.1 hs
      obtain ⟨hpu, hpi, -⟩ := factor_plain hl ht.normal hu hn hps
      exact ⟨hpu, hpi⟩
    have hparts : meetFactors ((vacant limit).meetParts [t]) = (vacant limit).meetParts [t] := by
      rw [meetFactors, Ty.factorsEach_of_not_inter fun p hp ↦ (hsimple p hp).2, List.filter_eq_self]
      exact fun p hp ↦ by rw [(mem_meetFactors.1 (mem_meetParts hp)).2]; rfl
    have hspelled : ∀ p ∈ (vacant limit).meetParts [t], Spelled limit p :=
      fun p hp ↦ meetFactors_of_child Spelled.child hts p (mem_meetParts hp)
    have heq (as : List Ty) (ha : ∀ a ∈ as, Spelled limit a) :=
      met_append_meetParts hl ha hts hparts hspelled
    have hpicks {cs : List Ty} :
        Picks cs ((vacant limit).meetParts [t]) ↔ cs = (vacant limit).meetParts [t] :=
      picks_iff_eq fun p hp ↦ (hsimple p hp).1
    rw [Ty.alternatives_of_not_union hu]
    refine ⟨fun cs hcs ↦ ⟨t, List.mem_singleton_self t, ?_⟩, fun u hmem ↦ ⟨_, hpicks.2 rfl, ?_⟩⟩
    · rwa [hpicks.1 hcs]
    · rwa [List.mem_singleton.1 hmem]
  · have hparts : (vacant limit).meetParts [t] = [t] := by
      cases t <;> cases hu
      exact meetParts_singleton rfl rfl
    rw [hparts]
    refine ⟨fun cs hcs ↦ ?_, fun u hu ↦ ⟨[u], .cons hu .nil, fun _ _ ↦ rfl⟩⟩
    obtain ⟨u, rest, hu, hrest, rfl⟩ := List.forall₂_cons_right_iff.1 hcs
    obtain rfl := List.forall₂_nil_right_iff.1 hrest
    exact ⟨u, hu, fun _ _ ↦ rfl⟩

theorem Picks.factor (h : Picks cs parts) {p : Ty} (hp : p ∈ meetFactors cs) : ∃ t ∈ parts, p ∈ t.leaves := by
  obtain ⟨c, hc, hpc⟩ := Ty.mem_factorsEach.1 (mem_meetFactors.1 hp).1
  obtain ⟨t, ht, hct⟩ := h.mem hc
  exact ⟨t, ht, Ty.mem_leaves.2 ⟨c, hct, hpc⟩⟩

/--
What is left of the parts of one intersection is related neither to what is left of another one nor to the
other one as a whole, and their components are related only where they are the same.
-/
structure Independent (env : Env) (xs ys : List Ty) : Prop where
  apart : ∀ x ∈ env.meetParts xs, ∀ y ∈ env.meetParts ys ++ env.meetParts [env.met ys],
    Apart env.below x y
  leaves : ∀ x ∈ env.meetParts xs, ∀ y ∈ env.meetParts ys, ∀ a ∈ x.leaves, ∀ b ∈ y.leaves,
    a.isTuple = false ∧ (a = b ∨ Apart env.below a b)

/-- Where `never` is a part of an intersection, it is all that is left. -/
theorem undistributed_of_never (hl : limit ≤ 0) (ht : ∀ t ∈ ts, Spelled limit t)
    (hn : (meetFactors ts).any Ty.isNever = true) : (vacant limit).Undistributed ts := by
  obtain ⟨q, hq, hqn⟩ := List.any_eq_true.1 hn
  rw [Ty.isNever_iff.1 hqn] at hq
  have hall : ∀ p ∈ (vacant limit).meetParts ts, .never = p := by
    intro p hp
    obtain ⟨hpf, hmin⟩ := (mem_meetParts_iff hl ht).1 hp
    exact hmin _ hq (never_below (meetFactors_of_child Spelled.child ht p hpf).normal)
  have hnodup := meetParts_nodup ht
  rw [Undistributed]
  revert hall hnodup
  rcases (vacant limit).meetParts ts with _ | ⟨p, _ | ⟨q, parts⟩⟩ <;> intro hall hnodup
  · exact .inl (Nat.zero_le 1)
  · exact .inl le_rfl
  · have hq := hall q (List.mem_cons_of_mem p List.mem_cons_self)
    have hpq : p = q := (hall p List.mem_cons_self).symm.trans hq
    exact absurd hpq ((List.pairwise_cons.1 hnodup).1 q List.mem_cons_self)

theorem Independent.never (hx : ∀ t ∈ xs, Spelled limit t) (hy : ∀ t ∈ ys, Spelled limit t)
    (h : (vacant limit).Independent xs ys) (hyne : (vacant limit).meetParts ys ≠ []) :
    (meetFactors xs).any Ty.isNever = false := by
  refine Bool.eq_false_of_not_eq_true fun hn ↦ ?_
  obtain ⟨q, hq, hqn⟩ := List.any_eq_true.1 hn
  have hfx := meetFactors_of_child Spelled.child hx
  obtain ⟨k, hk, hkq⟩ := meetParts_cover (fun q hq ↦ (hfx q hq).normal) q hq
  rw [Ty.isNever_iff.1 hqn] at hkq
  rw [eq_never_of_below (hfx k (mem_meetParts hk)).normal hkq] at hk
  obtain ⟨y, hym⟩ := List.exists_mem_of_ne_nil _ hyne
  have hyn := (meetFactors_of_child Spelled.child hy y (mem_meetParts hym)).normal
  cases (h.apart _ hk y (List.mem_append_left _ hym)).1.symm.trans (never_below hyn)

theorem met_append_of_nil (hl : limit ≤ 0) (hx : ∀ t ∈ xs, Spelled limit t) (ht : ∀ t ∈ ts, Spelled limit t)
    (h : (vacant limit).meetParts xs = []) : (vacant limit).met (xs ++ ts) = (vacant limit).met ts := by
  have hxf : meetFactors xs = [] := by
    by_contra hne
    exact meetParts_ne_nil hx hne h
  have hrefl : ∀ p ∈ meetFactors ts, Below limit p p :=
    fun p hp ↦ below_refl (meetFactors_of_child Spelled.child ht p hp).normal
  have hmem (p : Ty) : p ∈ meetFactors (xs ++ ts) ↔ p ∈ meetFactors ts := by
    rw [mem_meetFactors_append, hxf]
    exact or_iff_right List.not_mem_nil
  exact met_of_cover hl (List.forall_mem_append.2 ⟨hx, ht⟩) ht
    (fun p hp ↦ ⟨p, (hmem p).1 hp, hrefl p ((hmem p).1 hp)⟩) fun q hq ↦ ⟨q, (hmem q).2 hq, hrefl q hq⟩

theorem never_append (hs : (meetFactors ss).any Ty.isNever = false)
    (ht : (meetFactors ts).any Ty.isNever = false) : (meetFactors (ss ++ ts)).any Ty.isNever = false := by
  rw [List.any_eq_false] at hs ht ⊢
  exact fun p hp ↦ (mem_meetFactors_append.1 hp).elim (hs p) (ht p)

/-- A type that is neither `never` nor `any` has parts left, and none of them is `never`. -/
theorem meetParts_singleton_plain (ht : Spelled limit t) (hn : t.isNever = false) (ha : t.isAny = false) :
    (meetFactors [t]).any Ty.isNever = false ∧ (vacant limit).meetParts [t] ≠ [] := by
  constructor
  · refine List.any_eq_false.2 fun p hp ↦ ?_
    obtain ⟨s, hs, hps⟩ := Ty.mem_factorsEach.1 (mem_meetFactors.1 hp).1
    obtain rfl := List.mem_singleton.1 hs
    exact Bool.not_eq_true _ ▸ factor_not_never ht.normal hn hps
  · obtain ⟨p, hp, hpa⟩ := exists_factor ht.normal ha
    exact meetParts_ne_nil (List.forall_mem_singleton.2 ht)
      (List.ne_nil_of_mem (mem_meetFactors.2 ⟨List.mem_append_left _ hp, hpa⟩))

section Choices

variable (hl : limit ≤ 0) (hx : Remnants limit ((vacant limit).meetParts xs)) (hy : ∀ t ∈ ys, Spelled limit t)
  (hny : (meetFactors ys).any Ty.isNever = false) (hy₂ : 2 ≤ ((vacant limit).meetParts ys).length)
  (has : Picks as ((vacant limit).meetParts xs))

include hl hx hy hny hy₂ has

theorem met_append_choice (hbs : Picks bs ((vacant limit).meetParts ys)) :
    (vacant limit).met (as ++ [(vacant limit).met bs]) = (vacant limit).met (as ++ bs) := by
  have hremy := remnants_meetParts hy hny (List.ne_nil_of_length_pos (Nat.zero_lt_of_lt hy₂))
  obtain ⟨hb, -⟩ := hremy.conjuncts hl hbs
  exact met_regroup hl (hx.conjuncts hl has).1.spelled hb.spelled hb.undistributed

/-- A choice from a distributed intersection as a whole amounts to one from its parts. -/
theorem exists_picks_of_whole (hcs : Picks cs ((vacant limit).meetParts [(vacant limit).met ys])) :
    ∃ bs, Picks bs ((vacant limit).meetParts ys) ∧
      (vacant limit).met (as ++ cs) = (vacant limit).met (as ++ bs) := by
  obtain ⟨hun, -, halt, -⟩ := met_alternatives hl hy hny hy₂
  obtain ⟨u, hum, heq⟩ := (picks_singleton hl (spelled_met hy) hun).1 cs hcs
  obtain ⟨bs, hbs, rfl⟩ := halt u hum
  refine ⟨bs, hbs, ?_⟩
  rw [heq as (hx.conjuncts hl has).1.spelled, met_append_choice hl hx hy hny hy₂ has hbs]

/-- A choice from the parts of a distributed intersection is covered by one from the whole. -/
theorem Independent.exists_picks_of_parts (h : (vacant limit).Independent xs ys)
    (hbs : Picks bs ((vacant limit).meetParts ys)) :
    ∃ cs, Picks cs ((vacant limit).meetParts [(vacant limit).met ys]) ∧
      Below limit ((vacant limit).met (as ++ bs)) ((vacant limit).met (as ++ cs)) := by
  obtain ⟨hun, -, halt, hcover⟩ := met_alternatives hl hy hny hy₂
  have hremy := remnants_meetParts hy hny (List.ne_nil_of_length_pos (Nat.zero_lt_of_lt hy₂))
  obtain ⟨ha, -⟩ := hx.conjuncts hl has
  obtain ⟨hb, hbne⟩ := hremy.conjuncts hl hbs
  obtain ⟨u, hum, hbu⟩ := hcover bs hbs
  obtain ⟨cs, hcs, rfl⟩ := halt u hum
  obtain ⟨hc, hcne⟩ := hremy.conjuncts hl hcs
  obtain ⟨ds, hds, heq⟩ := (picks_singleton hl (spelled_met hy) hun).2 _ hum
  refine ⟨ds, hds, ?_⟩
  rw [heq as ha.spelled, met_append_choice hl hx hy hny hy₂ has hcs]
  have hleaf : ∀ p ∈ meetFactors as, ∀ q ∈ meetFactors cs,
      p.isTuple = false ∧ (p = q ∨ Apart (vacant limit).below p q) := by
    intro p hp q hq
    obtain ⟨x, hxm, hpx⟩ := has.factor hp
    obtain ⟨y, hym, hqy⟩ := hcs.factor hq
    exact h.leaves x hxm y hym p hpx q hqy
  obtain ⟨q, hq⟩ := List.exists_mem_of_ne_nil _ hcne
  exact met_append_below hl ha hb hc (fun p hp q hq ↦ (hleaf p hp q hq).2) (fun p hp ↦ (hleaf p hp q hq).1)
    hbne hcne hbu

end Choices

/-- An intersection with something left of either half is the union of its disjuncts. -/
theorem met_append_eq_joined (hl : limit ≤ 0) (hs : ∀ t ∈ ss, Spelled limit t)
    (ht : ∀ t ∈ ts, Spelled limit t) (hns : (meetFactors ss).any Ty.isNever = false)
    (hnt : (meetFactors ts).any Ty.isNever = false) (hsne : (vacant limit).meetParts ss ≠ [])
    (htne : (vacant limit).meetParts ts ≠ []) (h : ((vacant limit).meetParts (ss ++ ts)).Perm
      ((vacant limit).meetParts ss ++ (vacant limit).meetParts ts)) :
    Remnants limit ((vacant limit).meetParts (ss ++ ts)) ∧ (vacant limit).met (ss ++ ts) =
      (vacant limit).joined ((disjuncts ((vacant limit).meetParts (ss ++ ts))).map (vacant limit).met) := by
  have hst : ∀ t ∈ ss ++ ts, Spelled limit t := List.forall_mem_append.2 ⟨hs, ht⟩
  have hn := never_append hns hnt
  have h₂ : 2 ≤ ((vacant limit).meetParts (ss ++ ts)).length := by
    have := List.length_pos_of_ne_nil hsne
    have := List.length_pos_of_ne_nil htne
    rw [h.length_eq, List.length_append]
    omega
  exact ⟨remnants_meetParts hst hn (List.ne_nil_of_length_pos (Nat.zero_lt_of_lt h₂)),
    met_eq_joined hl (fun t ht ↦ (hst t ht).normal) hn h₂⟩

/-- A distributed intersection may stand for its parts among those of an independent one. -/
theorem met_regroup_independent (hl : limit ≤ 0) (hx : ∀ t ∈ xs, Spelled limit t)
    (hy : ∀ t ∈ ys, Spelled limit t) (hd : ¬(vacant limit).Undistributed ys)
    (h : (vacant limit).Independent xs ys) :
    (vacant limit).met (xs ++ [(vacant limit).met ys]) = (vacant limit).met (xs ++ ys) := by
  have hny : (meetFactors ys).any Ty.isNever = false :=
    Bool.eq_false_of_not_eq_true fun hn ↦ hd (undistributed_of_never hl hy hn)
  have hy₂ : 2 ≤ ((vacant limit).meetParts ys).length := by
    by_contra hlt
    exact hd (.inl (by omega))
  have hyne := List.ne_nil_of_length_pos (Nat.zero_lt_of_lt hy₂)
  obtain ⟨hun, hua, -⟩ := met_alternatives hl hy hny hy₂
  have hu := spelled_met hy
  have hus : ∀ t ∈ [(vacant limit).met ys], Spelled limit t := List.forall_mem_singleton.2 hu
  by_cases hxne : (vacant limit).meetParts xs = []
  · rw [met_append_of_nil hl hx hus hxne, met_append_of_nil hl hx hy hxne, met_singleton hu.normal hun]
  have hnx := h.never hx hy hyne
  have hremx := remnants_meetParts hx hnx hxne
  obtain ⟨hnu, hune⟩ := meetParts_singleton_plain hu hun hua
  have hpermu := meetParts_append hl hx hus fun x hxm y hym ↦ h.apart x hxm y (List.mem_append_right _ hym)
  have hpermy := meetParts_append hl hx hy fun x hxm y hym ↦ h.apart x hxm y (List.mem_append_left _ hym)
  obtain ⟨hremu, hmetu⟩ := met_append_eq_joined hl hx hus hnx hnu hxne hune hpermu
  obtain ⟨hremy, hmety⟩ := met_append_eq_joined hl hx hy hnx hny hxne hyne hpermy
  rw [hmetu, hmety]
  -- The two unions cover each other, choice by choice.
  refine joined_of_cover hl (hremu.spelled_disjuncts hl) (hremy.spelled_disjuncts hl) (fun p hp _ ↦ ?_)
    fun q hq _ ↦ ?_
  · have hpn := (alternativesEach_of_child Spelled.child (hremu.spelled_disjuncts hl) p hp).normal
    obtain ⟨as, cs, has, hcs, rfl⟩ := (hremu.mem_disjuncts_append hl hpermu).1 hp
    obtain ⟨bs, hbs, heq⟩ := exists_picks_of_whole hl hremx hy hny hy₂ has hcs
    exact ⟨_, (hremy.mem_disjuncts_append hl hpermy).2 ⟨as, bs, has, hbs, heq.symm⟩, below_refl hpn⟩
  · obtain ⟨as, bs, has, hbs, rfl⟩ := (hremy.mem_disjuncts_append hl hpermy).1 hq
    obtain ⟨cs, hcs, hbelow⟩ := h.exists_picks_of_parts hl hremx hy hny hy₂ has hbs
    exact ⟨_, (hremu.mem_disjuncts_append hl hpermu).2 ⟨as, cs, has, hcs, rfl⟩, hbelow⟩

end Env

end TypeAlgebra
