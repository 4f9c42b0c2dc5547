import TypeAlgebra.Proofs.Rearrangement
import Mathlib.Data.List.Perm.Basic

namespace TypeAlgebra

namespace Ty

theorem ofAlternatives_plain {parts : List Ty}
    (h : ∀ p ∈ parts, p.isUnion = false ∧ p.isNever = false ∧ p.isAny = false) (hne : parts ≠ []) :
    (ofAlternatives parts).alternatives = parts ∧ (ofAlternatives parts).isNever = false ∧
      (ofAlternatives parts).isAny = false := by
  have hany : parts.any isAny = false := List.any_eq_false.2 fun p hp ↦ Bool.not_eq_true _ ▸ (h p hp).2.2
  match parts with
  | [] => exact absurd rfl hne
  | [p] =>
    obtain ⟨hu, hn, ha⟩ := h p List.mem_cons_self
    rw [ofAlternatives, hany, if_neg Bool.false_ne_true]
    exact ⟨alternatives_of_not_union hu, hn, ha⟩
  | p :: q :: parts =>
    rw [ofAlternatives_several hany (by simp)]
    exact ⟨alternativesEach_of_not_union fun p hp ↦ (h p hp).1, rfl, rfl⟩

theorem ofFactors_plain {parts : List Ty} (h : ∀ p ∈ parts, p.isUnion = false ∧ p.isNever = false) :
    (ofFactors parts).isUnion = false ∧ (ofFactors parts).isNever = false := by
  match parts with
  | [] => exact ⟨rfl, rfl⟩
  | [p] => exact h p List.mem_cons_self
  | _ :: _ :: _ => exact ⟨rfl, rfl⟩

theorem ofFactors_not_any {parts : List Ty} (h : ∀ p ∈ parts, p.isAny = false) (hne : parts ≠ []) :
    (ofFactors parts).isAny = false := by
  match parts with
  | [] => exact absurd rfl hne
  | [p] => exact h p List.mem_cons_self
  | _ :: _ :: _ => rfl

theorem unionsIn_cons_of_not_union {t : Ty} {parts : List Ty} (hu : t.isUnion = false) :
    unionsIn (t :: parts) = unionsIn parts := by
  cases t <;> first | rfl | cases hu

theorem othersIn_cons_of_not_union {t : Ty} {parts : List Ty} (hu : t.isUnion = false) :
    othersIn (t :: parts) = t :: othersIn parts := by
  simp [othersIn, hu]

end Ty

namespace Env

variable {limit : Int64} {s t : Ty} {ss ts parts parts' as bs cs ds : List Ty}

theorem Normal.alternatives_union (h : Normal limit (.union parts)) : (Ty.union parts).alternatives = parts :=
  Ty.alternativesEach_of_not_union fun p hp ↦ (h.canonical.unionParts.plain p hp).1

theorem Normal.factors_inter (h : Normal limit (.inter parts)) : (Ty.inter parts).factors = parts :=
  Ty.factorsEach_of_not_inter fun p hp ↦ (h.canonical.interParts.plain p hp).1

theorem Normal.mem_alternatives (h : Normal limit t) (hs : s ∈ t.alternatives) :
    (t.isUnion = false ∧ s = t) ∨ ∃ parts, t = .union parts ∧ s ∈ parts := by
  cases hu : t.isUnion
  · rw [Ty.alternatives_of_not_union hu, List.mem_singleton] at hs
    exact .inl ⟨rfl, hs⟩
  · cases t <;> cases hu
    exact .inr ⟨_, rfl, h.alternatives_union ▸ hs⟩

theorem Normal.mem_factors (h : Normal limit t) (hs : s ∈ t.factors) :
    (t.isInter = false ∧ s = t) ∨ ∃ parts, t = .inter parts ∧ s ∈ parts := by
  cases hi : t.isInter
  · rw [Ty.factors_of_not_inter hi, List.mem_singleton] at hs
    exact .inl ⟨rfl, hs⟩
  · cases t <;> cases hi
    exact .inr ⟨_, rfl, h.factors_inter ▸ hs⟩

/-- The alternatives of a type other than `never` and `any` are neither of these, and not unions. -/
theorem alternative_plain (h : Normal limit t) (hn : t.isNever = false) (ha : t.isAny = false)
    (hs : s ∈ t.alternatives) : s.isUnion = false ∧ s.isNever = false ∧ s.isAny = false := by
  rcases h.mem_alternatives hs with ⟨hu, rfl⟩ | ⟨parts, rfl, hm⟩
  · exact ⟨hu, hn, ha⟩
  · exact h.canonical.unionParts.plain s hm

theorem exists_alternative (h : Normal limit t) : ∃ s, s ∈ t.alternatives := by
  cases hu : t.isUnion
  · rw [Ty.alternatives_of_not_union hu]
    exact ⟨t, List.mem_singleton_self t⟩
  · cases t <;> cases hu
    rw [h.alternatives_union]
    exact List.exists_mem_of_length_pos (Nat.zero_lt_of_lt h.canonical.unionParts.several)

theorem exists_factor (h : Normal limit t) (ha : t.isAny = false) : ∃ s ∈ t.factors, s.isAny = false := by
  cases hi : t.isInter
  · rw [Ty.factors_of_not_inter hi]
    exact ⟨t, List.mem_singleton_self t, ha⟩
  · cases t <;> cases hi
    rw [h.factors_inter]
    obtain ⟨s, hs⟩ := List.exists_mem_of_length_pos (Nat.zero_lt_of_lt h.canonical.interParts.several)
    exact ⟨s, hs, (h.canonical.interParts.plain s hs).2.1⟩

/-- Without a limit on distribution, the factors of a type other than a union are simple. -/
theorem factor_plain (hl : limit ≤ 0) (h : Normal limit t) (hu : t.isUnion = false) (hn : t.isNever = false)
    (hs : s ∈ t.factors) : s.isUnion = false ∧ s.isInter = false ∧ s.isNever = false := by
  rcases h.mem_factors hs with ⟨hi, rfl⟩ | ⟨parts, rfl, hm⟩
  · exact ⟨hu, hi, hn⟩
  · have hparts := h.canonical.interParts
    exact ⟨hparts.unlimited hl s hm, (hparts.plain s hm).1, (hparts.plain s hm).2.2⟩

theorem factor_not_never (h : Normal limit t) (hn : t.isNever = false) (hs : s ∈ t.factors) :
    s.isNever = false := by
  rcases h.mem_factors hs with ⟨-, rfl⟩ | ⟨parts, rfl, hm⟩
  · exact hn
  · exact (h.canonical.interParts.plain s hm).2.2

theorem factor_not_any (h : Normal limit t) (ha : t.isAny = false) (hs : s ∈ t.factors) :
    s.isAny = false := by
  rcases h.mem_factors hs with ⟨-, rfl⟩ | ⟨parts, rfl, hm⟩
  · exact ha
  · exact (h.canonical.interParts.plain s hm).2.1

theorem meetParts_ne_nil (ht : ∀ t ∈ ts, Spelled limit t) (hne : meetFactors ts ≠ []) :
    (vacant limit).meetParts ts ≠ [] := by
  obtain ⟨q, hq⟩ := List.exists_mem_of_ne_nil _ hne
  obtain ⟨k, hk, -⟩ := meetParts_cover (fun q hq ↦ (meetFactors_of_child Spelled.child ht q hq).normal) q hq
  exact List.ne_nil_of_mem hk

/-- Of the parts of an intersection at most one is left, or none that is a union. -/
def Undistributed (env : Env) (ts : List Ty) : Prop :=
  (env.meetParts ts).length ≤ 1 ∨ ∀ p ∈ env.meetParts ts, p.isUnion = false

/-- An intersection that is not distributed consists of the parts that are left. -/
theorem met_undistributed (ht : ∀ t ∈ ts, Normal limit t) (hn : (meetFactors ts).any Ty.isNever = false)
    (h : (vacant limit).Undistributed ts) :
    (vacant limit).met ts = Ty.ofFactors ((vacant limit).meetParts ts) := by
  rw [met_eq (free_inter.2 fun t hm ↦ (ht t hm).free).founded, hn, if_neg Bool.false_ne_true]
  match hp : (vacant limit).meetParts ts with
  | [] => exact spread_of_not_inter _ rfl
  | [p] =>
    have hm : p ∈ (vacant limit).meetParts ts := hp ▸ List.mem_cons_self
    exact spread_of_not_inter _ (meetParts_plain _ hn hm).1
  | p :: q :: parts =>
    have hu : ∀ r ∈ p :: q :: parts, r.isUnion = false := by
      rw [Undistributed, hp] at h
      exact h.resolve_left (by simp)
    refine spread_keep ?_
    rw [keeps, unionsIn_isEmpty.2 hu, Bool.true_or]

theorem joined_singleton (ht : Normal limit t) (hu : t.isUnion = false) (hn : t.isNever = false) :
    (vacant limit).joined [t] = t := by
  have hparts : (vacant limit).joinParts [t] = [t] := by
    have hfilter : (Ty.alternativesEach [t]).filter (!·.isNever) = [t] := by
      rw [Ty.alternativesEach_of_not_union (List.forall_mem_singleton.2 hu)]
      simp [hn]
    rw [joinParts, hfilter, pruned_of_apart _ (List.pairwise_singleton _ t)]
    exact List.perm_singleton.1 (sortedBy_perm _ [t])
  rw [joined_of_normal (List.forall_mem_singleton.2 ht), hparts, Ty.ofAlternatives]
  split
  · next ha => exact (Ty.isAny_iff.1 (by simpa using ha)).symm
  · rfl

/-- Without a limit on distribution, an intersection with several parts left is the union of its disjuncts. -/
theorem met_eq_joined (hl : limit ≤ 0) (ht : ∀ t ∈ ts, Normal limit t)
    (hn : (meetFactors ts).any Ty.isNever = false) (h₂ : 2 ≤ ((vacant limit).meetParts ts).length) :
    (vacant limit).met ts =
      (vacant limit).joined ((disjuncts ((vacant limit).meetParts ts)).map (vacant limit).met) := by
  have hparts : ∀ p ∈ (vacant limit).meetParts ts, Normal limit p :=
    fun p hp ↦ meetFactors_of_child Normal.child ht p (mem_meetParts hp)
  have hmet : (vacant limit).met ts = (vacant limit).spread (.inter ((vacant limit).meetParts ts)) := by
    rw [met_eq (free_inter.2 fun t hm ↦ (ht t hm).free).founded, hn, if_neg Bool.false_ne_true,
      Ty.ofFactors_several h₂]
  cases hk : (vacant limit).keeps ((vacant limit).meetParts ts)
  · rw [hmet, spread_distribute (free_inter.2 fun p hp ↦ (hparts p hp).free).founded hk]
  · have hu := (keeps_iff.1 hk).1 hl
    have hsound : ∀ p ∈ (vacant limit).meetParts ts, (vacant limit).Sound p :=
      fun p hp ↦ (hparts p hp).settled.sound
    have hsift := meetParts_sifted fun t hm ↦ (ht t hm).settled.sound
    have hinter := (interParts_iff hsound).2 ⟨h₂, fun p hp ↦ meetParts_plain _ hn hp, hsift, hk⟩
    have hone : disjuncts ((vacant limit).meetParts ts) = [(vacant limit).meetParts ts] := by
      have hunions : Ty.unionsIn ((vacant limit).meetParts ts) = [] :=
        List.isEmpty_iff.1 (unionsIn_isEmpty.2 hu)
      have hothers : Ty.othersIn ((vacant limit).meetParts ts) = (vacant limit).meetParts ts :=
        List.filter_eq_self.2 fun p hp ↦ by rw [hu p hp]; rfl
      rw [disjuncts, hunions, hothers]
      rfl
    rw [spread_keep hk] at hmet
    have hnormal := normal_met ht
    rw [hmet] at hnormal
    rw [hmet, hone, List.map_singleton, met_of_interParts hsound hinter, joined_singleton hnormal rfl rfl]

def Picks (cs parts : List Ty) : Prop :=
  List.Forall₂ (fun c p ↦ c ∈ p.alternatives) cs parts

theorem exists_picks (hp : ∀ p ∈ parts, Normal limit p) (h : ds ∈ disjuncts parts) :
    ∃ cs, Picks cs parts ∧ ds.Perm cs := by
  have from_choice : ∀ choice ∈ choices (Ty.unionsIn parts),
      ∃ cs, Picks cs parts ∧ (choice ++ Ty.othersIn parts).Perm cs := by
    clear h
    induction parts with
    | nil =>
      intro choice hc
      obtain rfl := List.mem_singleton.1 hc
      exact ⟨[], .nil, .refl _⟩
    | cons t parts ih =>
      obtain ⟨ht, hparts⟩ := List.forall_mem_cons.1 hp
      intro choice hc
      cases hu : t.isUnion
      · obtain ⟨cs, hcs, hperm⟩ := ih hparts choice (Ty.unionsIn_cons_of_not_union hu ▸ hc)
        refine ⟨t :: cs, .cons ?_ hcs, ?_⟩
        · rw [Ty.alternatives_of_not_union hu]
          exact List.mem_singleton_self t
        · rw [Ty.othersIn_cons_of_not_union hu]
          exact List.perm_middle.trans (hperm.cons t)
      · cases t <;> cases hu
        next us =>
        obtain ⟨c, rest, hcu, hrest, rfl⟩ := List.forall₂_cons_right_iff.1 (mem_choices.1 hc)
        obtain ⟨cs, hcs, hperm⟩ := ih hparts rest (mem_choices.2 hrest)
        refine ⟨c :: cs, .cons ?_ hcs, hperm.cons c⟩
        rwa [ht.alternatives_union]
  obtain ⟨choice, hc, rfl⟩ := List.mem_map.1 h
  exact from_choice choice hc

theorem Picks.exists_disjunct (hp : ∀ p ∈ parts, Normal limit p) (h : Picks cs parts) :
    ∃ ds ∈ disjuncts parts, ds.Perm cs := by
  have to_choice : ∃ choice ∈ choices (Ty.unionsIn parts), (choice ++ Ty.othersIn parts).Perm cs := by
    induction h with
    | nil => exact ⟨[], List.mem_singleton_self _, .refl _⟩
    | @cons c t cs parts hct hcs ih =>
      obtain ⟨ht, hp⟩ := List.forall_mem_cons.1 hp
      obtain ⟨choice, hc, hperm⟩ := ih hp
      cases hu : t.isUnion
      · rw [Ty.alternatives_of_not_union hu, List.mem_singleton] at hct
        subst hct
        refine ⟨choice, by rwa [Ty.unionsIn_cons_of_not_union hu], ?_⟩
        rw [Ty.othersIn_cons_of_not_union hu]
        exact List.perm_middle.trans (hperm.cons c)
      · cases t <;> cases hu
        next us =>
        rw [ht.alternatives_union] at hct
        exact ⟨c :: choice, mem_choices.2 (.cons hct (mem_choices.1 hc)), hperm.cons c⟩
  obtain ⟨choice, hc, hperm⟩ := to_choice
  exact ⟨_, List.mem_map_of_mem hc, hperm⟩

theorem Picks.of_perm (h : Picks cs parts) (hp : parts.Perm parts') : ∃ ds, Picks ds parts' ∧ cs.Perm ds := by
  obtain ⟨ds, hds, hperm⟩ := List.perm_comp_forall₂ hp.symm h.flip
  exact ⟨ds, hds.flip, hperm.symm⟩

theorem Picks.append (h : Picks as parts) (h' : Picks bs parts') : Picks (as ++ bs) (parts ++ parts') :=
  List.rel_append h h'

theorem Picks.split (h : Picks cs (parts ++ parts')) :
    ∃ as bs, Picks as parts ∧ Picks bs parts' ∧ cs = as ++ bs :=
  ⟨_, _, List.forall₂_take_append _ _ _ h, List.forall₂_drop_append _ _ _ h, (List.take_append_drop _ _).symm⟩

theorem Picks.mem (h : Picks cs parts) {c : Ty} (hc : c ∈ cs) : ∃ p ∈ parts, c ∈ p.alternatives := by
  induction h with
  | nil => cases hc
  | @cons a p as parts hap _ ih =>
    rcases List.mem_cons.1 hc with rfl | hc
    · exact ⟨p, List.mem_cons_self, hap⟩
    · obtain ⟨q, hq, hcq⟩ := ih hc
      exact ⟨q, List.mem_cons_of_mem p hq, hcq⟩

theorem exists_pick (h : ∀ p ∈ parts, Normal limit p) : ∃ cs, Picks cs parts := by
  induction parts with
  | nil => exact ⟨[], .nil⟩
  | cons p parts ih =>
    obtain ⟨hp, hparts⟩ := List.forall_mem_cons.1 h
    obtain ⟨c, hc⟩ := exists_alternative hp
    obtain ⟨cs, hcs⟩ := ih hparts
    exact ⟨c :: cs, .cons hc hcs⟩

structure Conjuncts (limit : Int64) (cs : List Ty) : Prop where
  spelled : ∀ c ∈ cs, Spelled limit c
  plain : ∀ p ∈ meetFactors cs, p.isUnion = false ∧ p.isInter = false ∧ p.isNever = false

theorem Picks.conjuncts (hl : limit ≤ 0) (hs : ∀ p ∈ parts, Spelled limit p)
    (hp : ∀ p ∈ parts, p.isNever = false ∧ p.isAny = false) (h : Picks cs parts) : Conjuncts limit cs where
  spelled c hc := by
    obtain ⟨p, hp, hcp⟩ := h.mem hc
    exact Ty.alternative_of_child Spelled.child (hs p hp) hcp
  plain p hpf := by
    obtain ⟨c, hc, hpc⟩ := Ty.mem_factorsEach.1 (mem_meetFactors.1 hpf).1
    obtain ⟨t, ht, hct⟩ := h.mem hc
    obtain ⟨hn, ha⟩ := hp t ht
    obtain ⟨hu, hn, -⟩ := alternative_plain (hs t ht).normal hn ha hct
    have hcn := Ty.alternative_of_child Normal.child (hs t ht).normal hct
    exact factor_plain hl hcn hu hn hpc

theorem Picks.exists_factor (hn : ∀ p ∈ parts, Normal limit p)
    (hp : ∀ p ∈ parts, p.isNever = false ∧ p.isAny = false) (hne : parts ≠ []) (h : Picks cs parts) :
    meetFactors cs ≠ [] := by
  cases h with
  | nil => exact absurd rfl hne
  | @cons c p cs parts hcp _ =>
    obtain ⟨hpn, hpa⟩ := hp p List.mem_cons_self
    have hc := hn p List.mem_cons_self
    obtain ⟨-, -, ha⟩ := alternative_plain hc hpn hpa hcp
    obtain ⟨s, hs, hsa⟩ := Env.exists_factor (Ty.alternative_of_child Normal.child hc hcp) ha
    exact List.ne_nil_of_mem (mem_meetFactors.2 ⟨List.mem_append_left _ hs, hsa⟩)

theorem Conjuncts.append (h : Conjuncts limit as) (h' : Conjuncts limit bs) : Conjuncts limit (as ++ bs) where
  spelled := List.forall_mem_append.2 ⟨h.spelled, h'.spelled⟩
  plain p hp := (mem_meetFactors_append.1 hp).elim (h.plain p) (h'.plain p)

theorem Conjuncts.undistributed (h : Conjuncts limit cs) : (vacant limit).Undistributed cs :=
  .inr fun p hp ↦ (h.plain p (mem_meetParts hp)).1

theorem Conjuncts.met_eq (h : Conjuncts limit cs) :
    (vacant limit).met cs = Ty.ofFactors ((vacant limit).meetParts cs) := by
  have hn : (meetFactors cs).any Ty.isNever = false :=
    List.any_eq_false.2 fun p hp ↦ Bool.not_eq_true _ ▸ (h.plain p hp).2.2
  exact met_undistributed (fun c hc ↦ (h.spelled c hc).normal) hn h.undistributed

theorem Conjuncts.met_plain (h : Conjuncts limit cs) (hne : meetFactors cs ≠ []) :
    ((vacant limit).met cs).isUnion = false ∧ ((vacant limit).met cs).isNever = false ∧
      ((vacant limit).met cs).isAny = false := by
  rw [h.met_eq]
  have hparts : ∀ p ∈ (vacant limit).meetParts cs, p.isUnion = false ∧ p.isNever = false := by
    intro p hp
    obtain ⟨hu, -, hn⟩ := h.plain p (mem_meetParts hp)
    exact ⟨hu, hn⟩
  obtain ⟨hu, hn⟩ := Ty.ofFactors_plain hparts
  refine ⟨hu, hn, Ty.ofFactors_not_any (fun p hp ↦ ?_) (meetParts_ne_nil h.spelled hne)⟩
  exact (mem_meetFactors.1 (mem_meetParts hp)).2

structure Remnants (limit : Int64) (parts : List Ty) : Prop where
  spelled : ∀ p ∈ parts, Spelled limit p
  plain : ∀ p ∈ parts, p.isNever = false ∧ p.isAny = false
  nonempty : parts ≠ []

theorem remnants_meetParts (ht : ∀ t ∈ ts, Spelled limit t) (hn : (meetFactors ts).any Ty.isNever = false)
    (hne : (vacant limit).meetParts ts ≠ []) : Remnants limit ((vacant limit).meetParts ts) where
  spelled p hp := meetFactors_of_child Spelled.child ht p (mem_meetParts hp)
  plain p hp := by
    obtain ⟨-, ha, hn⟩ := meetParts_plain _ hn hp
    exact ⟨hn, ha⟩
  nonempty := hne

theorem Remnants.conjuncts (hl : limit ≤ 0) (h : Remnants limit parts) (hc : Picks cs parts) :
    Conjuncts limit cs ∧ meetFactors cs ≠ [] :=
  ⟨hc.conjuncts hl h.spelled h.plain,
    hc.exists_factor (fun p hp ↦ (h.spelled p hp).normal) h.plain h.nonempty⟩

theorem met_of_perm (hl : limit ≤ 0) (hs : ∀ s ∈ ss, Spelled limit s) (h : ss.Perm ts) :
    (vacant limit).met ss = (vacant limit).met ts :=
  met_congr hl hs fun _ ↦ h.mem_iff

/-- The alternatives that an intersection is distributed into are the intersections of the choices. -/
theorem Remnants.mem_disjuncts (hl : limit ≤ 0) (h : Remnants limit parts) :
    t ∈ Ty.alternativesEach ((disjuncts parts).map (vacant limit).met) ↔
      ∃ cs, Picks cs parts ∧ (vacant limit).met cs = t := by
  have hn : ∀ p ∈ parts, Normal limit p := fun p hp ↦ (h.spelled p hp).normal
  have hmet {ds cs : List Ty} (hcs : Picks cs parts) (hperm : ds.Perm cs) :
      (vacant limit).met ds = (vacant limit).met cs :=
    (met_of_perm hl (h.conjuncts hl hcs).1.spelled hperm.symm).symm
  have hplain : ∀ r ∈ (disjuncts parts).map (vacant limit).met, r.isUnion = false := by
    refine List.forall_mem_map.2 fun ds hds ↦ ?_
    obtain ⟨cs, hcs, hperm⟩ := exists_picks hn hds
    obtain ⟨hconj, hne⟩ := h.conjuncts hl hcs
    rw [hmet hcs hperm]
    exact (hconj.met_plain hne).1
  rw [Ty.alternativesEach_of_not_union hplain, List.mem_map]
  constructor
  · rintro ⟨ds, hds, rfl⟩
    obtain ⟨cs, hcs, hperm⟩ := exists_picks hn hds
    exact ⟨cs, hcs, (hmet hcs hperm).symm⟩
  · rintro ⟨cs, hcs, rfl⟩
    obtain ⟨ds, hds, hperm⟩ := hcs.exists_disjunct hn
    exact ⟨ds, hds, hmet hcs hperm⟩

theorem Remnants.mem_disjuncts_append {left right : List Ty} (hl : limit ≤ 0) (h : Remnants limit parts)
    (hperm : parts.Perm (left ++ right)) :
    t ∈ Ty.alternativesEach ((disjuncts parts).map (vacant limit).met) ↔
      ∃ as bs, Picks as left ∧ Picks bs right ∧ (vacant limit).met (as ++ bs) = t := by
  rw [h.mem_disjuncts hl]
  constructor
  · rintro ⟨cs, hcs, rfl⟩
    obtain ⟨ds, hds, hcd⟩ := hcs.of_perm hperm
    obtain ⟨as, bs, has, hbs, rfl⟩ := hds.split
    exact ⟨as, bs, has, hbs, (met_of_perm hl (h.conjuncts hl hcs).1.spelled hcd).symm⟩
  · rintro ⟨as, bs, has, hbs, rfl⟩
    obtain ⟨cs, hcs, hcd⟩ := (has.append hbs).of_perm hperm.symm
    exact ⟨cs, hcs, met_of_perm hl (h.conjuncts hl hcs).1.spelled hcd.symm⟩

theorem Remnants.spelled_disjuncts (hl : limit ≤ 0) (h : Remnants limit parts) :
    ∀ r ∈ (disjuncts parts).map (vacant limit).met, Spelled limit r := by
  refine List.forall_mem_map.2 fun ds hds ↦ spelled_met fun d hd ↦ ?_
  obtain ⟨cs, hcs, hperm⟩ := exists_picks (fun p hp ↦ (h.spelled p hp).normal) hds
  exact (h.conjuncts hl hcs).1.spelled d (hperm.mem_iff.1 hd)

/-- What the alternatives of a distributed intersection are, and what they cover. -/
theorem met_alternatives (hl : limit ≤ 0) (ht : ∀ t ∈ ts, Spelled limit t)
    (hn : (meetFactors ts).any Ty.isNever = false) (h₂ : 2 ≤ ((vacant limit).meetParts ts).length) :
    ((vacant limit).met ts).isNever = false ∧ ((vacant limit).met ts).isAny = false ∧
      (∀ u ∈ ((vacant limit).met ts).alternatives,
        ∃ cs, Picks cs ((vacant limit).meetParts ts) ∧ (vacant limit).met cs = u) ∧
      ∀ cs, Picks cs ((vacant limit).meetParts ts) →
        ∃ u ∈ ((vacant limit).met ts).alternatives, Below limit ((vacant limit).met cs) u := by
  have hrem := remnants_meetParts ht hn (List.ne_nil_of_length_pos (Nat.zero_lt_of_lt h₂))
  have hds := hrem.spelled_disjuncts hl
  have hmem {p : Ty} (hp : p ∈ (vacant limit).joinParts
      ((disjuncts ((vacant limit).meetParts ts)).map (vacant limit).met)) :=
    (hrem.mem_disjuncts hl).1 (mem_joinParts hp).1
  have hcover : ∀ cs, Picks cs ((vacant limit).meetParts ts) →
      ∃ u ∈ (vacant limit).joinParts ((disjuncts ((vacant limit).meetParts ts)).map (vacant limit).met),
        Below limit ((vacant limit).met cs) u := by
    intro cs hcs
    obtain ⟨hconj, hne⟩ := hrem.conjuncts hl hcs
    exact joinParts_cover (fun q hq ↦ (alternativesEach_of_child Spelled.child hds q hq).normal) _
      ((hrem.mem_disjuncts hl).2 ⟨cs, hcs, rfl⟩) (hconj.met_plain hne).2.1
  have hplain : ∀ p ∈ (vacant limit).joinParts
      ((disjuncts ((vacant limit).meetParts ts)).map (vacant limit).met),
      p.isUnion = false ∧ p.isNever = false ∧ p.isAny = false := by
    intro p hp
    obtain ⟨cs, hcs, rfl⟩ := hmem hp
    obtain ⟨hconj, hne⟩ := hrem.conjuncts hl hcs
    exact hconj.met_plain hne
  obtain ⟨cs, hcs⟩ := exists_pick fun p hp ↦ (hrem.spelled p hp).normal
  obtain ⟨u, hu, -⟩ := hcover cs hcs
  obtain ⟨halt, hnever, hany⟩ := Ty.ofAlternatives_plain hplain (List.ne_nil_of_mem hu)
  rw [met_eq_joined hl (fun t hm ↦ (ht t hm).normal) hn h₂,
    joined_of_normal fun r hr ↦ (hds r hr).normal, halt]
  exact ⟨hnever, hany, fun u hu ↦ hmem hu, hcover⟩

end Env

end TypeAlgebra
