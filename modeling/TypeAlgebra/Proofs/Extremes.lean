import TypeAlgebra.Proofs.Distribution
import TypeAlgebra.Proofs.Subtraction

namespace TypeAlgebra

namespace Ty

variable {s t : Ty} {parts : List Ty}

theorem mem_alternatives_iff (h : t.isUnion = false) : s ∈ t.alternatives ↔ s = t := by
  rw [alternatives_of_not_union h, List.mem_singleton]

theorem mem_factors_iff (h : t.isInter = false) : s ∈ t.factors ↔ s = t := by
  rw [factors_of_not_inter h, List.mem_singleton]

theorem ofAlternatives_eq_any_iff : ofAlternatives parts = any ↔ any ∈ parts := by
  have hmem : parts.any isAny = true ↔ any ∈ parts := by simp [isAny_iff]
  unfold ofAlternatives
  split
  · next h => simpa using hmem.1 h
  · next h =>
    rw [← hmem, iff_false_right h]
    split
    · simp [any, never]
    · next p => simpa [isAny_iff] using h
    · simp [any]

theorem ofAlternatives_eq_never_iff (h : ∀ p ∈ parts, p ≠ never) : ofAlternatives parts = never ↔ parts = [] := by
  unfold ofAlternatives
  split
  · next ha =>
    have hne : parts ≠ [] := by
      rintro rfl
      cases ha
    simp [hne, any, never]
  · split
    · simp
    · simpa using h _ List.mem_cons_self
    · next hne _ => simpa [never] using hne

theorem ofAlternatives_eq_empty_iff : ofAlternatives parts = empty ↔ parts = [empty] := by
  unfold ofAlternatives
  split
  · next ha =>
    have hne : parts ≠ [empty] := by
      rintro rfl
      cases ha
    simp [hne, any]
  · split
    · simp [never]
    · simp
    · next hne => simpa using hne empty

end Ty

namespace Env

variable {limit : Int64} {a s t : Ty} {ts parts cs ds : List Ty}

theorem normal_empty (limit : Int64) : Normal limit .empty where
  named := nofun
  whole := .node nofun nofun
  canonical := .node nofun nofun nofun

theorem empty_below (ht : Normal limit t) (h : Below limit .empty t) : t = .any ∨ t = .empty := by
  have hempty := normal_empty limit
  rcases isTuple_of_below hempty ht rfl h with ht' | htuple
  · exact .inl ht'
  · have hu : t.isUnion = false := by cases t <;> first | rfl | cases htuple
    have hi : t.isInter = false := by cases t <;> first | rfl | cases htuple
    rcases (simple_below hempty ht rfl rfl hu hi).1 h with h | h | h | h
    · exact .inr h.symm
    · exact .inl h
    · cases h
    · cases h

/-- Of several unrelated types not all are the same. -/
theorem Sifted.exists_ne (hn : ∀ p ∈ parts, Normal limit p) (h : (vacant limit).Sifted parts)
    (h₂ : 2 ≤ parts.length) (a : Ty) : ∃ p ∈ parts, p ≠ a := by
  by_contra hall
  simp only [not_exists, not_and, ne_eq, not_not] at hall
  match parts with
  | p :: q :: rest =>
    have hne := (List.pairwise_cons.1 (h.nodup hn)).1 q List.mem_cons_self
    apply hne
    rw [hall p List.mem_cons_self, hall q (by simp)]

theorem Sifted.eq_singleton (hn : ∀ p ∈ parts, Normal limit p) (h : (vacant limit).Sifted parts)
    (hne : parts ≠ []) (hall : ∀ p ∈ parts, p = a) : parts = [a] := by
  match parts with
  | [p] => rw [hall p List.mem_cons_self]
  | p :: q :: rest =>
    obtain ⟨r, hr, hra⟩ := h.exists_ne hn (by simp) a
    exact absurd (hall r hr) hra

/-- Only `never` and `Empty` itself are below `Empty`. -/
theorem below_empty (hs : Normal limit s) (h : Below limit s .empty) : s = .never ∨ s = .empty := by
  have hempty := normal_empty limit
  induction s using Ty.induction_children with
  | step s ih =>
    -- parts that are all below `Empty` would all be `Empty`
    have not_part {parts : List Ty} (hc : ∀ p ∈ parts, p ∈ s.children) (hsift : (vacant limit).Sifted parts)
        (h₂ : 2 ≤ parts.length) (hp : ∀ p ∈ parts, p.isNever = false) :
        ¬∀ p ∈ parts, Below limit p .empty := by
      intro hall
      obtain ⟨p, hm, hne⟩ := hsift.exists_ne (fun p hp ↦ hs.child (hc p hp)) h₂ .empty
      rcases ih p (hc p hm) (hs.child (hc p hm)) (hall p hm) with hpn | hpe
      · have hp := hp p hm
        rw [hpn] at hp
        cases hp
      · exact hne hpe
    cases hu : s.isUnion
    · cases hi : s.isInter
      · rcases (simple_below hs hempty hu hi rfl rfl).1 h with h | h | h | h
        · exact .inr h
        · cases h
        · exact .inl h
        · cases h
      · cases s <;> cases hi
        have hparts := hs.canonical.interParts
        rcases (inter_below hs hempty rfl).1 h with h | h
        · cases h
        · exact absurd h (not_part (fun p hp ↦ hp) hs.interParts_sifted hparts.several
            fun p hp ↦ (hparts.plain p hp).2.2)
    · cases s <;> cases hu
      have hparts := hs.canonical.unionParts
      rcases (union_below hs hempty).1 h with h | h
      · cases h
      · exact absurd h (not_part (fun p hp ↦ hp) hs.unionParts_sifted hparts.several
          fun p hp ↦ (hparts.plain p hp).2.1)

theorem eq_of_alternative (ht : Normal limit t) (hs : s ∈ t.alternatives) (he : s = .never ∨ s = .any) : t = s := by
  rcases ht.mem_alternatives hs with ⟨-, rfl⟩ | ⟨parts, rfl, hm⟩
  · rfl
  · obtain ⟨-, hn, ha⟩ := ht.canonical.unionParts.plain s hm
    rcases he with rfl | rfl
    · cases hn
    · cases ha

theorem eq_of_factor (ht : Normal limit t) (hs : s ∈ t.factors) (he : s = .never ∨ s = .any) : t = s := by
  rcases ht.mem_factors hs with ⟨-, rfl⟩ | ⟨parts, rfl, hm⟩
  · rfl
  · obtain ⟨-, ha, hn⟩ := ht.canonical.interParts.plain s hm
    rcases he with rfl | rfl
    · cases hn
    · cases ha

/-- A type with no other alternatives than `never` and `Empty` is one of these. -/
theorem eq_of_alternatives (ht : Normal limit t) (h : ∀ s ∈ t.alternatives, s = .never ∨ s = .empty) :
    t = .never ∨ t = .empty := by
  cases hu : t.isUnion
  · exact h t ((Ty.mem_alternatives_iff hu).2 rfl)
  · cases t <;> cases hu
    rw [ht.alternatives_union] at h
    obtain ⟨p, hp, hne⟩ :=
      ht.unionParts_sifted.exists_ne (fun p hp ↦ ht.child hp) ht.canonical.unionParts.several .empty
    have hn := (ht.canonical.unionParts.plain p hp).2.1
    rw [(h p hp).resolve_right hne] at hn
    cases hn

theorem eq_of_factors (ht : Normal limit t) (h : ∀ s ∈ t.factors, s = .any ∨ s = .empty) :
    t = .any ∨ t = .empty := by
  cases hi : t.isInter
  · exact h t ((Ty.mem_factors_iff hi).2 rfl)
  · cases t <;> cases hi
    rw [ht.factors_inter] at h
    obtain ⟨p, hp, hne⟩ :=
      ht.interParts_sifted.exists_ne (fun p hp ↦ ht.child hp) ht.canonical.interParts.several .empty
    have ha := (ht.canonical.interParts.plain p hp).2.1
    rw [(h p hp).resolve_right hne] at ha
    cases ha

theorem joinPart_ne_never {p : Ty} (hp : p ∈ (vacant limit).joinParts ts) : p ≠ .never := by
  rw [ne_eq, ← Ty.isNever_iff, (mem_joinParts hp).2]
  exact Bool.false_ne_true

section Join

variable (hts : ∀ t ∈ ts, Normal limit t)

include hts

theorem normal_joinParts : ∀ p ∈ (vacant limit).joinParts ts, Normal limit p :=
  fun p hp ↦ alternativesEach_of_child Normal.child hts p (mem_joinParts hp).1

/-- A type that the parts of a union are taken from is covered by what is left of them. -/
theorem exists_joinPart (ht : t ∈ ts) (hs : s ∈ t.alternatives) (hn : s ≠ .never) :
    ∃ p ∈ (vacant limit).joinParts ts, Below limit s p := by
  refine joinParts_cover (alternativesEach_of_child Normal.child hts) s
    (Ty.mem_alternativesEach.2 ⟨t, ht, hs⟩) ?_
  rwa [← Bool.not_eq_true, Ty.isNever_iff]

theorem joined_eq_never_iff : (vacant limit).joined ts = .never ↔ ∀ t ∈ ts, t = .never := by
  rw [joined_of_normal hts, Ty.ofAlternatives_eq_never_iff fun p hp ↦ joinPart_ne_never hp]
  constructor
  · intro h t ht
    obtain ⟨s, hs⟩ := exists_alternative (hts t ht)
    by_cases hn : s = .never
    · exact (eq_of_alternative (hts t ht) hs (.inl hn)).trans hn
    · obtain ⟨p, hp, -⟩ := exists_joinPart hts ht hs hn
      rw [h] at hp
      cases hp
  · intro h
    refine List.eq_nil_iff_forall_not_mem.2 fun p hp ↦ joinPart_ne_never hp ?_
    obtain ⟨t, ht, hpt⟩ := Ty.mem_alternativesEach.1 (mem_joinParts hp).1
    rwa [h t ht, Ty.mem_alternatives_iff rfl] at hpt

theorem joined_eq_any_iff : (vacant limit).joined ts = .any ↔ .any ∈ ts := by
  rw [joined_of_normal hts, Ty.ofAlternatives_eq_any_iff]
  constructor
  · intro h
    obtain ⟨t, ht, hst⟩ := Ty.mem_alternativesEach.1 (mem_joinParts h).1
    rwa [← eq_of_alternative (hts t ht) hst (.inr rfl)]
  · intro h
    obtain ⟨p, hp, hbelow⟩ := exists_joinPart hts h ((Ty.mem_alternatives_iff rfl).2 rfl) nofun
    rwa [← eq_any_of_below (normal_joinParts hts p hp) hbelow]

theorem joined_eq_empty_iff :
    (vacant limit).joined ts = .empty ↔ .empty ∈ ts ∧ ∀ t ∈ ts, t = .never ∨ t = .empty := by
  rw [joined_of_normal hts, Ty.ofAlternatives_eq_empty_iff]
  constructor
  · intro h
    have hall : ∀ t ∈ ts, t = .never ∨ t = .empty := by
      intro t ht
      refine eq_of_alternatives (hts t ht) fun s hs ↦ ?_
      by_cases hn : s = .never
      · exact .inl hn
      · obtain ⟨p, hp, hbelow⟩ := exists_joinPart hts ht hs hn
        rw [h, List.mem_singleton] at hp
        subst hp
        exact below_empty (Ty.alternative_of_child Normal.child (hts t ht) hs) hbelow
    have hmem : Ty.empty ∈ (vacant limit).joinParts ts := by
      rw [h]
      exact List.mem_cons_self
    obtain ⟨t, ht, hst⟩ := Ty.mem_alternativesEach.1 (mem_joinParts hmem).1
    rcases hall t ht with rfl | rfl
    · cases (Ty.mem_alternatives_iff rfl).1 hst
    · exact ⟨ht, hall⟩
  · rintro ⟨hmem, hall⟩
    obtain ⟨p, hp, -⟩ := exists_joinPart hts hmem ((Ty.mem_alternatives_iff rfl).2 rfl) nofun
    have hsift := joinParts_sifted fun t ht ↦ (hts t ht).settled.sound
    refine hsift.eq_singleton (normal_joinParts hts) (List.ne_nil_of_mem hp) fun q hq ↦ ?_
    obtain ⟨t, ht, hqt⟩ := Ty.mem_alternativesEach.1 (mem_joinParts hq).1
    rcases hall t ht with rfl | rfl
    · exact absurd ((Ty.mem_alternatives_iff rfl).1 hqt) (joinPart_ne_never hq)
    · exact (Ty.mem_alternatives_iff rfl).1 hqt

end Join

/-- Any alternative of a part is chosen in some disjunct. -/
theorem exists_disjunct_mem (hp : ∀ p ∈ parts, Normal limit p) (ht : t ∈ parts) (hs : s ∈ t.alternatives) :
    ∃ ds ∈ disjuncts parts, s ∈ ds := by
  obtain ⟨left, right, rfl⟩ := List.append_of_mem ht
  obtain ⟨hleft, hright⟩ := List.forall_mem_append.1 hp
  obtain ⟨as, has⟩ := exists_pick hleft
  obtain ⟨bs, hbs⟩ := exists_pick (List.forall_mem_cons.1 hright).2
  have hpicks : Picks (as ++ s :: bs) (left ++ t :: right) := has.append (.cons hs hbs)
  obtain ⟨ds, hds, hperm⟩ := hpicks.exists_disjunct hp
  exact ⟨ds, hds, hperm.mem_iff.2 (by simp)⟩

theorem exists_mem_disjunct (hp : ∀ p ∈ parts, Normal limit p) (hne : parts ≠ []) (h : ds ∈ disjuncts parts) :
    ∃ d, d ∈ ds := by
  obtain ⟨cs, hcs, hperm⟩ := exists_picks hp h
  refine List.exists_mem_of_length_pos ?_
  rw [hperm.length_eq, List.Forall₂.length_eq hcs]
  exact List.length_pos_of_ne_nil hne

/-- The types that an intersection can be told from to be `never`, `any` or `Empty`. -/
structure Extremal (limit : Int64) (ts : List Ty) : Prop where
  never : (vacant limit).met ts = .never → .never ∈ ts
  any : (vacant limit).met ts = .any → ∀ t ∈ ts, t = .any
  empty : (vacant limit).met ts = .empty → ∀ t ∈ ts, t = .any ∨ t = .empty

theorem Extremal.of_not_mem (h : (vacant limit).met ts ∉ [.never, .any, .empty]) : Extremal limit ts := by
  simp only [List.mem_cons, List.not_mem_nil, or_false, not_or] at h
  exact ⟨fun hm ↦ absurd hm h.1, fun hm ↦ absurd hm h.2.1, fun hm ↦ absurd hm h.2.2⟩

/-- A distribution over a union is not extreme, if none of its disjuncts is so without reason. -/
theorem distributed_ne {us : List Ty} (hparts : ∀ p ∈ parts, Normal limit p)
    (hplain : ∀ p ∈ parts, p.isAny = false ∧ p.isNever = false) (hu : .union us ∈ parts)
    (ih : ∀ ds ∈ disjuncts parts, Extremal limit ds) :
    (vacant limit).joined ((disjuncts parts).map (vacant limit).met) ∉ [.never, .any, .empty] := by
  have hnormal : ∀ r ∈ (disjuncts parts).map (vacant limit).met, Normal limit r :=
    List.forall_mem_map.2 fun ds hds ↦ normal_met (disjuncts_of_child Normal.child hparts ds hds)
  have hus : Normal limit (.union us) := hparts _ hu
  have hchosen : ∀ ds ∈ disjuncts parts, ∀ d ∈ ds, d ≠ .any ∧ d ≠ .never := by
    intro ds hds d hd
    obtain ⟨cs, hcs, hperm⟩ := exists_picks hparts hds
    obtain ⟨p, hp, hdp⟩ := hcs.mem (hperm.mem_iff.1 hd)
    obtain ⟨-, hn, ha⟩ := alternative_plain (hparts p hp) (hplain p hp).2 (hplain p hp).1 hdp
    rw [ne_eq, ← Ty.isAny_iff, ha, ne_eq, ← Ty.isNever_iff, hn]
    exact ⟨Bool.false_ne_true, Bool.false_ne_true⟩
  -- a part of the union that is not `Empty`, and a disjunct with it
  obtain ⟨c, hc, hne⟩ :=
    hus.unionParts_sifted.exists_ne (fun p hp ↦ hus.child hp) hus.canonical.unionParts.several .empty
  obtain ⟨ds, hds, hcd⟩ := exists_disjunct_mem hparts hu (hus.alternatives_union.symm ▸ hc)
  have hmet_never : ∀ ds ∈ disjuncts parts, (vacant limit).met ds ≠ .never :=
    fun ds hds h ↦ (hchosen ds hds _ ((ih ds hds).never h)).2 rfl
  simp only [List.mem_cons, List.not_mem_nil, or_false, not_or]
  refine ⟨?_, ?_, ?_⟩
  · rw [joined_eq_never_iff hnormal]
    intro h
    exact hmet_never ds hds (h _ (List.mem_map_of_mem hds))
  · rw [joined_eq_any_iff hnormal]
    intro h
    obtain ⟨ds, hds, hmet⟩ := List.mem_map.1 h
    obtain ⟨d, hd⟩ := exists_mem_disjunct hparts (List.ne_nil_of_mem hu) hds
    exact (hchosen ds hds d hd).1 ((ih ds hds).any hmet d hd)
  · rw [joined_eq_empty_iff hnormal]
    rintro ⟨-, h⟩
    have hmet := (h _ (List.mem_map_of_mem hds)).resolve_left (hmet_never ds hds)
    rcases (ih ds hds).empty hmet c hcd with hca | hce
    · exact (hchosen ds hds c hcd).1 hca
    · exact hne hce

section Meet

variable (hts : ∀ t ∈ ts, Normal limit t)

include hts

theorem normal_meetParts : ∀ p ∈ (vacant limit).meetParts ts, Normal limit p :=
  fun p hp ↦ meetFactors_of_child Normal.child hts p (mem_meetParts hp)

theorem exists_meetPart (ht : t ∈ ts) (hs : s ∈ t.factors) (ha : s ≠ .any) :
    ∃ p ∈ (vacant limit).meetParts ts, Below limit p s := by
  refine meetParts_cover (meetFactors_of_child Normal.child hts) s (mem_meetFactors.2 ⟨?_, ?_⟩)
  · exact Ty.mem_factorsEach.2 ⟨t, ht, hs⟩
  · rwa [← Bool.not_eq_true, Ty.isAny_iff]

theorem meetFactors_not_never (hn : .never ∉ ts) : (meetFactors ts).any Ty.isNever = false := by
  refine List.any_eq_false.2 fun q hq hqn ↦ hn ?_
  obtain ⟨t, ht, hqt⟩ := Ty.mem_factorsEach.1 (mem_meetFactors.1 hq).1
  rw [Ty.isNever_iff] at hqn
  subst hqn
  rwa [← eq_of_factor (hts t ht) hqt (.inl rfl)]

/-- An intersection of which several parts are left stays one, or is distributed over a union. -/
theorem met_several (hn : .never ∉ ts) (h₂ : 2 ≤ ((vacant limit).meetParts ts).length) :
    (vacant limit).met ts = .inter ((vacant limit).meetParts ts) ∨
      (Ty.unionsIn ((vacant limit).meetParts ts)).isEmpty = false ∧ (vacant limit).met ts =
        (vacant limit).joined ((disjuncts ((vacant limit).meetParts ts)).map (vacant limit).met) := by
  have hmet : (vacant limit).met ts = (vacant limit).spread (.inter ((vacant limit).meetParts ts)) := by
    rw [met_eq (free_inter.2 fun t ht ↦ (hts t ht).free).founded, meetFactors_not_never hts hn,
      if_neg Bool.false_ne_true, Ty.ofFactors_several h₂]
  cases hk : (vacant limit).keeps ((vacant limit).meetParts ts)
  · refine .inr ⟨(Bool.or_eq_false_iff.1 hk).1, ?_⟩
    rw [hmet, spread_distribute (free_inter.2 fun p hp ↦ (normal_meetParts hts p hp).free).founded hk]
  · exact .inl (by rw [hmet, spread_keep hk])

theorem met_of_parts (hn : .never ∉ ts) (h₁ : ((vacant limit).meetParts ts).length ≤ 1) :
    (vacant limit).met ts = Ty.ofFactors ((vacant limit).meetParts ts) :=
  met_undistributed hts (meetFactors_not_never hts hn) (.inl h₁)

/-- If nothing else than `Empty` is left of an intersection, it is made of nothing else. -/
theorem eq_of_meetParts_empty (h : (vacant limit).meetParts ts = [.empty]) : ∀ t ∈ ts, t = .any ∨ t = .empty := by
  intro t ht
  refine eq_of_factors (hts t ht) fun s hs ↦ ?_
  by_cases ha : s = .any
  · exact .inl ha
  · obtain ⟨p, hp, hbelow⟩ := exists_meetPart hts ht hs ha
    rw [h, List.mem_singleton] at hp
    subst hp
    exact empty_below (Ty.factor_of_child Normal.child (hts t ht) hs) hbelow

theorem eq_any_of_meetParts (h : (vacant limit).meetParts ts = []) : ∀ t ∈ ts, t = .any := by
  intro t ht
  by_contra ha
  have hta : t.isAny = false := by rwa [← Bool.not_eq_true, Ty.isAny_iff]
  obtain ⟨s, hs, hsa⟩ := exists_factor (hts t ht) hta
  obtain ⟨p, hp, -⟩ := exists_meetPart hts ht hs (by rw [ne_eq, ← Ty.isAny_iff, hsa]; exact Bool.false_ne_true)
  rw [h] at hp
  cases hp

theorem extremal : Extremal limit ts := by
  -- the disjuncts of a distribution have a smaller rank
  induction hr : (vacant limit).rank (.inter ts) using Nat.strongRecOn generalizing ts with
  | ind n ih =>
    by_cases hn : .never ∈ ts
    · have hmet : (vacant limit).met ts = .never := met_of_mem_never (fun t ht ↦ (hts t ht).free.founded) hn
      refine ⟨fun _ ↦ hn, fun h ↦ ?_, fun h ↦ ?_⟩
      · cases hmet.symm.trans h
      · cases hmet.symm.trans h
    have hplain {p : Ty} (hp : p ∈ (vacant limit).meetParts ts) :=
      (meetParts_plain _ (meetFactors_not_never hts hn) hp).2
    by_cases h₂ : 2 ≤ ((vacant limit).meetParts ts).length
    · rcases met_several hts hn h₂ with hmet | ⟨hu, hmet⟩
      · refine .of_not_mem ?_
        rw [hmet]
        simp [Ty.never, Ty.any]
      · obtain ⟨us, hus⟩ : ∃ us, .union us ∈ (vacant limit).meetParts ts := by
          obtain ⟨us, hus⟩ := List.exists_mem_of_ne_nil _ (List.isEmpty_eq_false_iff.1 hu)
          exact ⟨us, Ty.mem_unionsIn.1 hus⟩
        have hfits := fits_meetParts (vacant limit) ts
        rw [Ty.ofFactors_several h₂] at hfits
        have hnot := distributed_ne (normal_meetParts hts) (fun p hp ↦ hplain hp) hus fun ds hds ↦ by
          refine ih _ ?_ (disjuncts_of_child Normal.child (normal_meetParts hts) ds hds) rfl
          exact hr ▸ (rank_disjunct_lt _ hds hu).trans_le (rank_le_of_fits _ hfits)
        exact .of_not_mem (hmet ▸ hnot)
    · have hmet := met_of_parts hts hn (by omega)
      cases hparts : (vacant limit).meetParts ts with
      | nil =>
        rw [hparts] at hmet
        refine ⟨fun h ↦ ?_, fun _ ↦ eq_any_of_meetParts hts hparts, fun h ↦ ?_⟩
        · cases hmet.symm.trans h
        · cases hmet.symm.trans h
      | cons p rest =>
        obtain rfl : rest = [] := by
          rw [hparts, List.length_cons] at h₂
          exact List.eq_nil_of_length_eq_zero (by omega)
        obtain ⟨hpa, hpn⟩ := hplain (p := p) (by rw [hparts]; exact List.mem_cons_self)
        rw [hparts] at hmet
        change (vacant limit).met ts = p at hmet
        refine ⟨fun h ↦ ?_, fun h ↦ ?_, fun h ↦ ?_⟩
        · rw [← hmet, h] at hpn
          cases hpn
        · rw [← hmet, h] at hpa
          cases hpa
        · rw [hmet] at h
          subst h
          exact eq_of_meetParts_empty hts hparts

theorem met_eq_never_iff : (vacant limit).met ts = .never ↔ .never ∈ ts := by
  refine ⟨(extremal hts).never, ?_⟩
  exact met_of_mem_never fun t ht ↦ (hts t ht).free.founded

theorem met_eq_any_iff : (vacant limit).met ts = .any ↔ ∀ t ∈ ts, t = .any := by
  refine ⟨(extremal hts).any, fun h ↦ ?_⟩
  have hn : .never ∉ ts := fun hm ↦ by cases h _ hm
  have hparts : (vacant limit).meetParts ts = [] := by
    refine List.eq_nil_iff_forall_not_mem.2 fun p hp ↦ ?_
    obtain ⟨hp, ha⟩ := mem_meetFactors.1 (mem_meetParts hp)
    obtain ⟨t, ht, hpt⟩ := Ty.mem_factorsEach.1 hp
    rw [h t ht, Ty.mem_factors_iff rfl] at hpt
    rw [hpt] at ha
    cases ha
  rw [met_of_parts hts hn (by simp [hparts]), hparts]
  rfl

theorem met_eq_empty_iff :
    (vacant limit).met ts = .empty ↔ .empty ∈ ts ∧ ∀ t ∈ ts, t = .any ∨ t = .empty := by
  constructor
  · intro h
    have hall := (extremal hts).empty h
    refine ⟨?_, hall⟩
    by_contra hm
    have hany : ∀ t ∈ ts, t = .any := fun t ht ↦ (hall t ht).resolve_right fun he ↦ hm (he ▸ ht)
    cases h.symm.trans ((met_eq_any_iff hts).2 hany)
  · rintro ⟨hm, hall⟩
    have hn : .never ∉ ts := fun hm ↦ by rcases hall _ hm with h | h <;> cases h
    obtain ⟨p, hp, -⟩ := exists_meetPart hts hm ((Ty.mem_factors_iff rfl).2 rfl) nofun
    have hsift := meetParts_sifted fun t ht ↦ (hts t ht).settled.sound
    have hparts := hsift.eq_singleton (normal_meetParts hts) (List.ne_nil_of_mem hp) fun q hq ↦ by
      obtain ⟨hq, ha⟩ := mem_meetFactors.1 (mem_meetParts hq)
      obtain ⟨t, ht, hqt⟩ := Ty.mem_factorsEach.1 hq
      rcases hall t ht with rfl | rfl
      · rw [(Ty.mem_factors_iff rfl).1 hqt] at ha
        cases ha
      · exact (Ty.mem_factors_iff rfl).1 hqt
    rw [met_of_parts hts hn (by simp [hparts]), hparts]
    rfl

end Meet

end Env

end TypeAlgebra
