import TypeAlgebra.Proofs.Antisymmetry
import TypeAlgebra.Proofs.LeastUpperBound

namespace TypeAlgebra

namespace Env

variable {limit : Int64} {ss ts xs ys zs parts parts' : List Ty}

/-- A part of an intersection is above one that is left. -/
theorem meetParts_cover (hts : ∀ q ∈ meetFactors ts, Normal limit q) :
    ∀ q ∈ meetFactors ts, ∃ k ∈ (vacant limit).meetParts ts, Below limit k q := by
  intro q hq
  have cover := pruned_cover (fun s t ↦ (vacant limit).below t s) (meetFactors ts)
    (fun a ha ↦ below_refl (hts a ha))
    fun x hx y hy z hz hyx hzy ↦ below_trans (hts z hz) (hts y hy) (hts x hx) hzy hyx
  obtain ⟨k, hk, hkq⟩ := cover q hq
  exact ⟨k, (mem_sortedBy _).2 hk, hkq⟩

theorem meetFactors_of_child {P : Ty → Prop} (hp : ∀ {s t : Ty}, P t → s ∈ t.children → P s)
    (h : ∀ t ∈ ts, P t) : ∀ s ∈ meetFactors ts, P s :=
  fun s hs ↦ factorsEach_of_child hp h s (mem_meetFactors.1 hs).1

theorem mem_meetFactors_append {p : Ty} :
    p ∈ meetFactors (ss ++ ts) ↔ p ∈ meetFactors ss ∨ p ∈ meetFactors ts := by
  simp only [mem_meetFactors, Ty.mem_factorsEach, List.mem_append, or_and_right, exists_or]

theorem mem_alternativesEach_append {p : Ty} :
    p ∈ Ty.alternativesEach (ss ++ ts) ↔ p ∈ Ty.alternativesEach ss ∨ p ∈ Ty.alternativesEach ts := by
  simp only [Ty.mem_alternativesEach, List.mem_append, or_and_right, exists_or]

theorem joined_of_cover (hl : limit ≤ 0) (hs : ∀ s ∈ ss, Spelled limit s) (ht : ∀ t ∈ ts, Spelled limit t)
    (hst : ∀ p ∈ Ty.alternativesEach ss, p.isNever = false → ∃ q ∈ Ty.alternativesEach ts, Below limit p q)
    (hts : ∀ q ∈ Ty.alternativesEach ts, q.isNever = false →
      ∃ p ∈ Ty.alternativesEach ss, Below limit q p) :
    (vacant limit).joined ss = (vacant limit).joined ts := by
  have has := alternativesEach_of_child Spelled.child hs
  have hat := alternativesEach_of_child Spelled.child ht
  -- A part that is left on one side goes through a part of the other side to one that is left there.
  have cover {us vs : List Ty} (hu : ∀ p ∈ Ty.alternativesEach us, Spelled limit p)
      (hv : ∀ q ∈ Ty.alternativesEach vs, Spelled limit q)
      (huv : ∀ p ∈ Ty.alternativesEach us, p.isNever = false →
        ∃ q ∈ Ty.alternativesEach vs, Below limit p q) :
      ∀ p ∈ (vacant limit).joinParts us, ∃ q ∈ (vacant limit).joinParts vs, Below limit p q := by
    intro p hp
    obtain ⟨hpu, hpn⟩ := mem_joinParts hp
    obtain ⟨q, hq, hpq⟩ := huv p hpu hpn
    have hqn : q.isNever = false := by
      refine Bool.eq_false_of_not_eq_true fun hqn ↦ ?_
      rw [Ty.isNever_iff.1 hqn] at hpq
      rw [eq_never_of_below (hu p hpu).normal hpq] at hpn
      cases hpn
    obtain ⟨k, hk, hqk⟩ := joinParts_cover (fun q hq ↦ (hv q hq).normal) q hq hqn
    exact ⟨k, hk, below_trans (hu p hpu).normal (hv q hq).normal (hv k (mem_joinParts hk).1).normal hpq hqk⟩
  have hsound {us : List Ty} (hu : ∀ t ∈ us, Spelled limit t) : ∀ t ∈ us, (vacant limit).Sound t :=
    fun t ht ↦ (hu t ht).normal.settled.sound
  have hsp : ∀ p ∈ (vacant limit).joinParts ss, Spelled limit p := fun p hp ↦ has p (mem_joinParts hp).1
  have htp : ∀ p ∈ (vacant limit).joinParts ts, Spelled limit p := fun p hp ↦ hat p (mem_joinParts hp).1
  have hparts : (vacant limit).joinParts ss = (vacant limit).joinParts ts :=
    Sifted.eq hsp htp (joinParts_sifted (hsound hs)) (joinParts_sifted (hsound ht)) (cover has hat hst)
      (cover hat has hts) fun p hp q hq ↦ below_antisymm hl (hsp p hp) (htp q hq)
  rw [joined_of_normal fun s hm ↦ (hs s hm).normal, joined_of_normal fun t hm ↦ (ht t hm).normal, hparts]

/-- Sifted lists are the same if each part of one is above a part of the other. -/
theorem Sifted.eq_of_above (hl : limit ≤ 0) (hs : ∀ p ∈ parts, Spelled limit p)
    (hs' : ∀ p ∈ parts', Spelled limit p) (h : (vacant limit).Sifted parts)
    (h' : (vacant limit).Sifted parts') (hab : ∀ p ∈ parts, ∃ q ∈ parts', Below limit q p)
    (hba : ∀ q ∈ parts', ∃ p ∈ parts, Below limit p q) : parts = parts' := by
  -- From `p` one comes down to a part of the other list and from there to `p` again.
  have flip {as bs : List Ty} (has : ∀ p ∈ as, Spelled limit p) (hbs : ∀ p ∈ bs, Spelled limit p)
      (h : (vacant limit).Sifted as) (hab : ∀ p ∈ as, ∃ q ∈ bs, Below limit q p)
      (hba : ∀ q ∈ bs, ∃ p ∈ as, Below limit p q) : ∀ p ∈ as, ∃ q ∈ bs, Below limit p q := by
    intro p hp
    obtain ⟨q, hq, hqp⟩ := hab p hp
    obtain ⟨r, hr, hrq⟩ := hba q hq
    have hrp := below_trans (has r hr).normal (hbs q hq).normal (has p hp).normal hrq hqp
    obtain rfl := h.eq_of_below hr hp hrp
    exact ⟨q, hq, hrq⟩
  exact Sifted.eq hs hs' h h' (flip hs hs' h hab hba) (flip hs' hs h' hba hab)
    fun p hp q hq ↦ below_antisymm hl (hs p hp) (hs' q hq)

/-- What is left of the parts of an intersection depends on them only up to cover. -/
theorem meetParts_of_cover (hl : limit ≤ 0) (hs : ∀ s ∈ ss, Spelled limit s) (ht : ∀ t ∈ ts, Spelled limit t)
    (hst : ∀ p ∈ meetFactors ss, ∃ q ∈ meetFactors ts, Below limit q p)
    (hts : ∀ q ∈ meetFactors ts, ∃ p ∈ meetFactors ss, Below limit p q) :
    (vacant limit).meetParts ss = (vacant limit).meetParts ts := by
  have hfs := meetFactors_of_child Spelled.child hs
  have hft := meetFactors_of_child Spelled.child ht
  have cover {us vs : List Ty} (hu : ∀ p ∈ meetFactors us, Spelled limit p)
      (hv : ∀ q ∈ meetFactors vs, Spelled limit q)
      (huv : ∀ p ∈ meetFactors us, ∃ q ∈ meetFactors vs, Below limit q p) :
      ∀ p ∈ (vacant limit).meetParts us, ∃ q ∈ (vacant limit).meetParts vs, Below limit q p := by
    intro p hp
    have hpu := mem_meetParts hp
    obtain ⟨q, hq, hqp⟩ := huv p hpu
    obtain ⟨k, hk, hkq⟩ := meetParts_cover (fun q hq ↦ (hv q hq).normal) q hq
    exact ⟨k, hk, below_trans (hv k (mem_meetParts hk)).normal (hv q hq).normal (hu p hpu).normal hkq hqp⟩
  refine Sifted.eq_of_above hl (fun p hp ↦ hfs p (mem_meetParts hp)) (fun p hp ↦ hft p (mem_meetParts hp))
    (meetParts_sifted ?_) (meetParts_sifted ?_) (cover hfs hft hst) (cover hft hfs hts)
  · exact fun s hm ↦ (hs s hm).normal.settled.sound
  · exact fun t hm ↦ (ht t hm).normal.settled.sound

theorem met_of_cover (hl : limit ≤ 0) (hs : ∀ s ∈ ss, Spelled limit s) (ht : ∀ t ∈ ts, Spelled limit t)
    (hst : ∀ p ∈ meetFactors ss, ∃ q ∈ meetFactors ts, Below limit q p)
    (hts : ∀ q ∈ meetFactors ts, ∃ p ∈ meetFactors ss, Below limit p q) :
    (vacant limit).met ss = (vacant limit).met ts := by
  have never {us vs : List Ty} (hv : ∀ t ∈ vs, Spelled limit t)
      (huv : ∀ p ∈ meetFactors us, ∃ q ∈ meetFactors vs, Below limit q p)
      (h : (meetFactors us).any Ty.isNever = true) : (meetFactors vs).any Ty.isNever = true := by
    obtain ⟨p, hp, hpn⟩ := List.any_eq_true.1 h
    obtain ⟨q, hq, hqp⟩ := huv p hp
    rw [Ty.isNever_iff.1 hpn] at hqp
    rw [eq_never_of_below (meetFactors_of_child Spelled.child hv q hq).normal hqp] at hq
    exact List.any_eq_true.2 ⟨_, hq, rfl⟩
  have hnever : (meetFactors ss).any Ty.isNever = (meetFactors ts).any Ty.isNever :=
    Bool.eq_iff_iff.2 ⟨never ht hst, never hs hts⟩
  rw [met_eq (free_inter.2 fun s hm ↦ (hs s hm).normal.free).founded,
    met_eq (free_inter.2 fun t hm ↦ (ht t hm).normal.free).founded, hnever,
    meetParts_of_cover hl hs ht hst hts]

theorem joined_perm (hl : limit ≤ 0) (hs : ∀ s ∈ ss, Spelled limit s) (h : ss.Perm ts) :
    (vacant limit).joined ss = (vacant limit).joined ts := by
  have ht : ∀ t ∈ ts, Spelled limit t := fun t hm ↦ hs t (h.mem_iff.2 hm)
  have hmem (p : Ty) : p ∈ Ty.alternativesEach ss ↔ p ∈ Ty.alternativesEach ts := by
    simp only [Ty.mem_alternativesEach, h.mem_iff]
  have hrefl : ∀ p ∈ Ty.alternativesEach ss, Below limit p p :=
    fun p hp ↦ below_refl (alternativesEach_of_child Spelled.child hs p hp).normal
  exact joined_of_cover hl hs ht (fun p hp _ ↦ ⟨p, (hmem p).1 hp, hrefl p hp⟩)
    fun q hq _ ↦ ⟨q, (hmem q).2 hq, hrefl q ((hmem q).2 hq)⟩

/-- Intersections of the same members are the same. -/
theorem met_congr (hl : limit ≤ 0) (hs : ∀ s ∈ ss, Spelled limit s) (h : ∀ t, t ∈ ss ↔ t ∈ ts) :
    (vacant limit).met ss = (vacant limit).met ts := by
  have ht : ∀ t ∈ ts, Spelled limit t := fun t hm ↦ hs t ((h t).2 hm)
  have hmem (p : Ty) : p ∈ meetFactors ss ↔ p ∈ meetFactors ts := by
    simp only [mem_meetFactors, Ty.mem_factorsEach, h]
  have hrefl : ∀ p ∈ meetFactors ss, Below limit p p :=
    fun p hp ↦ below_refl (meetFactors_of_child Spelled.child hs p hp).normal
  exact met_of_cover hl hs ht (fun p hp ↦ ⟨p, (hmem p).1 hp, hrefl p hp⟩)
    fun q hq ↦ ⟨q, (hmem q).2 hq, hrefl q ((hmem q).2 hq)⟩

end Env

namespace Ty

variable {parts : List Ty} {q : Ty}

theorem mem_ofAlternatives (h : ∀ p ∈ parts, p.isUnion = false) (hq : q ∈ (ofAlternatives parts).alternatives)
    (hn : q.isNever = false) : q ∈ parts := by
  unfold ofAlternatives at hq
  split at hq
  · next hany =>
    obtain ⟨p, hp, hpa⟩ := List.any_eq_true.1 hany
    rw [List.mem_singleton.1 hq, ← isAny_iff.1 hpa]
    exact hp
  · split at hq
    · rw [List.mem_singleton.1 hq] at hn
      cases hn
    · next p _ =>
      rwa [alternatives_of_not_union (h p List.mem_cons_self)] at hq
    · rwa [alternatives, alternativesEach_of_not_union h] at hq

end Ty

namespace Env

variable {limit : Int64} {xs ys zs parts : List Ty}

theorem ofAlternatives_cover (hn : ∀ p ∈ parts, Normal limit p) (h : ∀ p ∈ parts, p.isUnion = false) :
    ∀ p ∈ parts, ∃ q ∈ (Ty.ofAlternatives parts).alternatives, Below limit p q := by
  intro p hp
  unfold Ty.ofAlternatives
  split
  · exact ⟨.any, List.mem_singleton_self _, below_any (hn p hp)⟩
  · split
    · cases hp
    · next r _ =>
      rw [Ty.alternatives_of_not_union (h r List.mem_cons_self)]
      exact ⟨p, hp, below_refl (hn p hp)⟩
    · rw [Ty.alternatives, Ty.alternativesEach_of_not_union h]
      exact ⟨p, hp, below_refl (hn p hp)⟩

theorem joinParts_plain (hy : ∀ t ∈ ys, Spelled limit t) :
    ∀ p ∈ (vacant limit).joinParts ys, Normal limit p ∧ p.isUnion = false := by
  intro p hp
  have hpy := (mem_joinParts hp).1
  obtain ⟨t, -, hpt⟩ := Ty.mem_alternativesEach.1 hpy
  exact ⟨(alternativesEach_of_child Spelled.child hy p hpy).normal, (Ty.alternatives_spec hpt).1⟩

theorem mem_alternatives_joined {q : Ty} (hy : ∀ t ∈ ys, Spelled limit t)
    (hq : q ∈ ((vacant limit).joined ys).alternatives) (hn : q.isNever = false) :
    q ∈ Ty.alternativesEach ys := by
  rw [joined_of_normal fun t ht ↦ (hy t ht).normal] at hq
  exact (mem_joinParts (Ty.mem_ofAlternatives (fun p hp ↦ (joinParts_plain hy p hp).2) hq hn)).1

theorem alternatives_joined_cover (hy : ∀ t ∈ ys, Spelled limit t) :
    ∀ q ∈ Ty.alternativesEach ys, q.isNever = false →
      ∃ r ∈ ((vacant limit).joined ys).alternatives, Below limit q r := by
  intro q hq hn
  have hay := alternativesEach_of_child Spelled.child hy
  have hparts := joinParts_plain hy
  obtain ⟨k, hk, hqk⟩ := joinParts_cover (fun q hq ↦ (hay q hq).normal) q hq hn
  obtain ⟨r, hr, hkr⟩ := ofAlternatives_cover (fun p hp ↦ (hparts p hp).1) (fun p hp ↦ (hparts p hp).2) k hk
  rw [← joined_of_normal fun t ht ↦ (hy t ht).normal] at hr
  have hrn := Ty.alternative_of_child Normal.child (spelled_joined hy).normal hr
  exact ⟨r, hr, below_trans (hay q hq).normal (hparts k hk).1 hrn hqk hkr⟩

/-- A union may stand for its parts among those of another union. -/
theorem joined_regroup (hl : limit ≤ 0) (hx : ∀ t ∈ xs, Spelled limit t) (hy : ∀ t ∈ ys, Spelled limit t)
    (hz : ∀ t ∈ zs, Spelled limit t) :
    (vacant limit).joined (xs ++ [(vacant limit).joined ys] ++ zs) =
      (vacant limit).joined (xs ++ ys ++ zs) := by
  have hleft : ∀ t ∈ xs ++ [(vacant limit).joined ys] ++ zs, Spelled limit t := by
    simpa only [List.forall_mem_append, List.forall_mem_singleton] using ⟨⟨hx, spelled_joined hy⟩, hz⟩
  have hright : ∀ t ∈ xs ++ ys ++ zs, Spelled limit t := by
    simpa only [List.forall_mem_append] using ⟨⟨hx, hy⟩, hz⟩
  have hrefl {ts : List Ty} (h : ∀ t ∈ ts, Spelled limit t) : ∀ p ∈ Ty.alternativesEach ts, Below limit p p :=
    fun p hp ↦ below_refl (alternativesEach_of_child Spelled.child h p hp).normal
  have hone : Ty.alternativesEach [(vacant limit).joined ys] = ((vacant limit).joined ys).alternatives :=
    List.append_nil _
  refine joined_of_cover hl hleft hright (fun p hp hn ↦ ?_) fun q hq hn ↦ ?_
  · have hpp := hrefl hleft p hp
    simp only [mem_alternativesEach_append, hone] at hp ⊢
    rcases hp with (hp | hp) | hp
    · exact ⟨p, .inl (.inl hp), hpp⟩
    · exact ⟨p, .inl (.inr (mem_alternatives_joined hy hp hn)), hpp⟩
    · exact ⟨p, .inr hp, hpp⟩
  · have hqq := hrefl hright q hq
    simp only [mem_alternativesEach_append, hone] at hq ⊢
    rcases hq with (hq | hq) | hq
    · exact ⟨q, .inl (.inl hq), hqq⟩
    · obtain ⟨r, hr, hqr⟩ := alternatives_joined_cover hy q hq hn
      exact ⟨r, .inl (.inr hr), hqr⟩
    · exact ⟨q, .inr hq, hqq⟩

end Env

end TypeAlgebra
