import TypeAlgebra.Proofs.SubtypeOrder

namespace TypeAlgebra

namespace Env

variable {limit : Int64} {c s t : Ty} {ts parts : List Ty}

theorem union_below_iff (hs : Normal limit (.union parts)) (hc : Normal limit c)
    (htup : ∀ p ∈ parts, p.isTuple = false) :
    Below limit (.union parts) c ↔ ∀ p ∈ parts, Below limit p c := by
  rw [union_below hs hc, or_iff_right_of_imp]
  rintro rfl p hp
  refine (below_union (hs.child hp) hs (hs.canonical.unionParts.plain p hp).1).2 ⟨htup p hp, p, hp, ?_⟩
  exact below_refl (hs.child hp)

theorem ofAlternatives_below (hp : ∀ p ∈ parts, Normal limit p)
    (hn : Normal limit (Ty.ofAlternatives parts)) (hc : Normal limit c)
    (htup : ∀ p ∈ parts, p.isTuple = false) :
    Below limit (Ty.ofAlternatives parts) c ↔ ∀ p ∈ parts, Below limit p c := by
  revert hn
  unfold Ty.ofAlternatives
  split
  · next hany =>
    obtain ⟨p, hm, hp'⟩ := List.any_eq_true.1 hany
    rw [Ty.isAny_iff] at hp'
    subst hp'
    refine fun _ ↦ ⟨fun h q hq ↦ ?_, fun h ↦ h _ hm⟩
    rw [eq_any_of_below hc h]
    exact below_any (hp q hq)
  · split
    · exact fun _ ↦ ⟨fun _ ↦ nofun, fun _ ↦ never_below hc⟩
    · exact fun _ ↦ ⟨fun h ↦ List.forall_mem_singleton.2 h, fun h ↦ h _ List.mem_cons_self⟩
    · exact fun hn ↦ union_below_iff hn hc htup

/-- A part of a union is below one that is left. -/
theorem joinParts_cover (hts : ∀ q ∈ Ty.alternativesEach ts, Normal limit q) :
    ∀ q ∈ Ty.alternativesEach ts, q.isNever = false →
      ∃ k ∈ (vacant limit).joinParts ts, Below limit q k := by
  intro q hq hn
  have cover := pruned_cover (vacant limit).below ((Ty.alternativesEach ts).filter (!·.isNever))
    (fun a ha ↦ below_refl (hts a (List.mem_filter.1 ha).1))
    fun x hx y hy z hz ↦ below_trans (hts x (List.mem_filter.1 hx).1)
      (hts y (List.mem_filter.1 hy).1) (hts z (List.mem_filter.1 hz).1)
  obtain ⟨k, hk, hqk⟩ := cover q (List.mem_filter.2 ⟨hq, by rw [hn]; rfl⟩)
  exact ⟨k, (mem_sortedBy _).2 hk, hqk⟩

/-- What is left of the parts of a union bounds the same types as all of them. -/
theorem joinParts_below (hts : ∀ q ∈ Ty.alternativesEach ts, Normal limit q) (hc : Normal limit c) :
    (∀ p ∈ (vacant limit).joinParts ts, Below limit p c) ↔
      ∀ q ∈ Ty.alternativesEach ts, Below limit q c := by
  constructor
  · intro h q hq
    cases hn : q.isNever
    · obtain ⟨k, hk, hqk⟩ := joinParts_cover hts q hq hn
      exact below_trans (hts q hq) (hts k (mem_joinParts hk).1) hc hqk (h k hk)
    · rw [Ty.isNever_iff.1 hn]
      exact never_below hc
  · exact fun h p hp ↦ h p (mem_joinParts hp).1

theorem alternatives_below (ht : Normal limit t) (hc : Normal limit c)
    (htup : ∀ p ∈ t.alternatives, p.isTuple = false) :
    (∀ q ∈ t.alternatives, Below limit q c) ↔ Below limit t c := by
  cases hu : t.isUnion
  · rw [Ty.alternatives_of_not_union hu]
    exact List.forall_mem_singleton
  · cases t <;> cases hu
    rename_i parts
    have he : (Ty.union parts).alternatives = parts :=
      Ty.alternativesEach_of_not_union fun p hp ↦ (ht.canonical.unionParts.plain p hp).1
    rw [he] at htup ⊢
    exact (union_below_iff ht hc htup).symm

/-- A type is above the union exactly if it is above all types that the union is made from. -/
theorem joined_below (hts : ∀ t ∈ ts, Normal limit t) (hc : Normal limit c)
    (htup : ∀ t ∈ ts, ∀ p ∈ t.alternatives, p.isTuple = false) :
    Below limit ((vacant limit).joined ts) c ↔ ∀ t ∈ ts, Below limit t c := by
  have hnormal := normal_joined hts
  have halt : ∀ q ∈ Ty.alternativesEach ts, Normal limit q := alternativesEach_of_child Normal.child hts
  have htup' : ∀ p ∈ (vacant limit).joinParts ts, p.isTuple = false := by
    intro p hp
    obtain ⟨t, ht, hpt⟩ := Ty.mem_alternativesEach.1 (mem_joinParts hp).1
    exact htup t ht p hpt
  rw [joined_of_normal hts] at hnormal ⊢
  rw [ofAlternatives_below (fun p hp ↦ halt p (mem_joinParts hp).1) hnormal hc htup',
    joinParts_below halt hc]
  constructor
  · intro h t ht
    exact (alternatives_below (hts t ht) hc (htup t ht)).1 fun q hq ↦
      h q (Ty.mem_alternativesEach.2 ⟨t, ht, hq⟩)
  · intro h q hq
    obtain ⟨t, ht, hqt⟩ := Ty.mem_alternativesEach.1 hq
    exact (alternatives_below (hts t ht) hc (htup t ht)).2 (h t ht) q hqt

theorem below_joined (hts : ∀ t ∈ ts, Normal limit t)
    (htup : ∀ t ∈ ts, ∀ p ∈ t.alternatives, p.isTuple = false) :
    ∀ t ∈ ts, Below limit t ((vacant limit).joined ts) :=
  (joined_below hts (normal_joined hts) htup).1 (below_refl (normal_joined hts))

end Env

end TypeAlgebra
