import TypeAlgebra.Proofs.RoundTrip
import TypeAlgebra.Proofs.SubtypeOrder

namespace TypeAlgebra

namespace Env

variable {limit : Int64} {a b : Ty} {parts parts' : List Ty}

theorem Sifted.nodup (hn : ∀ p ∈ parts, Normal limit p) (h : (vacant limit).Sifted parts) : parts.Nodup := by
  refine h.apart.imp_of_mem fun hp _ hapart ↦ ?_
  rintro rfl
  cases hapart.1.symm.trans (below_refl (hn _ hp))

theorem Sifted.eq_of_below (h : (vacant limit).Sifted parts) (ha : a ∈ parts) (hb : b ∈ parts)
    (hab : Below limit a b) : a = b := by
  rcases eq_or_apart h.apart ha hb with he | hapart
  · exact he
  · cases hapart.1.symm.trans hab

/-- No type is between one of several unrelated types and all of them. -/
theorem Sifted.not_between (hn : ∀ p ∈ parts, Normal limit p) (h : (vacant limit).Sifted parts)
    (h₂ : 2 ≤ parts.length) (hb : Normal limit b) (hall : ∀ p ∈ parts, Below limit p b) :
    ¬∃ p ∈ parts, Below limit b p := by
  rintro ⟨p, hp, hbp⟩
  have all_eq : ∀ q ∈ parts, q = p := fun q hq ↦
    h.eq_of_below hq hp (below_trans (hn q hq) hb (hn p hp) (hall q hq) hbp)
  match parts with
  | q :: r :: rest =>
    have hq := all_eq q List.mem_cons_self
    have hr := all_eq r (List.mem_cons_of_mem q List.mem_cons_self)
    have hne := (List.pairwise_cons.1 (h.nodup hn)).1 r List.mem_cons_self
    exact hne (hq.trans hr.symm)

/-- Sifted lists are the same if each part of one is below a part of the other. -/
theorem Sifted.eq (hs : ∀ p ∈ parts, Spelled limit p) (hs' : ∀ p ∈ parts', Spelled limit p)
    (h : (vacant limit).Sifted parts) (h' : (vacant limit).Sifted parts')
    (hab : ∀ p ∈ parts, ∃ q ∈ parts', Below limit p q) (hba : ∀ q ∈ parts', ∃ p ∈ parts, Below limit q p)
    (antisymm : ∀ p ∈ parts, ∀ q ∈ parts', Below limit p q → Below limit q p → p = q) :
    parts = parts' := by
  have hn := fun p hp ↦ (hs p hp).normal
  have hn' := fun p hp ↦ (hs' p hp).normal
  have hmem (p : Ty) : p ∈ parts ↔ p ∈ parts' := by
    constructor
    · intro hp
      obtain ⟨q, hq, hpq⟩ := hab p hp
      obtain ⟨r, hr, hqr⟩ := hba q hq
      obtain rfl := h.eq_of_below hp hr (below_trans (hn p hp) (hn' q hq) (hn r hr) hpq hqr)
      exact antisymm p hp q hq hpq hqr ▸ hq
    · intro hp
      obtain ⟨q, hq, hpq⟩ := hba p hp
      obtain ⟨r, hr, hqr⟩ := hab q hq
      obtain rfl := h'.eq_of_below hp hr (below_trans (hn' p hp) (hn q hq) (hn' r hr) hpq hqr)
      exact antisymm q hq p hp hqr hpq ▸ hq
  have hperm : parts.Perm parts' := (List.perm_ext_iff_of_nodup (h.nodup hn) (h'.nodup hn')).2 hmem
  refine hperm.eq_of_pairwise (fun p q hp hq hpq hqp ↦ ?_) h.ascending h'.ascending
  have hkey := Std.OrientedCmp.isLE_antisymm hpq hqp
  exact key_injective (hs p hp) (hs' q hq) (Std.LawfulEqCmp.eq_of_compare hkey)

theorem Normal.unionParts_sifted (h : Normal limit (.union parts)) : (vacant limit).Sifted parts :=
  h.settled.unionParts_sifted

theorem Normal.interParts_sifted (h : Normal limit (.inter parts)) : (vacant limit).Sifted parts :=
  h.settled.interParts_sifted

/-- Another type than a union is not below the union and above it. -/
theorem union_not_between (ha : Normal limit (.union parts)) (hb : Normal limit b) (hu : b.isUnion = false)
    (hab : Below limit (.union parts) b) : ¬Below limit b (.union parts) := by
  intro hba
  rcases (union_below ha hb).1 hab with rfl | hall
  · cases hu
  · exact ha.unionParts_sifted.not_between (fun p hp ↦ ha.child hp) ha.canonical.unionParts.several hb hall
      ((below_union hb ha hu).1 hba).2

/-- Another type than a union or an intersection is not below an intersection and above it. -/
theorem inter_not_between (ha : Normal limit (.inter parts)) (hb : Normal limit b) (hu : b.isUnion = false)
    (hi : b.isInter = false) (hab : Below limit (.inter parts) b) : ¬Below limit b (.inter parts) := by
  intro hba
  rcases (inter_below ha hb hu).1 hab with rfl | hall
  · cases hi
  · exact ha.interParts_sifted.not_between (fun p hp ↦ ha.child hp) ha.canonical.interParts.several hb hall
      ((below_inter hb ha hu hi).1 hba).2

theorem exists_part_of_unions (ha : Normal limit (.union parts)) (hb : Normal limit (.union parts'))
    (hne : parts ≠ parts') (hab : Below limit (.union parts) (.union parts')) :
    ∀ p ∈ parts, ∃ q ∈ parts', Below limit p q := by
  intro p hp
  rcases (union_below ha hb).1 hab with he | hall
  · exact absurd (Ty.union.inj he).symm hne
  · exact ((below_union (ha.child hp) hb (ha.canonical.unionParts.plain p hp).1).1 (hall p hp)).2

theorem exists_part_of_inters (hl : limit ≤ 0) (ha : Normal limit (.inter parts))
    (hb : Normal limit (.inter parts')) (hne : parts ≠ parts')
    (hab : Below limit (.inter parts) (.inter parts')) : ∀ p ∈ parts, ∃ q ∈ parts', Below limit p q := by
  intro p hp
  have hparts := ha.canonical.interParts
  rcases (inter_below ha hb rfl).1 hab with he | hall
  · exact absurd (Ty.inter.inj he).symm hne
  · exact ((below_inter (ha.child hp) hb (hparts.unlimited hl p hp) (hparts.plain p hp).1).1 (hall p hp)).2

theorem Componentwise.antisymm (hab : Componentwise limit a b) (hba : Componentwise limit b a)
    (antisymm : ∀ p ∈ a.children, ∀ q ∈ b.children, Below limit p q → Below limit q p → p = q) : a = b := by
  have each {R S : Ty → Ty → Prop} {as bs : List Ty} (h : List.Forall₂ R as bs) (h' : List.Forall₂ S bs as)
      (heq : ∀ p ∈ as, ∀ q ∈ bs, R p q → S q p → p = q) : as = bs := by
    induction h with
    | nil => rfl
    | cons hd _ ih =>
      cases h' with
      | cons hd' htl =>
        rw [heq _ List.mem_cons_self _ List.mem_cons_self hd hd',
          ih htl fun p hp q hq ↦ heq p (List.mem_cons_of_mem _ hp) q (List.mem_cons_of_mem _ hq)]
  cases hab with
  | proc hp hr =>
    cases hba with
    | proc hp' hr' =>
      have hparams := each hp hp' fun p hp q hq h h' ↦
        antisymm p (List.mem_append_left _ hp) q (List.mem_append_left _ hq) h' h
      have hresult := antisymm _ (by simp [Ty.children]) _ (by simp [Ty.children]) hr hr'
      rw [hparams, hresult]
  | tuple he =>
    cases hba with
    | tuple he' => rw [each he he' antisymm]

theorem simple_antisymm (ha : Normal limit a) (hb : Normal limit b) (hua : a.isUnion = false)
    (hia : a.isInter = false) (hub : b.isUnion = false) (hib : b.isInter = false) (hab : Below limit a b)
    (hba : Below limit b a)
    (antisymm : ∀ p ∈ a.children, ∀ q ∈ b.children, Below limit p q → Below limit q p → p = q) : a = b := by
  rcases (simple_below ha hb hua hia hub hib).1 hab with h | rfl | rfl | hab'
  · exact h
  · exact eq_any_of_below ha hba
  · exact (eq_never_of_below hb hba).symm
  · rcases (simple_below hb ha hub hib hua hia).1 hba with h | rfl | rfl | hba'
    · exact h.symm
    · cases hab'
    · cases hab'
    · exact hab'.antisymm hba' antisymm

/-- Without a limit on distribution, types that can be written are equal if each is below the other. -/
theorem below_antisymm (hl : limit ≤ 0) (ha : Spelled limit a) (hb : Spelled limit b) (hab : Below limit a b)
    (hba : Below limit b a) : a = b := by
  induction hn : a.size + b.size using Nat.strongRecOn generalizing a b with
  | ind n ih =>
    have parts_antisymm : ∀ p ∈ a.children, ∀ q ∈ b.children, Below limit p q → Below limit q p → p = q := by
      intro p hp q hq hpq hqp
      have hps := Ty.size_lt_of_child hp
      have hqs := Ty.size_lt_of_child hq
      exact ih (p.size + q.size) (by omega) (ha.child hp) (hb.child hq) hpq hqp rfl
    by_contra hne
    cases hua : a.isUnion
    · cases hub : b.isUnion
      · cases hia : a.isInter
        · cases hib : b.isInter
          · exact hne (simple_antisymm ha.normal hb.normal hua hia hub hib hab hba parts_antisymm)
          · cases b <;> cases hib
            exact inter_not_between hb.normal ha.normal hua hia hba hab
        · cases hib : b.isInter
          · cases a <;> cases hia
            exact inter_not_between ha.normal hb.normal hub hib hab hba
          · cases a <;> cases hia
            cases b <;> cases hib
            have hne' := fun he ↦ hne (congrArg Ty.inter he)
            refine hne' (Sifted.eq (fun p hp ↦ ha.child hp) (fun p hp ↦ hb.child hp)
              ha.normal.interParts_sifted hb.normal.interParts_sifted ?_ ?_ parts_antisymm)
            · exact exists_part_of_inters hl ha.normal hb.normal hne' hab
            · exact exists_part_of_inters hl hb.normal ha.normal (fun he ↦ hne' he.symm) hba
      · cases b <;> cases hub
        exact union_not_between hb.normal ha.normal hua hba hab
    · cases hub : b.isUnion
      · cases a <;> cases hua
        exact union_not_between ha.normal hb.normal hub hab hba
      · cases a <;> cases hua
        cases b <;> cases hub
        have hne' := fun he ↦ hne (congrArg Ty.union he)
        refine hne' (Sifted.eq (fun p hp ↦ ha.child hp) (fun p hp ↦ hb.child hp)
          ha.normal.unionParts_sifted hb.normal.unionParts_sifted ?_ ?_ parts_antisymm)
        · exact exists_part_of_unions ha.normal hb.normal hne' hab
        · exact exists_part_of_unions hb.normal ha.normal (fun he ↦ hne' he.symm) hba

end Env

end TypeAlgebra
